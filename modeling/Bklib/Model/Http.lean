import Bklib.Model.CInt
import Bklib.Model.Libc

/-!
# `Bklib.Model.Http`: the header parser of `http.c`

`http_header_parse` runs an automaton over `buf`, from its first byte, on every call. A pointer into
`buf` is an index. Memory goes on behind the `len` bytes that the caller names, so `buf` may be
longer than `len`; past the end of the list there are NULs.

The automaton steps back (`ptr--`) in two of its states, to look at the same character again in the
state it goes to. `httpChar` is all the work on one character: one round of the loop, and a second
round where the first stepped back. The second round never steps back (`httpChar_back`).

A string that `http_strdup` returns is a C string, `none` when it is null. Reading through a null
string ends the process, and the call has no result then. The memory of the strings is a pool, which
is not modelled.
-/

set_option autoImplicit false

namespace Bklib

/-! ## Data -/

/-- `http_state_t`. -/
inductive HttpState where
  | error
  | init
  | space
  | op
  | responseCode
  | responseMessage
  | uri
  | version
  | headerBol
  | header
  | headerName
  | headerVal
  | done
  deriving DecidableEq, Repr, Inhabited

/-- The numbers of the enumeration. -/
def HttpState.code : HttpState → Int
  | error           => -1
  | init            => 1
  | space           => 2
  | op              => 3
  | responseCode    => 4
  | responseMessage => 5
  | uri             => 6
  | version         => 7
  | headerBol       => 8
  | header          => 9
  | headerName      => 10
  | headerVal       => 11
  | done            => 12

/-- `http_op_t`. -/
inductive HttpOp where
  | unknown
  | response
  | get
  | put
  | post
  deriving DecidableEq, Repr, Inhabited

/-- `http_keyval_t`, without the link to the next one. -/
structure HttpKeyval where
  key : Option (List UInt8)
  val : Option (List UInt8)
  deriving DecidableEq, Repr, Inhabited

/-- `http_header_t`. The last of `headers` is `headers_last`. -/
structure HttpHeader where
  op : Option (List UInt8)
  opCode : HttpOp
  responseCode : Int
  responseMessage : Option (List UInt8)
  uri : Option (List UInt8)
  httpVersion : Option (List UInt8)
  headers : List HttpKeyval
  headerLen : Nat
  totalLen : Nat
  contentPtr : Option Nat
  contentLen : Nat
  contentType : Option (List UInt8)
  errorLine : Nat
  errorState : Int
  errorCol : Int
  deriving DecidableEq, Repr, Inhabited

/-- `http_header_clear`: all fields are zeroed. -/
def httpHeaderClear (_http : HttpHeader) : HttpHeader where
  op := none
  opCode := .unknown
  responseCode := 0
  responseMessage := none
  uri := none
  httpVersion := none
  headers := []
  headerLen := 0
  totalLen := 0
  contentPtr := none
  contentLen := 0
  contentType := none
  errorLine := 0
  errorState := 0
  errorCol := 0

/-- The local variables of `http_header_parse`. `back` is set by `ptr--`, and `fault` once a null
string is read. -/
structure HttpScan where
  http : HttpHeader
  ptr : Nat
  word : Nat
  line : Nat
  linePtr : Nat
  state : HttpState
  stateNext : HttpState
  back : Bool
  fault : Bool

/-! ## Strings -/

/-- `for (p = str + len - 1; p > str && isspace (*p); p--)`, from `p` on. -/
def httpTrim (str : List UInt8) : Nat → Nat
  | 0     => 0
  | p + 1 => if isspace (str.getD (p + 1) 0) then httpTrim str p else p + 1

/-- What `http_strdup` copies of a string without leading space. A string of one character has `p`
at `str` from the start, and nothing of it is copied. -/
def httpStrdupCut (str : List UInt8) : List UInt8 :=
  let p := httpTrim str (str.length - 1)
  str.take (if 0 < p ∧ !isspace (str.getD p 0) then p + 1 else p)

/-- `http_strdup (http, str, len)`, where `str` is the bytes from `str` to `str + len`. The length
is passed as an `int`; when it comes out negative, so does the size of the allocation. -/
def httpStrdup (str : List UInt8) : Option (List UInt8) :=
  let len := natToInt32 str.length
  if len < 0 then none
  else
    let str := (str.take len.toNat).dropWhile isspace
    some (cstr ((httpStrdupCut str).filter (· ≠ 13)))

/-- `http_keyval_get`, without the node found. `none` means that it read a null key. -/
def httpKeyvalGet : List HttpKeyval → List UInt8 → Option (Option (List UInt8))
  | [],        _   => some none
  | n :: node, key =>
      match n.key with
      | none   => none
      | some k => if strcasecmpEq k key then some n.val else httpKeyvalGet node key

/-- An assignment through `headers_last`. -/
def httpSetLast (f : HttpKeyval → HttpKeyval) (headers : List HttpKeyval) : List HttpKeyval :=
  match headers.getLast? with
  | none      => headers
  | some last => headers.dropLast ++ [f last]

/-! ## The automaton -/

namespace HttpScan

variable (buf : List UInt8) (s : HttpScan)

/-- `*ptr`. -/
def cur : UInt8 := buf.getD s.ptr 0

/-- The bytes from `word` to `ptr`. -/
def token : List UInt8 := (buf.drop s.word).take (s.ptr - s.word)

/-- `HTTP_HEADER_PARSE_ERROR`. -/
def parseError : HttpScan :=
  { s with
    http := { s.http with
      errorState := s.state.code, errorLine := s.line, errorCol := toInt32 (s.ptr - s.linePtr) }
    state := .error }

/-- `case HTTP_STATE_INIT`. -/
def caseInit (isSpace isNl : Bool) : HttpScan :=
  if !isSpace && !isNl then { s with state := .op, word := s.ptr, back := true } else s

/-- `case HTTP_STATE_SPACE`. -/
def caseSpace (isSpace : Bool) : HttpScan :=
  if !isSpace then { s with state := s.stateNext, word := s.ptr, back := true } else s

/-- The `op_code` of a method. -/
def opCodeOf (op : List UInt8) : HttpOp :=
  if op = bytes "GET" then .get
  else if op = bytes "PUT" then .put
  else if op = bytes "POST" then .post
  else .unknown

/-- `case HTTP_STATE_OP`. -/
def caseOp (isSpace isNl : Bool) : HttpScan :=
  if isNl then s.parseError
  else if isSpace then
    match httpStrdup (s.token buf) with
    | none    => { s with fault := true }
    | some op =>
        if strncmpEq op (bytes "HTTP/") 5 then
          { s with
            http := { s.http with op := none, httpVersion := some op, opCode := .response }
            state := .space, stateNext := .responseCode }
        else
          { s with
            http := { s.http with op := some op, opCode := opCodeOf op }
            state := .space, stateNext := .uri }
  else s

/-- `case HTTP_STATE_RESPONSE_CODE`. Nothing tells `strtoul` where the header ends. -/
def caseResponseCode (isSpace isNl : Bool) : HttpScan :=
  if isSpace || isNl then
    let r := strtoul (buf.drop s.word)
    let s := { s with http := { s.http with responseCode := natToInt32 r.1 } }
    if r.2 = 0 then s.parseError
    else { s with state := if isNl then .header else .space, stateNext := .responseMessage }
  else s

/-- `case HTTP_STATE_RESPONSE_MESSAGE`. -/
def caseResponseMessage (isNl : Bool) : HttpScan :=
  if isNl then
    { s with http := { s.http with responseMessage := httpStrdup (s.token buf) }, state := .header }
  else s

/-- `case HTTP_STATE_URI`. -/
def caseUri (isSpace isNl : Bool) : HttpScan :=
  if isSpace || isNl then
    { s with
      http := { s.http with uri := httpStrdup (s.token buf) }
      state := .space, stateNext := if isNl then .header else .version }
  else s

/-- `case HTTP_STATE_VERSION`. -/
def caseVersion (isSpace isNl : Bool) : HttpScan :=
  if isSpace || isNl then
    let s := { s with http := { s.http with httpVersion := httpStrdup (s.token buf) } }
    if isNl then { s with state := .header }
    else { s with state := .space, stateNext := .headerBol }
  else s

/-- `case HTTP_STATE_HEADER_BOL`. -/
def caseHeaderBol (isNl : Bool) : HttpScan :=
  if !isNl then s.parseError else { s with state := .header }

/-- `case HTTP_STATE_HEADER`. -/
def caseHeader (isSpace isNl : Bool) : HttpScan :=
  if isSpace then { s with state := .headerVal }
  else
    -- the value of the last header ends here, continuation lines included
    let headers := httpSetLast (fun h => { h with val := httpStrdup (s.token buf) }) s.http.headers
    if isNl then { s with http := { s.http with headers := headers }, state := .done }
    else
      { s with
        http := { s.http with headers := headers ++ [⟨none, none⟩] }
        word := s.ptr, state := .headerName }

/-- `case HTTP_STATE_HEADER_NAME`. -/
def caseHeaderName : HttpScan :=
  if !(isalnum (s.cur buf) || s.cur buf == 45) then
    if s.cur buf ≠ 58 then s.parseError
    else
      let key := httpStrdup (s.token buf)
      { s with
        http := { s.http with headers := httpSetLast (fun h => { h with key := key }) s.http.headers }
        state := .space, stateNext := .headerVal }
  else s

/-- `case HTTP_STATE_HEADER_VAL`. -/
def caseHeaderVal (isNl : Bool) : HttpScan :=
  if isNl then { s with state := .header } else s

end HttpScan

/-- The `switch`. -/
def httpSwitch (buf : List UInt8) (isSpace isNl : Bool) (s : HttpScan) : HttpScan :=
  match s.state with
  | .init            => s.caseInit isSpace isNl
  | .space           => s.caseSpace isSpace
  | .op              => s.caseOp buf isSpace isNl
  | .responseCode    => s.caseResponseCode buf isSpace isNl
  | .responseMessage => s.caseResponseMessage buf isNl
  | .uri             => s.caseUri buf isSpace isNl
  | .version         => s.caseVersion buf isSpace isNl
  | .headerBol       => s.caseHeaderBol isNl
  | .header          => s.caseHeader buf isSpace isNl
  | .headerName      => s.caseHeaderName buf
  | .headerVal       => s.caseHeaderVal isNl
  | .done            => s
  | .error           => s

/-- `is_nl`. -/
def isNl (c : UInt8) : Bool := c == 10

/-- `is_space`. -/
def isBlank (c : UInt8) : Bool := c == 32 || c == 9

/-- One round of the loop on a character other than `'\r'`. -/
def httpRound (buf : List UInt8) (s : HttpScan) : HttpScan :=
  let c := s.cur buf
  let s := if isNl c then { s with line := s.line + 1, linePtr := s.ptr } else s
  httpSwitch buf (isBlank c) (isNl c) s

/-- What the loop does with the character at `ptr`. -/
def httpChar (buf : List UInt8) (s : HttpScan) : HttpScan :=
  if s.cur buf = 13 then s
  else
    let s := httpRound buf s
    if s.back then httpRound buf { s with back := false } else s

/-- The loop condition fails, or the process has ended. -/
def HttpScan.stopped (s : HttpScan) : Bool := s.state = .done ∨ s.state = .error ∨ s.fault

/-- The loop, with the number of bytes from `ptr` to `end`. -/
def httpLoop (buf : List UInt8) : Nat → HttpScan → HttpScan
  | 0,     s => s
  | n + 1, s =>
      if s.stopped then s
      else httpLoop buf n { httpChar buf s with ptr := s.ptr + 1 }

/-- The local variables before the loop. -/
def httpStart (http : HttpHeader) : HttpScan where
  http := httpHeaderClear http
  ptr := 0
  word := 0
  line := 0
  linePtr := 0
  state := .init
  stateNext := .init
  back := false
  fault := false

/-- `http_header_parse` after the loop. -/
def httpFinish (s : HttpScan) : Option (HttpHeader × Int) :=
  if s.fault then none
  else if s.state = .error then some (s.http, -s.http.errorState)
  else if s.state ≠ .done then some (httpHeaderClear s.http, 0)
  else do
    let p ← httpKeyvalGet s.http.headers (bytes "content-length")
    let contentLen := match p with
      | none   => 0
      | some p => (strtoul p).1
    let contentType ← httpKeyvalGet s.http.headers (bytes "content-type")
    some
      ({ s.http with
          headerLen := s.ptr
          totalLen := (s.ptr + contentLen) % 2 ^ 64
          contentPtr := some s.ptr
          contentLen := contentLen
          contentType := contentType }, 1)

/-- `http_header_parse`: what it leaves in `http`, and what it returns. -/
def httpHeaderParse (http : HttpHeader) (buf : List UInt8) (len : Nat) : Option (HttpHeader × Int) :=
  httpFinish (httpLoop buf len (httpStart http))

end Bklib
