import Bklib.Model.HttpCgi

/-!
# `Bklib.Model.Url`: `url_parse`

`str` is the memory from the pointer on, with a NUL wherever the list has ended. A pointer into it is an
index. `buf` holds the bytes between the start of the buffer and `bufp`, with the NUL at `bufp` left out.
What the parser reads and writes is recorded: `top` is the highest index of `str` that was read, and
`wrote` is how far the buffer was written.
-/

set_option autoImplicit false

namespace Bklib

open Lib (scan)

/-- `url_parse_err_t`. -/
inductive UrlParseErr where
  | ok
  | char
  | overflow
  deriving DecidableEq, Repr

/-- The numbers of the enumeration. -/
def UrlParseErr.code : UrlParseErr → Int
  | ok       => 0
  | char     => 1
  | overflow => 2

/-- `url_parse_state_t`. -/
inductive UrlParseState where
  | proto
  | host
  | port
  | pathArgs
  | path
  | args
  deriving DecidableEq, Repr

/-- `url_t`, without its pool. -/
structure UrlT where
  url      : Option (List UInt8) := none
  proto    : Option (List UInt8) := none
  user     : Option (List UInt8) := none
  host     : Option (List UInt8) := none
  port     : Int := 0
  pathArgs : Option (List UInt8) := none
  path     : Option (List UInt8) := none
  argsStr  : Option (List UInt8) := none
  args     : Option (List HttpKeyval) := none
  errCode  : UrlParseErr := .ok
  errState : UrlParseState := .proto
  errPos   : Nat := 0
  deriving DecidableEq

/-- `sizeof (buf)`. -/
def urlBufSize : Nat := 16834

/-- `url_parse` at work. -/
structure UrlParse where
  state : UrlParseState
  strp  : Nat
  buf   : List UInt8
  url   : UrlT
  done  : Bool
  top   : Nat
  wrote : Nat
  deriving DecidableEq

/-! ## Characters -/

/-- What `url_parse_char` reads. -/
structure UrlChar where
  strp : Nat
  c    : UInt8
  err  : Bool
  /-- The highest index read. -/
  top  : Nat
  deriving DecidableEq

/-- `url_parse_char`. -/
def urlParseChar (str : List UInt8) (strp : Nat) : UrlChar :=
  if str.getD strp 0 = 37 then
    -- both digits are copied, whatever they are
    let r := strtoul16 (cstr [str.getD (strp + 1) 0, str.getD (strp + 2) 0])
    let c := UInt8.ofNat (r.1 % 256)
    { strp := strp + 3, c, err := c == 0 && r.2 == 0, top := strp + 2 }
  else { strp := strp + 1, c := str.getD strp 0, err := false, top := strp }

namespace UrlParse

variable (s : UrlParse)

/-- `url_parse_err`, at the position of `strp`. -/
def fail (code : UrlParseErr) : UrlParse :=
  { s with url := { s.url with errState := s.state, errCode := code, errPos := s.strp } }

/-- `URL_PARSE_STATE`. -/
def goto (state : UrlParseState) : UrlParse := { s with state, buf := [], wrote := max s.wrote 1 }

/-- `strp += n`. -/
def skip (n : Nat) : UrlParse := { s with strp := s.strp + n }

/-- Characters up to an index are read. -/
def read (i : Nat) : UrlParse := { s with top := max s.top i }

end UrlParse

/-- `URL_PARSE_CHAR_BUF`. -/
def urlParseCharBuf (str : List UInt8) (s : UrlParse) : UrlParse :=
  let r := urlParseChar str s.strp
  let s := { s with strp := r.strp }.read r.top
  -- the character is still buffered after this error
  let s := if r.err then s.fail .char else s
  if urlBufSize - 1 ≤ s.buf.length then s.fail .overflow
  else { s with buf := s.buf ++ [r.c], wrote := max s.wrote (s.buf.length + 2) }

/-- The characters of a protocol and of a host. -/
def urlNameChar (ch : UInt8) : Bool := isalnum ch || ch ∈ bytes "%_-."

/-! ## States -/

/-- `case URL_PARSE_PROTO`. -/
def urlParseProto (str : List UInt8) (s : UrlParse) : UrlParse :=
  let ch := str.getD s.strp 0
  let s := s.read s.strp
  let s := if ch = 0 ∨ ch = 58 then { s with url := { s.url with proto := some (cstr s.buf) } } else s
  if ch = 0 then { s with done := true }
  else if ch = 58 then
    let s := (s.skip 1).goto .pathArgs
    -- the second character is read when the first one is a slash
    let s := s.read (if str.getD s.strp 0 = 47 then s.strp + 1 else s.strp)
    if strncmpEq (cstr (str.drop s.strp)) (bytes "//") 2 then (s.skip 2).goto .host else s
  else if urlNameChar ch then urlParseCharBuf str s
  else s.fail .char

/-- `case URL_PARSE_HOST`. -/
def urlParseHost (str : List UInt8) (s : UrlParse) : UrlParse :=
  let ch := str.getD s.strp 0
  let s := s.read s.strp
  let s := if ch = 0 ∨ ch = 58 ∨ ch = 47 then
    { s with url := { s.url with host := some (cstr s.buf) } } else s
  if ch = 0 then { s with done := true }
  -- what was read is not the host but the user
  else if ch = 64 then
    { s.skip 1 with url := { s.url with user := some (cstr s.buf) } }.goto .host
  else if ch = 47 then s.goto .pathArgs
  else if ch = 58 then (s.skip 1).goto .port
  else if urlNameChar ch then urlParseCharBuf str s
  else s.fail .char

/-- `case URL_PARSE_PORT`. -/
def urlParsePort (str : List UInt8) (s : UrlParse) : UrlParse :=
  let ch := str.getD s.strp 0
  let s := s.read s.strp
  let s := if ch = 0 ∨ ch = 47 then
      -- the error for a port without a digit does not keep the state from going on
      let r := strtoul (cstr s.buf)
      let s := { s with url := { s.url with port := natToInt32 r.1 } }
      if r.2 = 0 then s.fail .char else s
    else s
  if ch = 0 then { s with done := true }
  else if ch = 47 then s.goto .pathArgs
  else if isdigit ch || ch == 37 then urlParseCharBuf str s
  else s.fail .char

/-- `case URL_PARSE_PATH_ARGS`. -/
def urlParsePathArgs (str : List UInt8) (s : UrlParse) : UrlParse :=
  let rest := cstr (str.drop s.strp)
  let s := s.read (s.strp + rest.length)
  { s with url := { s.url with pathArgs := some rest } }.goto .path

/-- `case URL_PARSE_PATH`. -/
def urlParsePath (str : List UInt8) (s : UrlParse) : UrlParse :=
  let ch := str.getD s.strp 0
  let s := s.read s.strp
  let s := if ch = 0 ∨ ch = 63 then { s with url := { s.url with path := some (cstr s.buf) } } else s
  if ch = 0 then { s with done := true }
  else if ch = 63 then (s.skip 1).goto .args
  else urlParseCharBuf str s

/-- `case URL_PARSE_ARGS`. -/
def urlParseArgs (str : List UInt8) (s : UrlParse) : UrlParse :=
  let rest := cstr (str.drop s.strp)
  let s := s.read (s.strp + rest.length)
  -- what `http_cgi_args` returns is not checked
  { s with
    url := { s.url with
      argsStr := some rest, args := (httpCgiArgs (rest ++ [0]) (natToInt32 rest.length)).args }
    done := true }

/-! ## `url_parse` -/

/-- A round of the loop. -/
def urlRound (str : List UInt8) (s : UrlParse) : UrlParse :=
  match s.state with
  | .proto    => urlParseProto str s
  | .host     => urlParseHost str s
  | .port     => urlParsePort str s
  | .pathArgs => urlParsePathArgs str s
  | .path     => urlParsePath str s
  | .args     => urlParseArgs str s

/-- Where the loop ends. -/
def urlStopped (s : UrlParse) : Bool := s.done || s.url.errCode != .ok

/-- The state before the first round. The string has been copied by then. -/
def urlStart (str : List UInt8) : UrlParse :=
  { state := .proto, strp := 0, buf := [], url := { url := some (cstr str) }, done := false
    top := (cstr str).length, wrote := 1 }

/-- The port of a protocol, which may be a null pointer. -/
def urlDefaultPort (proto : Option (List UInt8)) (port : Int) : Int :=
  let proto := proto.getD []
  if strcasecmpEq proto (bytes "http") then 80
  else if strcasecmpEq proto (bytes "https") then 443
  else if strcasecmpEq proto (bytes "ftp") then 21
  else port

/-- The end of the loop of `url_parse`. Three rounds move no character on. -/
def urlLoop (str : List UInt8) : UrlParse :=
  scan (urlRound str) urlStopped (str.length + 3) (urlStart str)

/-- `url_parse`: the components, and the result. -/
def urlParse (str : List UInt8) : UrlT × Int :=
  let url := (urlLoop str).url
  let url := if url.errCode = .ok ∧ url.port = 0 then
    { url with port := urlDefaultPort url.proto url.port } else url
  (url, url.errCode.code)

end Bklib
