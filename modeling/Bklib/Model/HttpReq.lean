import Bklib.Lib.SparseFile
import Bklib.Model.Http
import Bklib.Model.Sock
import Mathlib.Data.UInt

/-!
# `Bklib.Model.HttpReq`: `http_get` of `http_req.c`

`http_get` is run against an `HttpReqEnv`, which says what every call out of it returns: the parse of
the url, the system calls, and the callback. `recv` never returns more than it is asked for, so a
longer result is cut. The list of results goes on with end-of-file, and the list of `fread` results
with an empty read. The callback is what it answers to its first call, its second, and so on.

A `break` out of the receive loop is the flag `left`. A null string read by the header parser ends
the process, and there is no result.
-/

set_option autoImplicit false

namespace Bklib

open Bklib.Lib

/-- `http_req_state_t`. -/
inductive HttpReqState where
  | resolve
  | connect
  | send
  | head
  | body
  | eof
  | error
  deriving DecidableEq, Repr, Inhabited

/-- `http_req_error_t`. -/
inductive HttpReqError where
  | none
  | badUrl
  | connect
  | badResponse
  | incomplete
  | fileNotFound
  deriving DecidableEq, Repr, Inhabited

/-- The fields of `url_t` that are used. -/
structure Url where
  proto : List UInt8
  host : List UInt8
  path : List UInt8
  pathArgs : List UInt8
  deriving DecidableEq, Repr, Inhabited

/-- `http_req_t`, without the url. -/
structure HttpReq where
  reqState : HttpReqState
  reqError : HttpReqError
  replyHdr : HttpHeader
  replyMax : Int
  replyLen : Int
  deriving DecidableEq, Repr, Inhabited

/-- A call of the callback: the request, and the memory and the length it is given. -/
structure HttpReqCall where
  req : HttpReq
  buf : List UInt8
  len : Nat
  deriving DecidableEq, Repr, Inhabited

/-- The bytes that the callback is given. -/
def HttpReqCall.data (c : HttpReqCall) : List UInt8 := c.buf.take c.len

/-- What the calls out of `http_get` return. `stack` is the memory from `buf` on, and `http` the
header, before anything is stored there. -/
structure HttpReqEnv where
  urlParse : Option Url
  stat : Option Nat
  fopen : Bool
  fread : List (List UInt8)
  socket : Bool
  iaddrFmt : List UInt8
  connect : Bool
  send : Bool
  recv : List RecvResult
  func : Nat → Int
  stack : List UInt8
  http : HttpHeader

/-- The local variables of `http_get`, the calls of `func` made, and whether the loop was left. -/
structure HttpGet where
  calls : List HttpReqCall
  req : HttpReq
  err : Int
  reqErr : HttpReqError
  buf : List UInt8
  len : Nat
  gotHeader : Bool
  left : Bool
  fault : Bool

/-- `sizeof (buf)`. -/
def httpBufSize : Nat := 16384

namespace HttpGet

variable (e : HttpReqEnv) (s : HttpGet)

/-- `err = func (&req, buf, len, farg)`. -/
def func (buf : List UInt8) (len : Nat) : HttpGet :=
  { s with calls := s.calls ++ [⟨s.req, buf, len⟩], err := e.func s.calls.length }

def setState (st : HttpReqState) : HttpGet := { s with req := { s.req with reqState := st } }

/-- `snprintf (buf, sizeof (buf), ..)`. -/
def snprintf (text : List UInt8) : HttpGet :=
  { s with buf := put s.buf 0 (text.take (httpBufSize - 1) ++ [0]) }

/-- Text for the callback, with the length that `snprintf` returns. -/
def say (st : HttpReqState) (text : List UInt8) : HttpGet :=
  let s := (s.snprintf text).setState st
  s.func e s.buf text.length

end HttpGet

section

variable (e : HttpReqEnv)

/-! ## Files -/

/-- The loop that reads a file. -/
def httpGetFread : List (List UInt8) → HttpGet → HttpGet
  | [],      s => { s with len := 0 }
  | d :: ds, s =>
      let d := d.take httpBufSize
      let s := { s with buf := put s.buf 0 d, len := d.length }
      if s.len ≤ 0 then s
      else
        let s := s.func e s.buf s.len
        if s.err ≠ 0 then s else httpGetFread ds s

/-- The branch for `file`. -/
def httpGetFile (s : HttpGet) : HttpGet :=
  let s := { s with reqErr := .fileNotFound }
  match e.stat with
  | none      => s
  | some size =>
      let s := { s with req := { s.req with replyHdr := { s.req.replyHdr with contentLen := size } } }
      let s := s.setState .body
      if !e.fopen then s
      else
        let s := httpGetFread e e.fread s
        { s with reqErr := .none, err := 0 }

/-! ## The receive loop -/

/-- A header that is complete. What came behind it is moved to the start of the buffer. -/
def httpGetHead (http : HttpHeader) (s : HttpGet) : HttpGet :=
  let s : HttpGet := { s with
    gotHeader := true, req := { s.req with replyMax := natToInt32 http.contentLen } }
  let s := (s.setState .head).func e s.buf http.headerLen
  if s.err ≠ 0 then { s with left := true }
  else
    let s := { s with len := s.len - http.headerLen }
    { s with
      buf := if 0 < s.len then put s.buf 0 ((s.buf.drop http.headerLen).take s.len) else s.buf }

/-- `if( !got_header )`. A header that is not complete leaves everything for the next round. -/
def httpGetHeader (s : HttpGet) : HttpGet :=
  match httpHeaderParse (httpHeaderClear s.req.replyHdr) s.buf s.len with
  | none           => { s with left := true, fault := true }
  | some (http, i) =>
      let s := { s with req := { s.req with replyHdr := http } }
      if i < 0 then { s with reqErr := .badResponse, left := true }
      else if i = 0 then s
      else httpGetHead e http s

/-- `if( got_header )`. -/
def httpGetBody (s : HttpGet) : HttpGet :=
  let s := { s with req := { s.req with replyLen := toInt32 (s.req.replyLen + s.len) } }
  let s := (s.setState .body).func e s.buf s.len
  { s with len := 0, left := !(s.err == 0) }

/-- What the loop does with bytes received. -/
def httpGetData (s : HttpGet) : HttpGet :=
  let s := if s.gotHeader then s else httpGetHeader e s
  if s.left then s
  else if s.gotHeader then httpGetBody e s
  else s

/-- One round of the loop, in which `recv` returns `r`. -/
def httpGetRound (r : RecvResult) (s : HttpGet) : HttpGet :=
  if httpBufSize ≤ s.len then { s with left := true }
  else
    match r with
    | .bytes bs =>
        let bs := bs.take (httpBufSize - s.len)
        if bs = [] then { (s.setState .eof).func e [] 0 with left := true }
        else httpGetData e { s with buf := put s.buf s.len bs, len := s.len + bs.length }
    | .error | .wouldblock => { s with reqErr := .incomplete, left := true }

/-- The loop. -/
def httpGetLoop : List RecvResult → HttpGet → HttpGet
  | [],      s => httpGetRound e (.bytes []) s
  | r :: rs, s =>
      let s := httpGetRound e r s
      if s.left then s else httpGetLoop rs s

/-! ## The request -/

/-- What is sent. -/
def httpGetText (url : Url) : List UInt8 :=
  bytes "GET " ++ url.pathArgs ++ bytes " HTTP/1.0\r\n" ++
    (bytes "Host: " ++ url.host ++ bytes "\r\n" ++ bytes "\r\n")

/-- The branch for `http`. -/
def httpGetHttp (url : Url) (s : HttpGet) : HttpGet :=
  let s := { s with reqErr := .connect }
  if !e.socket then s
  else
    let s := s.say e .resolve (bytes "resolving host " ++ url.host ++ bytes "\n")
    if s.err ≠ 0 then s
    else
      let s := s.say e .connect
        (bytes "connecting to host " ++ url.host ++ bytes " at " ++ e.iaddrFmt ++ bytes "\n")
      if s.err ≠ 0 then s
      else if !e.connect then s
      else
        let s := s.say e .send (httpGetText url)
        if s.err ≠ 0 then s
        else if !e.send then s
        else
          let s := httpGetLoop e e.recv { s with len := 0, gotHeader := false }
          { s with reqErr := .none }

/-- The outer `do { .. } while (0)`. -/
def httpGetMain (s : HttpGet) : HttpGet :=
  let s := { s with reqErr := .badUrl }
  match e.urlParse with
  | none     => s
  | some url =>
      if strcasecmpEq url.proto (bytes "file") then httpGetFile e s
      else if !strcasecmpEq url.proto (bytes "http") then s
      else httpGetHttp e url s

/-- The report of an error, at the end. -/
def httpGetReport (s : HttpGet) : HttpGet :=
  let s := if s.gotHeader ∧ s.req.replyHdr.responseCode ≠ 200 then { s with reqErr := .fileNotFound }
    else s
  if s.reqErr ≠ .none then
    let s := { s with req := { s.req with reqState := .error, reqError := s.reqErr } }
    s.func e s.buf s.len
  else s

/-- The local variables at the start. -/
def httpGetStart : HttpGet where
  calls := []
  req := ⟨.resolve, .none, e.http, 0, 0⟩
  err := -1
  reqErr := .none
  buf := e.stack
  len := 0
  gotHeader := false
  left := false
  fault := false

/-- `http_get`: the calls of the callback, in order, and what it returns. -/
def httpGet : Option (List HttpReqCall × Int) :=
  let s := httpGetMain e (httpGetStart e)
  if s.fault then none
  else
    let s := httpGetReport e s
    some (s.calls, s.err)

end

end Bklib
