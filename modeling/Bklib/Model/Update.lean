import Bklib.Lib.Replies
import Bklib.Model.Dir
import Bklib.Model.HttpReq
import Bklib.Model.Snprintf
import Bklib.Model.Url
import Bklib.Model.Vercmp

/-!
# `Bklib.Model.Update`: `update.c`

`update` is run against an `UpdateEnv`, which says what the calls out of it return: the callback,
the XML parser, the system calls under `http_get`, files, and processes. What `update` does is
recorded as a list of `UpdateEvent`s.

`http_get` is called with a callback that has a state. `httpGetWith` lets `http_get` make its calls
with the answers that this callback gives to them.

A null pointer that is read as a string, a path without its NUL and a path that is shorter than the
suffix it is compared with are outside of C, and there is no result (`fault`). The times are
floating point, so the environment says when it is time to report, and what is left. A string that
is not set yet is empty.
-/

set_option autoImplicit false

namespace Bklib

open Bklib.Lib

/-- `update_state_t`. -/
inductive UpdateState where
  | init
  | error
  | ask
  | download
  | progress
  | install
  | updated
  deriving DecidableEq

/-- `update_error_t`. -/
inductive UpdateError where
  | none
  | fileNotFound
  | fileBad
  deriving DecidableEq

/-- `update_t`, without its pool, its documents and its times. -/
structure UpdateT where
  newXmlUrl     : List UInt8 := []
  state         : UpdateState := .init
  error         : UpdateError := .none
  errorMsg      : List UInt8 := []
  oldVer        : List UInt8 := []
  newVer        : List UInt8 := []
  newProduct    : List UInt8 := []
  cmpNewer      : Bool := false
  newDetails    : List UInt8 := []
  newUrl        : List UInt8 := []
  /-- The bytes of the array. -/
  newPath       : List UInt8 := List.replicate 2048 0
  progPercent   : Int := 0
  progRemain    : Int := 0
  progRemainBuf : List UInt8 := []
  progMsg       : List UInt8 := []
  deriving DecidableEq

/-- `new_path` as a string. -/
def UpdateT.path (up : UpdateT) : Option (List UInt8) :=
  if 0 ∈ up.newPath then some (cstr up.newPath) else none

/-- What `update` does. A call of `func` is recorded with the struct before and behind it. -/
inductive UpdateEvent where
  | func (before behind : UpdateT) (i : Int)
  | fopen (path : List UInt8)
  | fwrite (bs : List UInt8)
  | fclose
  | procRun (cmd : List UInt8)
  | chdir (dir : List UInt8)
  | procStart (cmd : List UInt8)
  deriving DecidableEq

/-- What the calls out of `update` return. `func` is what the callback does with its first call, its
second, and so on. `fwrite`, `due` and `remain` are for the first piece of the file, the second, and
so on. -/
structure UpdateEnv where
  func : Nat → UpdateT → UpdateT × Int
  poolNew : Bool
  oldXmlNew : Bool
  newXmlNew : Bool
  /-- `xml_parse`, and `xml_find_val` on its result. -/
  xmlParse : List UInt8 → Option (List UInt8 → Option (List UInt8))
  versionGet : HttpReqEnv
  installGet : HttpReqEnv
  fopen : List UInt8 → Bool
  fwrite : Nat → Nat
  due : Nat → Bool
  remain : Nat → Int
  readableDuration : Int → List UInt8
  procRun : List UInt8 → Int
  chdir : List UInt8 → Int
  stat : List UInt8 → Bool
  procStart : List UInt8 → Int

/-- The local variables of `update`, the number of calls of `func`, and what was done. -/
structure Update where
  up : UpdateT
  i : Int
  err : Int
  calls : Nat
  events : List UpdateEvent
  fault : Bool

/-! ## `http_get` with a callback -/

/-- What `url_parse` makes of a string, for `http_get`. A null pointer is printed as `(null)`. -/
def httpGetUrl (urlstr : List UInt8) : Option Url :=
  let (url, i) := urlParse (urlstr ++ [0])
  if i ≠ 0 then none
  else some ⟨url.proto.getD [], url.host.getD (bytes "(null)"), url.path.getD [],
    url.pathArgs.getD (bytes "(null)")⟩

/-- `http_get` of `urlstr`, with its calls answered by `func`. -/
def httpGetCalls (e : HttpReqEnv) (urlstr : List UInt8) (func : Nat → Int) :
    Option (List HttpReqCall × Int) :=
  httpGet { e with urlParse := httpGetUrl urlstr, func }

/-- `http_get (urlstr, func, arg)`: what is left in `arg`, and the result. -/
def httpGetWith {σ : Type} (e : HttpReqEnv) (urlstr : List UInt8) (func : σ → HttpReqCall → σ × Int)
    (arg : σ) : Option (σ × Int) :=
  let calls := fun answers => ((httpGetCalls e urlstr answers).map Prod.fst).getD []
  (httpGetCalls e urlstr (replies calls func arg 0)).map fun r => (stateAfter func arg r.1, r.2)

namespace Update

variable (e : UpdateEnv) (s : Update)

/-- `up->state = state; i = up->func (up)`. -/
def func (state : UpdateState) : Update :=
  let before := { s.up with state }
  let (behind, i) := e.func s.calls before
  { s with up := behind, i, calls := s.calls + 1, events := s.events ++ [.func before behind i] }

/-- Something is done that returns `i`. -/
def act (event : UpdateEvent) (i : Int) : Update := { s with i, events := s.events ++ [event] }

/-- The error to report when what comes next fails. -/
def blame (error : UpdateError) (errorMsg : List UInt8) : Update :=
  { s with up := { s.up with error, errorMsg } }

end Update

section

variable (e : UpdateEnv)

/-! ## The callbacks of `http_get` -/

/-- `http_req_buf_t`: the bytes that `buf` holds up to `len`. -/
structure HttpReqBuf where
  update : Update
  buf : List UInt8

/-- `sizeof (buf)` of `update`. -/
def updateBufSize : Nat := 65536

/-- `HTTP_REQ_ERROR`: `update` is told that its own report is not needed. -/
def updateHttpError (s : Update) : Update :=
  let s := s.func e .error
  { s with up := { s.up with error := .none } }

/-- `http_req_buf`. An assertion that fails leaves the `switch` only, so that the bytes are skipped.
-/
def httpReqBuf (arg : HttpReqBuf) (c : HttpReqCall) : HttpReqBuf × Int :=
  match c.req.reqState with
  | .error => ({ arg with update := updateHttpError e arg.update }, -1)
  | .body  =>
      if c.len < updateBufSize - arg.buf.length then ({ arg with buf := arg.buf ++ c.data }, 0)
      else (arg, 0)
  | _      => (arg, 0)

/-- `http_req_prog_t`, and the number of pieces so far. -/
structure HttpReqProg where
  update : Update
  len : Nat
  pieces : Nat

/-- The report of `http_req_prog`. -/
def updateProgress (arg : HttpReqProg) (k contentLen : Nat) : Update :=
  let up := arg.update.up
  let up := if 0 < contentLen then
      { up with progPercent := natToInt32 (100 * arg.len % 2 ^ 64 / contentLen) }
    else up
  let up := if 0 < up.progPercent then
      { up with
        progRemain := e.remain k
        progRemainBuf := (fmtD up.progPercent ++ bytes "% complete, " ++
          e.readableDuration (e.remain k) ++ bytes " remaining").take 1023 }
    else { up with progRemainBuf := [] }
  { arg.update with up }.func e .progress

/-- `http_req_prog`. A write that fails leaves the `switch` only. -/
def httpReqProg (arg : HttpReqProg) (c : HttpReqCall) : HttpReqProg × Int :=
  match c.req.reqState with
  | .error => ({ arg with update := updateHttpError e arg.update }, -1)
  | .body  =>
      let k := arg.pieces
      let i := min (e.fwrite k) c.len
      let arg := { arg with
        update := arg.update.act (.fwrite (c.data.take i)) i, pieces := k + 1 }
      if i ≠ c.len then (arg, 0)
      else
        let arg := { arg with len := arg.len + c.len }
        if e.due k then
          let update := updateProgress e arg k c.req.replyHdr.contentLen
          ({ arg with update }, update.i)
        else (arg, 0)
  | _      => (arg, 0)

/-! ## The steps of `update` -/

/-- The suffix of an archive. -/
def tarGz : List UInt8 := bytes ".tar.gz"

/-- The branch for an archive. -/
def updateUntar (path : List UInt8) (s : Update) : Update :=
  let cmd := (bytes "tar zxf '" ++ path ++ bytes "'").take (updateBufSize - 1)
  let s := s.act (.procRun cmd) (e.procRun cmd)
  if s.i < 0 then s
  else
    let dir := path.take (path.length - tarGz.length)
    let s := { s with up := { s.up with newPath := s.up.newPath.set dir.length 0 } }
    let s := s.act (.chdir dir) (e.chdir dir)
    if s.i < 0 then s
    else
      let s :=
        if e.stat (bytes "INSTALL.sh") then
          s.act (.procStart (bytes "sh ./INSTALL.sh")) (e.procStart (bytes "sh ./INSTALL.sh"))
        else if e.stat (bytes "install.sh") then
          s.act (.procStart (bytes "sh ./install.sh")) (e.procStart (bytes "sh ./install.sh"))
        else s
      -- the result of the script is lost
      s.act (.chdir (bytes "..")) (e.chdir (bytes ".."))

/-- Unpack and run the update. -/
def updateRun (s : Update) : Update :=
  match s.up.path with
  | none      => { s with fault := true }
  | some path =>
      if path.length < tarGz.length then { s with fault := true }
      else if strcasecmpEq (path.drop (path.length - tarGz.length)) tarGz then updateUntar e path s
      else
        let cmd := (bytes "\"./" ++ path ++ bytes "\"").take (updateBufSize - 1)
        s.act (.procStart cmd) (e.procStart cmd)

/-- Install the file. -/
def updateInstall (s : Update) : Update :=
  let s := s.func e .install
  if s.i ≠ 0 then { s with err := s.i }
  else
    let s := s.blame .fileBad (bytes ("There was an error installing the new version" ++
      " of your product.  Please try again later."))
    let s := updateRun e s
    if s.fault ∨ s.i < 0 then s
    else
      let s := { s with up := { s.up with error := .none } }.func e .updated
      { s with err := s.i }

/-- Download the file into `path`, which is open. -/
def updateFetch (s : Update) : Update :=
  match httpGetWith e.installGet s.up.newUrl (httpReqProg e) ⟨s, 0, 0⟩ with
  | none          => { s with fault := true }
  | some (arg, i) =>
      let s := arg.update.act .fclose i
      if i ≠ 0 then
        let s := if 0 < i then { s with up := { s.up with error := .none } } else s
        { s with err := i }
      else updateInstall e s

/-- Download the file. -/
def updateDownload (s : Update) : Update :=
  let s := { s with up := { s.up with progMsg := bytes "Downloading file..." } }.func e .download
  if s.i ≠ 0 then { s with err := s.i }
  else
    let s := s.blame .fileNotFound (bytes ("There was an error downloading the new version" ++
      " of your product.  Please try again later."))
    match s.up.path with
    | none      => { s with fault := true }
    | some path =>
        if !e.fopen path then s
        else updateFetch e { s with events := s.events ++ [.fopen path] }

/-- Ask to update. -/
def updateAsk (s : Update) : Update :=
  let up := { s.up with
    error := .none
    cmpNewer := vercmp s.up.oldVer s.up.newVer < 0
    progMsg := (bytes "A newer version of " ++ s.up.newProduct ++
      bytes " is available.  Would you like to install it now?").take 4095 }
  let s := { s with up }.func e .ask
  if s.i ≠ 0 then { s with err := s.i }
  else updateDownload e s

/-- What the new document says. The codes of `url_parse` are never negative. -/
def updateNewXml (find : List UInt8 → Option (List UInt8)) (s : Update) : Update :=
  match find (bytes "/version/version") with
  | none        => s
  | some newVer =>
  let s := { s with up := { s.up with newVer } }
  match find (bytes "/version/product") with
  | none            => s
  | some newProduct =>
  let s := { s with up := { s.up with newProduct } }
  match find (bytes "/version/update_details") with
  | none            => s
  | some newDetails =>
  let s := { s with up := { s.up with newDetails } }
  match find (bytes "/version/install_url") with
  | none        => { s with fault := true }
  | some newUrl =>
  let s := { s with up := { s.up with newUrl } }
  let (url, i) := urlParse (newUrl ++ [0])
  if i < 0 then s
  else
    match url.path with
    | none      => { s with fault := true }
    | some path => updateAsk e { s with up := { s.up with newPath := dirBasename path 2048 } }

/-- Get the new version info from the web. -/
def updateVersion (s : Update) : Update :=
  let s := s.blame .fileNotFound (bytes ("There was an error downloading the update information" ++
    " for your product.  Please check again later."))
  match httpGetWith e.versionGet s.up.newXmlUrl (httpReqBuf e) ⟨s, []⟩ with
  | none          => { s with fault := true }
  | some (arg, i) =>
      let s := arg.update
      if i < 0 then s
      else if !e.newXmlNew then s
      else
        let s := { s with up := { s.up with error := .fileBad } }
        match e.xmlParse arg.buf with
        | none      => s
        | some find => updateNewXml e find s

/-- The old version info. -/
def updateMain (oldXmlBuf : List UInt8) (s : Update) : Update :=
  if !e.poolNew then s
  else
    let s := s.blame .fileBad (bytes ("There was an error reading the version information" ++
      " for your product.  Please check the website for the latest updates."))
    if !e.oldXmlNew then s
    else
      match e.xmlParse oldXmlBuf with
      | none      => s
      | some find =>
          match find (bytes "/version/version") with
          | none        => s
          | some oldVer =>
              let s := { s with up := { s.up with oldVer } }
              match find (bytes "/version/version_url") with
              | none           => s
              | some newXmlUrl => updateVersion e { s with up := { s.up with newXmlUrl } }

/-- The report of an error, at the end. -/
def updateReport (s : Update) : Update :=
  if s.up.error ≠ .none then
    let s := s.func e .error
    { s with err := s.i }
  else s

/-- The local variables at the start. -/
def updateStart : Update where
  up := {}
  i := 0
  err := -1
  calls := 0
  events := []
  fault := false

/-- `update`: what is done, in order, and the result. -/
def update (oldXmlBuf : List UInt8) : Option (List UpdateEvent × Int) :=
  let s := updateMain e oldXmlBuf updateStart
  if s.fault then none
  else
    let s := updateReport e s
    some (s.events, s.err)

end

end Bklib
