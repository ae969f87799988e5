import Bklib.Lib.Descriptors
import Bklib.Lib.Mem
import Bklib.Model.Fdselect
import Bklib.Model.Http
import Bklib.Model.Sock

/-!
# `Bklib.Model.HttpServer`: `http_server.c`

A client is the position of its record in the order of the accepts: the pool of the server keeps
every record, and `http_server_client_free` fills it with zeros. The results of the system calls of a
handler are given by `HttpServerOs`. The texts that are sent are left out.

`fds` is the table of descriptors of the process, each with what it was opened for. Where the code
reads through a null pointer, or a store hits the fields of a record in front of `addr`, the process
counts as ended (`fault`).
-/

set_option autoImplicit false

namespace Bklib

open Lib (Descriptors readAt writeAt)

/-- A handler with its argument. -/
inductive HttpServerFunc
  | accept
  | read (client : Nat)
  | write (client : Nat)
  deriving DecidableEq

/-- What a descriptor is open for: something from before the start (the listening socket is one), the
socket of a client, or the file for its response. -/
inductive FdUse
  | other (fd : Int)
  | sock (client : Nat)
  | file (client : Nat)
  deriving DecidableEq

/-- A result of `accept`. -/
inductive AcceptResult
  | sock (fd : Nat)
  | error
  | wouldblock

/-- The results of the system calls of a handler. -/
structure HttpServerOs where
  accept   : AcceptResult := .error
  recv     : RecvResult := .error
  /-- `stat` finds the path. -/
  stat     : List UInt8 → Bool := fun _ => false
  /-- `open` of the path. -/
  openFile : List UInt8 → Option Nat := fun _ => none
  /-- `fstat`: the size. -/
  fstat    : Option Nat := none
  /-- `send` takes the whole header. -/
  send     : Bool := false
  sendfile : SendResult := .error

/-- `HTTP_SERVER_CLIENT_BUF_MAX`. -/
def httpServerClientBufMax : Nat := 4096

/-- `http_server_client_t`, filled with zeros. `server` says whether the pointer is set, and so `pool`.
Positions in `recvBuf` count from its start. -/
structure HttpServerClient where
  server  : Bool := false
  sock    : Int := 0
  recvBuf : Int → UInt8 := fun _ => 0
  recvLen : Int := 0
  recvMax : Int := 0
  sendFd  : Int := 0
  sendOff : Nat := 0
  sendEnd : Nat := 0
  httpReq : HttpHeader := httpHeaderClear default

/-- `http_server_t`, with its clients and the descriptors of the process. -/
structure HttpServer where
  rootDir : List UInt8
  sel     : Fdselect HttpServerFunc
  clients : List HttpServerClient
  fds     : Descriptors Nat FdUse
  fault   : Bool

variable (allocOk : Nat → Bool) (os : HttpServerOs)

/-- `http_server_client_free`. A record that was freed before has no pool to clear. -/
def httpServerClientFree (s : HttpServer) (c : Nat) (client : HttpServerClient) : HttpServer :=
  if client.server = false then { s with fault := true }
  else
    let s := if 0 ≤ client.sendFd then { s with fds := s.fds.close c client.sendFd } else s
    let s :=
      if client.sock ≠ 0 then
        let sel := (fdselectUnset allocOk s.sel client.sock fdselectWRITE).1
        let sel := (fdselectUnset allocOk sel client.sock fdselectREAD).1
        { s with sel, fds := s.fds.close c client.sock }
      else s
    { s with clients := s.clients.set c {} }

/-! ## `http_server_select_accept` -/

/-- `http_server_client_init`, and the socket. -/
def httpServerClientInit (sock : Int) : HttpServerClient :=
  { server := true, sock, recvMax := httpServerClientBufMax }

/-- The new client is registered. -/
def httpServerAccepted (s : HttpServer) (sock : Int) : HttpServer :=
  { s with
    sel := (fdselectSet allocOk s.sel sock fdselectREAD (some (.read s.clients.length))).1
    clients := s.clients ++ [httpServerClientInit sock] }

/-- `http_server_select_accept`. An `accept` that would block makes a client, too. -/
def httpServerSelectAccept (s : HttpServer) : HttpServer :=
  match os.accept with
  | .error      => s
  | .wouldblock => httpServerAccepted allocOk s (-1)
  | .sock fd    =>
      httpServerAccepted allocOk { s with fds := s.fds.acquire fd (.sock s.clients.length) } fd

/-! ## `http_server_client_select_read` -/

/-- `recv` left `bs` at the end of `recv_buf` and gave `i`. -/
def HttpServerClient.received (client : HttpServerClient) (bs : List UInt8) (i : Int) :
    HttpServerClient :=
  let mem := writeAt client.recvBuf client.recvLen bs
  { client with
    recvLen := client.recvLen + i
    recvBuf := writeAt mem (client.recvLen + i) [0] }

/-- The record behind `recv`, unless there was nothing to read or the end of the file. An error passes
`assertb_sockerr (i)`, since -1 is not 0, and is counted like a number of bytes. -/
def HttpServerClient.receive (client : HttpServerClient) : RecvResult → Option HttpServerClient
  | .wouldblock => none
  | .error      => some (client.received [] (-1))
  | .bytes bs   =>
      let bs := bs.take (client.recvMax - client.recvLen).toNat
      if bs = [] then none else some (client.received bs bs.length)

/-- `http_header_parse` on what was received. -/
def HttpServerClient.parse (client : HttpServerClient) : Option (HttpHeader × Int) :=
  httpHeaderParse client.httpReq (readAt client.recvBuf 0 (httpServerClientBufMax + 1))
    client.recvLen.toNat

/-- The path of the file: `snprintf (buf, sizeof (buf), "%s%s", root_dir, uri)`. -/
def httpServerPath (rootDir : List UInt8) (uri : Option (List UInt8)) : List UInt8 :=
  (rootDir ++ uri.getD (bytes "(null)")).take 4095

/-- The file of a request is looked up, and the header of the response is sent. -/
def httpServerRespond (s : HttpServer) (c : Nat) (client : HttpServerClient) : HttpServer :=
  let path := httpServerPath s.rootDir client.httpReq.uri
  if os.stat path = false then httpServerClientFree allocOk s c client
  else
    match os.openFile path with
    | none    => httpServerClientFree allocOk s c { client with sendFd := -1 }
    | some fd =>
        let s := { s with fds := s.fds.acquire fd (.file c) }
        let client := { client with sendFd := fd }
        match os.fstat with
        | none      => httpServerClientFree allocOk s c client
        | some size =>
            let client := { client with sendOff := 0, sendEnd := size }
            if os.send = false then httpServerClientFree allocOk s c client
            else
              let sel := (fdselectUnset allocOk s.sel client.sock fdselectREAD).1
              let sel := (fdselectSet allocOk sel client.sock fdselectWRITE (some (.write c))).1
              { s with sel, clients := s.clients.set c client }

/-- What is received is parsed. A store below `recv_buf[-16]` is one into `sock` or `server`. -/
def httpServerParse (s : HttpServer) (c : Nat) (client : HttpServerClient) : HttpServer :=
  if client.recvLen < -16 then { s with fault := true }
  else
    match client.parse with
    | none           => { s with fault := true }
    | some (http, i) =>
        let client := { client with httpReq := http }
        if i = 0 then { s with clients := s.clients.set c client }
        else if i < 0 then httpServerClientFree allocOk s c client
        else httpServerRespond allocOk os s c client

/-- `http_server_client_select_read`. -/
def httpServerClientSelectRead (s : HttpServer) (c : Nat) (client : HttpServerClient) : HttpServer :=
  if client.recvMax - client.recvLen ≤ 0 then httpServerClientFree allocOk s c client
  else
    match client.receive os.recv with
    | some client => httpServerParse allocOk os s c client
    | none        =>
        if os.recv = .wouldblock then s else httpServerClientFree allocOk s c client

/-! ## `http_server_client_select_write` -/

/-- `http_server_client_select_write`. A file that would block ends the response. -/
def httpServerClientSelectWrite (s : HttpServer) (c : Nat) (client : HttpServerClient) : HttpServer :=
  if client.sendEnd ≤ client.sendOff then httpServerClientFree allocOk s c client
  else
    match os.sendfile with
    | .accept (n + 1) =>
        { s with clients := s.clients.set c { client with sendOff := client.sendOff + (n + 1) } }
    | _ => httpServerClientFree allocOk s c client

/-! ## Runs -/

/-- A descriptor is ready: the handler for the event is called, with these results of its calls. -/
structure HttpServerEvent where
  fd    : Int
  write : Bool
  os    : HttpServerOs

/-- The event. -/
def HttpServerEvent.event (e : HttpServerEvent) : FdEvents :=
  if e.write then fdselectWRITE else fdselectREAD

/-- A handler is called. -/
def httpServerCall (s : HttpServer) : HttpServerFunc → HttpServer
  | .accept  => httpServerSelectAccept allocOk os s
  | .read c  =>
      match s.clients[c]? with
      | none        => s
      | some client => httpServerClientSelectRead allocOk os s c client
  | .write c =>
      match s.clients[c]? with
      | none        => s
      | some client => httpServerClientSelectWrite allocOk os s c client

/-- A call from `fdselect_select`. -/
def httpServerStep (s : HttpServer) (e : HttpServerEvent) : HttpServer :=
  if s.fault then s
  else
    match fdselectFunc s.sel e.fd e.event with
    | none      => s
    | some func => httpServerCall allocOk e.os s func

/-- The server before its first event. `inherited` are the descriptors that are open by then. -/
def httpServerStart (rootDir : List UInt8) (acceptSock : Int) (inherited : Int → Bool) : HttpServer where
  rootDir := rootDir
  sel := (fdselectSet allocOk fdselectInit acceptSock fdselectREAD (some .accept)).1
  clients := []
  fds := ⟨fun fd => if inherited fd then some (.other fd) else none, []⟩
  fault := false

end Bklib
