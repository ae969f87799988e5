import Bklib.Model.HttpServer
import Bklib.Model.Snprintf

/-!
# `Bklib.Model.HttpServerNet`: what `http_server.c` sends

The texts that the handlers of `HttpServer` send, and the files they send them from. Next to the server
there is a kernel: for each descriptor the path it was opened with, for each use of a descriptor the
bytes that went out there, and for each client the bytes that came in. The contents of the files are
given, and do not change.

`send` may take less than it is given, and `HttpServerTakes` says how much it takes of each text.
-/

set_option autoImplicit false

namespace Bklib

open Lib (readAt)

/-! ## Texts -/

/-- `%lu`. -/
def fmtLu (x : Nat) : List UInt8 := bytes (toString x)

/-- The header of a response, for a file of this size. -/
def httpServerHead (size : Nat) : List UInt8 :=
  bytes "HTTP/1.0 200 Ok\r\n" ++ bytes "Pragma: no-cache\r\n" ++ bytes "Cache-Control: no-cache\r\n" ++
    bytes "Connection: keep-alive\r\n" ++ (bytes "Content-Length: " ++ fmtLu size ++ bytes "\r\n") ++
    bytes "Content-Type: text/plain\r\n" ++ bytes "\r\n"

/-- The page for an error. -/
def httpServerErrorPage (err : Int) (uri : Option (List UInt8)) : List UInt8 :=
  (bytes "HTTP/1.0 " ++ fmtD err ++ bytes "\r\n") ++
    bytes "Content-Type: text/html; charset=iso-8859-1\r\n" ++ bytes "\r\n" ++
    bytes "<HTML><HEAD>\r\n" ++ (bytes "<TITLE>HTTP Error " ++ fmtD err ++ bytes "</TITLE>\r\n") ++
    bytes "</HEAD><BODY>\r\n" ++ (bytes "<H1>HTTP Error " ++ fmtD err ++ bytes "</H1>\r\n") ++
    (uri.getD (bytes "(null)") ++ bytes "<br>\r\n") ++ bytes "<HR>\r\n" ++ bytes "</BODY></HTML>\r\n"

/-- How many bytes `send` takes of a header that it does not take whole, and of the page for an error.
`stack` is the memory behind `buf`. -/
structure HttpServerTakes where
  head  : Nat := 0
  page  : Nat := 0
  stack : List UInt8 := []

/-- The bytes that are given to `send` for a page: `i` of them from `buf`, where `i` is what `snprintf`
returned. -/
def httpServerPageBuf (stack page : List UInt8) : List UInt8 :=
  (snprintf 4096 page ++ stack).take page.length

variable (os : HttpServerOs) (takes : HttpServerTakes)

/-! ## The handlers -/

/-- What a call of the read handler does outside of the server: the file it opens, and what it sends. -/
structure HttpServerIo where
  opened : Option (Nat × List UInt8) := none
  sent   : List UInt8 := []

/-- The page for an error. -/
def httpServerFail (err : Int) (client : HttpServerClient) : List UInt8 :=
  (httpServerPageBuf takes.stack (httpServerErrorPage err client.httpReq.uri)).take takes.page

/-- `httpServerRespond`. -/
def httpServerRespondIo (rootDir : List UInt8) (client : HttpServerClient) : HttpServerIo :=
  let path := httpServerPath rootDir client.httpReq.uri
  let page := httpServerFail takes 404 client
  if os.stat path = false then { sent := page }
  else
    match os.openFile path with
    | none    => { sent := page }
    | some fd =>
        let opened := some (fd, path)
        match os.fstat with
        | none      => { opened, sent := page }
        | some size =>
            if os.send = false then { opened, sent := (httpServerHead size).take takes.head ++ page }
            else { opened, sent := httpServerHead size }

/-- `httpServerParse`. -/
def httpServerParseIo (rootDir : List UInt8) (client : HttpServerClient) : HttpServerIo :=
  if client.recvLen < -16 then {}
  else
    match client.parse with
    | none           => {}
    | some (http, i) =>
        let client := { client with httpReq := http }
        if i = 0 then {}
        else if i < 0 then { sent := httpServerFail takes (-i) client }
        else httpServerRespondIo os takes rootDir client

/-- `httpServerClientSelectRead`. -/
def httpServerReadIo (rootDir : List UInt8) (client : HttpServerClient) : HttpServerIo :=
  if client.recvMax - client.recvLen ≤ 0 then { sent := httpServerFail takes 405 client }
  else
    match client.receive os.recv with
    | some client => httpServerParseIo os takes rootDir client
    | none        => {}

/-- `httpServerClientSelectWrite`: the bytes that `sendfile` takes from the file. -/
def httpServerWriteSent (content : List UInt8) (client : HttpServerClient) : List UInt8 :=
  if client.sendEnd ≤ client.sendOff then []
  else
    match os.sendfile with
    | .accept n => (content.drop client.sendOff).take n
    | _         => []

/-! ## Runs -/

/-- The server with its kernel. `disk` is the path that a descriptor was opened with, `wire` what was
sent to each use of a descriptor, and `got` what was received from each client, until `recv` fails. -/
structure HttpServerNet where
  server : HttpServer
  disk   : Int → List UInt8
  wire   : FdUse → List UInt8
  got    : Nat → Option (List UInt8)

/-- An event, with what `send` takes. -/
structure HttpServerNetEvent extends HttpServerEvent where
  takes : HttpServerTakes

variable (allocOk : Nat → Bool) (files : List UInt8 → List UInt8)

/-- Bytes go out through a descriptor. A descriptor that is not open takes none. -/
def HttpServerNet.put (n : HttpServerNet) (fd : Int) (bs : List UInt8) : HttpServerNet :=
  { n with wire := fun u => if n.server.fds.use fd = some u then n.wire u ++ bs else n.wire u }

/-- The bytes that come in, while there is room for them. -/
def httpServerGot (r : RecvResult) (client : HttpServerClient) (got : Option (List UInt8)) :
    Option (List UInt8) :=
  if client.recvMax - client.recvLen ≤ 0 then got
  else
    match r with
    | .wouldblock => got
    | .error      => none
    | .bytes bs   => got.map (· ++ bs.take (client.recvMax - client.recvLen).toNat)

/-- What the kernel does in a call of a handler. -/
def HttpServerNet.io (n : HttpServerNet) : HttpServerFunc → HttpServerNet
  | .accept  => n
  | .read c  =>
      match n.server.clients[c]? with
      | none        => n
      | some client =>
          let io := httpServerReadIo os takes n.server.rootDir client
          let n := n.put client.sock io.sent
          { n with
            disk := match io.opened with
              | none            => n.disk
              | some (fd, path) => fun d => if d = fd then path else n.disk d
            got := fun k => if k = c then httpServerGot os.recv client (n.got c) else n.got k }
  | .write c =>
      match n.server.clients[c]? with
      | none        => n
      | some client =>
          n.put client.sock (httpServerWriteSent os (files (n.disk client.sendFd)) client)

/-- A call from `fdselect_select`, as `httpServerStep`. -/
def httpServerNetStep (n : HttpServerNet) (e : HttpServerNetEvent) : HttpServerNet :=
  let after := httpServerStep allocOk n.server e.toHttpServerEvent
  if n.server.fault then n
  else
    match fdselectFunc n.server.sel e.fd e.event with
    | none      => n
    | some func => { n.io e.os e.takes files func with server := after }

end Bklib
