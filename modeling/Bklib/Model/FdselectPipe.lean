import Bklib.Lib.Mem
import Bklib.Model.Fdselect
import Bklib.Model.Sock

/-!
# `Bklib.Model.FdselectPipe`: the bidirectional pipe of `fdselect_pipe.c`

A pipe joins two sockets. The bytes received from one socket wait in its buffer until the other
socket accepts them. A handler runs on an event and calls `recv` and `send` until they would block;
their results are the two lists that an event comes with, and an exhausted list would block.

What a handler does outside the pipe is recorded in `trace`, oldest first: the system calls, the
callbacks, and an entry `touch` where a handler goes on to use the pipe's memory. The callbacks do
not change the pipe.
-/

set_option autoImplicit false

namespace Bklib

open Bklib.Lib

/-- One of the two sockets of a pipe. -/
inductive Side where
  | zero
  | one
  deriving DecidableEq

/-- `client->peer`. -/
def Side.peer : Side → Side
  | .zero => .one
  | .one  => .zero

/-- A registered function with its argument. `other` stands for the users of other descriptors. -/
inductive PipeFunc where
  | sockRead (client : Side)
  | sockWrite (client : Side)
  | other (n : Nat)
  deriving DecidableEq

/-- `fdselect_pipe_sock_t`. -/
structure FdselectPipeSock where
  sock : Int
  errRead : Bool
  errWrite : Bool
  selectRead : Bool
  selectWrite : Bool
  buf : Int → UInt8
  off : Int
  len : Int
  max : Int
  errReadDone : Bool

/-- What a handler does outside the pipe. -/
inductive PipeEffect where
  /-- The handler goes on to use the pipe. -/
  | touch
  | recv (x : Side) (bytes : List UInt8)
  /-- `recv` gave end of file or an error. -/
  | recvEnd (x : Side)
  | send (y : Side) (bytes : List UInt8)
  /-- `send` gave zero or an error. -/
  | sendErr (y : Side)
  | shutdownRecv (x : Side)
  | shutdownSend (y : Side)
  | readCallback (x : Side) (off len : Int)
  | writeCallback (y : Side) (off len : Int)
  | closedCallback
  | sockClose (x : Side)
  deriving DecidableEq

/-- `fdselect_pipe_t`, with the selector and the effects so far. `callback` says whether there is
one. -/
structure FdselectPipe where
  fdselect : Fdselect PipeFunc
  sock : Side → FdselectPipeSock
  callback : Bool
  trace : List PipeEffect

namespace FdselectPipe

def emit (p : FdselectPipe) (e : PipeEffect) : FdselectPipe := { p with trace := p.trace ++ [e] }

def setSock (p : FdselectPipe) (x : Side) (s : FdselectPipeSock) : FdselectPipe :=
  { p with sock := fun y => if y = x then s else p.sock y }

end FdselectPipe

section
variable (allocOk : Nat → Bool)

/-- `fdselect_set` for a function of the pipe, with its result. -/
def pipeSelect (p : FdselectPipe) (x : Side) (events : FdEvents) (func : PipeFunc) :
    FdselectPipe × Int :=
  let (sel, r) := fdselectSet allocOk p.fdselect (p.sock x).sock events (some func)
  ({ p with fdselect := sel }, r)

/-- `fdselect_unset`, with its result. -/
def pipeUnselect (p : FdselectPipe) (x : Side) (events : FdEvents) : FdselectPipe × Int :=
  let (sel, r) := fdselectUnset allocOk p.fdselect (p.sock x).sock events
  ({ p with fdselect := sel }, r)

/-- One round of the loop of `fdselect_pipe_close`; it leaves the loop when `fdselect_unset` fails. -/
def fdselectPipeCloseSock (p : FdselectPipe) (closeSocks : Bool) (x : Side) :
    FdselectPipe × Bool :=
  let (p, r) := pipeUnselect allocOk p x fdselectALL
  if r < 0 then (p, false)
  else (if closeSocks then p.emit (.sockClose x) else p, true)

/-- `fdselect_pipe_close`. -/
def fdselectPipeClose (p : FdselectPipe) (closeSocks : Bool) : FdselectPipe :=
  match fdselectPipeCloseSock allocOk p closeSocks .zero with
  | (p, false) => p
  | (p, true)  => (fdselectPipeCloseSock allocOk p closeSocks .one).1

/-- `fdselect_pipe_closed`. -/
def fdselectPipeClosed (p : FdselectPipe) : Bool :=
  !((p.sock .zero).selectRead || (p.sock .zero).selectWrite
    || (p.sock .one).selectRead || (p.sock .one).selectWrite)

/-- `fdselect_pipe_closed_callback`. -/
def fdselectPipeClosedCallback (p : FdselectPipe) : FdselectPipe :=
  let p := p.emit .touch
  if fdselectPipeClosed p then
    if p.callback then p.emit .closedCallback else fdselectPipeClose allocOk p true
  else p

/-- Unregister reading on `x` if it is registered, as both handlers do. -/
def pipeUnsetRead (x : Side) (p : FdselectPipe) : FdselectPipe :=
  if (p.sock x).selectRead then
    let p := (pipeUnselect allocOk p x fdselectREAD).1
    p.setSock x { p.sock x with selectRead := false }
  else p

/-- Unregister writing on `y` if it is registered. -/
def pipeUnsetWrite (y : Side) (p : FdselectPipe) : FdselectPipe :=
  if (p.sock y).selectWrite then
    let p := (pipeUnselect allocOk p y fdselectWRITE).1
    p.setSock y { p.sock y with selectWrite := false }
  else p

/-- The write error of `fdselect_pipe_sock_write`: `y` no longer takes the bytes of its peer. -/
def pipeSendErr (y : Side) (p : FdselectPipe) : FdselectPipe :=
  let p := p.emit (.sendErr y)
  let p := p.setSock y { p.sock y with errWrite := true }
  pipeUnsetRead allocOk y.peer (p.emit (.shutdownRecv y.peer))

/-- The callback of the write loop, when there is one. -/
def pipeWriteCallback (y : Side) (len : Int) (p : FdselectPipe) : FdselectPipe :=
  if p.callback then p.emit (.writeCallback y (p.sock y.peer).off len) else p

/-- `y` accepted the first `n` bytes of its peer's buffer. -/
def pipeSent (y : Side) (n : Nat) (p : FdselectPipe) : FdselectPipe :=
  let peer := p.sock y.peer
  let p := pipeWriteCallback y n (p.emit (.send y (readAt peer.buf peer.off n)))
  p.setSock y.peer { peer with
    off := if peer.len - n = 0 then 0 else peer.off + n
    len := peer.len - n }

/-- The loop of `fdselect_pipe_sock_write` over the results of `sock_send`: send until it would
block, fails, or the buffer is empty. -/
def pipeSendLoop (y : Side) : List SendResult → FdselectPipe → FdselectPipe
  | [],      p => p
  | r :: rs, p =>
      if (p.sock y.peer).len ≤ 0 then p
      else match r with
        | .wouldblock => p
        | .error      => pipeSendErr allocOk y (pipeWriteCallback y (-1) p)
        | .accept n   =>
            let n := min n (p.sock y.peer).len.toNat
            if n = 0 then pipeSendErr allocOk y (pipeWriteCallback y 0 p)
            else pipeSendLoop y rs (pipeSent y n p)

/-- Register reading on `x` unless it is, as both handlers do. The result says whether the handler
goes on. -/
def pipeSelectRead (x : Side) (p : FdselectPipe) : FdselectPipe × Bool :=
  if (p.sock x).selectRead then (p, true)
  else
    let (p, r) := pipeSelect allocOk p x fdselectREAD (.sockRead x)
    if r < 0 then (p, false)
    else (p.setSock x { p.sock x with selectRead := true }, true)

/-- Register writing on `y` unless it is. -/
def pipeSelectWrite (y : Side) (p : FdselectPipe) : FdselectPipe × Bool :=
  if (p.sock y).selectWrite then (p, true)
  else
    let (p, r) := pipeSelect allocOk p y fdselectWRITE (.sockWrite y)
    if r < 0 then (p, false)
    else (p.setSock y { p.sock y with selectWrite := true }, true)

/-- The end of reading on `y`'s peer, once its buffer is empty or `y` failed: `y` is shut down for
sending, unless it was before. -/
def pipeStop (y : Side) (p : FdselectPipe) : FdselectPipe :=
  if (p.sock y.peer).errRead ∧ ¬ (p.sock y.peer).errReadDone then
    (p.setSock y.peer { p.sock y.peer with errReadDone := true }).emit (.shutdownSend y)
  else p

/-- There is room in the buffer of `x`. -/
def FdselectPipe.room (p : FdselectPipe) (x : Side) : Bool :=
  (p.sock x).off + (p.sock x).len < (p.sock x).max

/-- The second part of `fdselect_pipe_sock_write`: set the select flags. The result says whether the
part ran to its end. -/
def pipeWriteFlags (y : Side) (p : FdselectPipe) : FdselectPipe × Bool :=
  let (p, ok) :=
    if p.room y.peer ∧ ¬ (p.sock y.peer).errRead then pipeSelectRead allocOk y.peer p
    else (p, true)
  if !ok then (p, false)
  else if (p.sock y.peer).len > 0 ∧ ¬ (p.sock y).errWrite then pipeSelectWrite allocOk y p
  else (pipeUnsetWrite allocOk y (pipeStop y p), true)

/-- The end of a handler, unless it broke off. -/
def pipeHandlerEnd : FdselectPipe × Bool → FdselectPipe
  | (p, false) => p
  | (p, true)  => fdselectPipeClosedCallback allocOk p

/-- `fdselect_pipe_sock_write`. -/
def fdselectPipeSockWrite (y : Side) (sends : List SendResult) (p : FdselectPipe) :
    FdselectPipe :=
  let p := pipeSendLoop allocOk y sends (p.emit .touch)
  pipeHandlerEnd allocOk (pipeWriteFlags allocOk y p)

/-- The read error of `fdselect_pipe_sock_read`. The flag `select_read` stays as it is here. -/
def pipeRecvErr (x : Side) (p : FdselectPipe) : FdselectPipe :=
  let p := p.emit (.recvEnd x)
  let p := p.setSock x { p.sock x with errRead := true }
  let p := p.emit (.shutdownRecv x)
  (pipeUnselect allocOk p x fdselectREAD).1

/-- `bytes` came in behind the bytes that wait in `x`'s buffer. -/
def pipeReceived (x : Side) (bytes : List UInt8) (p : FdselectPipe) : FdselectPipe :=
  let client := p.sock x
  let off := client.off + client.len
  let p := (p.emit (.recv x bytes)).setSock x
    { client with buf := writeAt client.buf off bytes, len := client.len + bytes.length }
  if p.callback then p.emit (.readCallback x off bytes.length) else p

/-- The loop of `fdselect_pipe_sock_read` over the results of `sock_recv`: receive until it would
block, ends, or the buffer is full. -/
def pipeRecvLoop (x : Side) : List RecvResult → FdselectPipe → FdselectPipe
  | [],      p => p
  | r :: rs, p =>
      let client := p.sock x
      let off := client.off + client.len
      if client.max - off ≤ 0 then p
      else match r with
        | .wouldblock => p
        | .error      => pipeRecvErr allocOk x p
        | .bytes bs   =>
            let bs := bs.take (client.max - off).toNat
            if bs = [] then pipeRecvErr allocOk x p
            else pipeRecvLoop x rs (pipeReceived x bs p)

/-- The second part of `fdselect_pipe_sock_read`, behind the nested write: set `select_read`. -/
def pipeReadFlags (x : Side) (p : FdselectPipe) : FdselectPipe × Bool :=
  if p.room x ∧ ¬ (p.sock x).errRead then pipeSelectRead allocOk x p
  else (pipeUnsetRead allocOk x p, true)

/-- `fdselect_pipe_sock_read`. -/
def fdselectPipeSockRead (x : Side) (recvs : List RecvResult) (sends : List SendResult)
    (p : FdselectPipe) : FdselectPipe :=
  let p := pipeRecvLoop allocOk x recvs (p.emit .touch)
  let p := (fdselectPipeSockWrite allocOk x.peer sends p).emit .touch
  pipeHandlerEnd allocOk (pipeReadFlags allocOk x p)

/-- One round of the loop of `fdselect_pipe_init`; it leaves the loop when `fdselect_set` fails. -/
def pipeInitSock (x : Side) (p : FdselectPipe) : FdselectPipe × Int :=
  let p := p.setSock x { p.sock x with selectRead := true }
  pipeSelect allocOk p x fdselectREAD (.sockRead x)

/-- A socket of a new pipe. -/
def pipeNewSock (sock : Int) (buf : Int → UInt8) (max : Int) : FdselectPipeSock where
  sock := sock
  errRead := false
  errWrite := false
  selectRead := false
  selectWrite := false
  buf := buf
  off := 0
  len := 0
  max := max
  errReadDone := false

/-- The two sockets of a new pipe. -/
def pipeNewSocks (sock0 : Int) (buf0 : Int → UInt8) (max0 : Int) (sock1 : Int)
    (buf1 : Int → UInt8) (max1 : Int) : Side → FdselectPipeSock
  | .zero => pipeNewSock sock0 buf0 max0
  | .one  => pipeNewSock sock1 buf1 max1

/-- `fdselect_pipe_init`. Its result is always 0: `err` is cleared whether or not the loop ran to
its end. -/
def fdselectPipeInit (sel : Fdselect PipeFunc) (callback : Bool)
    (sock0 : Int) (buf0 : Int → UInt8) (max0 : Int)
    (sock1 : Int) (buf1 : Int → UInt8) (max1 : Int) : FdselectPipe :=
  let p : FdselectPipe :=
    { fdselect := sel
      sock := pipeNewSocks sock0 buf0 max0 sock1 buf1 max1
      callback := callback
      trace := [] }
  match pipeInitSock allocOk .zero p with
  | (p, r) => if r < 0 then p else (pipeInitSock allocOk .one p).1

/-- An event on a socket of the pipe, with the results that its system calls will have. -/
inductive PipeEvent where
  | read (x : Side) (recvs : List RecvResult) (sends : List SendResult)
  | write (y : Side) (sends : List SendResult)
  deriving DecidableEq

/-- The handler of an event. -/
def PipeEvent.handle (p : FdselectPipe) : PipeEvent → FdselectPipe
  | .read x recvs sends => fdselectPipeSockRead allocOk x recvs sends p
  | .write y sends      => fdselectPipeSockWrite allocOk y sends p

/-- The event as `fdselect` delivers it: the handler runs when it is registered. -/
def PipeEvent.deliver (p : FdselectPipe) : PipeEvent → FdselectPipe
  | .read x recvs sends =>
      if fdselectFunc p.fdselect (p.sock x).sock fdselectREAD = some (.sockRead x) then
        fdselectPipeSockRead allocOk x recvs sends p
      else p
  | .write y sends =>
      if fdselectFunc p.fdselect (p.sock y).sock fdselectWRITE = some (.sockWrite y) then
        fdselectPipeSockWrite allocOk y sends p
      else p

end

end Bklib
