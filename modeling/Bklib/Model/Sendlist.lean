import Bklib.Lib.Mem
import Bklib.Model.Array
import Bklib.Model.Fdselect
import Bklib.Model.Sock

/-!
# `Bklib.Model.Sendlist`: the queue of pending writes of `sendlist.c`

A list sends buffers, ranges of files and shutdowns on one descriptor, in the order they were
queued. The head of the queue keeps how far it got. Every call comes with the results that its
system calls will have; past the end of these a write would block and a shutdown succeeds.

What a call does outside the list is recorded in `trace`, oldest first, together with the buffers
as they are queued and the calls of `sendlist_close`. The callbacks do not change the list.
-/

set_option autoImplicit false

namespace Bklib

open Bklib.Lib

/-- A registered function with its argument. `other` stands for the users of other descriptors. -/
inductive SendlistFunc where
  | selectWrite
  | other (n : Nat)
  deriving DecidableEq

/-- `sendbuf_t`. A null buffer is `none`, and so is a null free function; a free function with its
argument is a number. The back pointer to the list is never set. -/
structure Sendbuf where
  buf : Option (Int → UInt8)
  fd : Int
  len : Nat
  off : Nat
  freeFunc : Option Nat

/-- The zeroed element that `array_add` makes room for. -/
def Sendbuf.zero : Sendbuf := ⟨none, 0, 0, 0, none⟩

/-- What a call does outside the list. -/
inductive SendEffect where
  /-- A buffer is queued. -/
  | queue (b : Sendbuf)
  /-- Bytes that the descriptor accepted from `write`. -/
  | write (bytes : List UInt8)
  /-- Bytes that the descriptor accepted from `sendfile`. -/
  | sendfile (fd : Int) (bytes : List UInt8)
  | shutdown
  | free (f : Nat)
  | flushed (err : Int)
  /-- `sendlist_close` is called. -/
  | close
  /-- `sendlist_close` has freed all buffers. -/
  | closed

/-- `sendlist_t`, with the effects so far. `flushedFunc` says whether there is one. -/
structure Sendlist where
  sendFd : Int
  fdsel : Fdselect SendlistFunc
  sendbufs : ArrayT Sendbuf
  flushedFunc : Bool
  trace : List SendEffect

namespace Sendlist

def emit (s : Sendlist) (e : SendEffect) : Sendlist := { s with trace := s.trace ++ [e] }

end Sendlist

/-- `sendlist_init`. -/
def sendlistInit (fdsel : Fdselect SendlistFunc) (sendFd : Int) (flushedFunc : Bool) : Sendlist where
  sendFd := sendFd
  fdsel := fdsel
  sendbufs := arrayInit 10
  flushedFunc := flushedFunc
  trace := []

/-- `sendlist_peek`. -/
def sendlistPeek (s : Sendlist) : Option Sendbuf :=
  (arrayGet s.sendbufs 0).bind (s.sendbufs.elts[·]?)

/-- The call of the free function in `sendlist_shift`. -/
def sendbufFree (s : Sendlist) (b : Sendbuf) : Sendlist :=
  match b.freeFunc with
  | some f => s.emit (.free f)
  | none   => s

/-- `sendlist_shift`. -/
def sendlistShift (s : Sendlist) : Sendlist × Option Sendbuf :=
  match sendlistPeek s with
  | some b =>
      let s := sendbufFree s b
      ({ s with sendbufs := arrayRemoveIdx s.sendbufs 0 1 }, some b)
  | none   => (s, none)

/-- The loop of `sendlist_close`, which shifts until nothing is left. `n` is the number of buffers
in the queue. -/
def sendlistShiftLoop : Nat → Sendlist → Sendlist
  | 0,     s => s
  | n + 1, s =>
      match sendlistShift s with
      | (s, some _) => sendlistShiftLoop n s
      | (s, none)   => s

/-- `sendlist_push`, with the fields that its caller fills in. No pointer into the queue outlives a
call, so the address that the block moves to does not matter. -/
def sendlistPush (s : Sendlist) (b : Sendbuf) : Sendlist :=
  match arrayAdd Sendbuf.zero 1 s.sendbufs 1 with
  | (sendbufs, some i) =>
      { s with sendbufs := { sendbufs with elts := sendbufs.elts.set i b } }.emit (.queue b)
  | (sendbufs, none)   => { s with sendbufs := sendbufs }

section
variable (allocOk : Nat → Bool) (files : Int → Int → UInt8)

/-- `sendlist_close`. -/
def sendlistClose (s : Sendlist) : Sendlist × Int :=
  let s := (sendlistShiftLoop (arrayCount s.sendbufs) (s.emit .close)).emit .closed
  match fdselectUnset allocOk s.fdsel s.sendFd fdselectWRITE with
  | (sel, e) =>
      if e = 0 then ({ s with fdsel := sel, sendbufs := arrayClear s.sendbufs }, 0)
      else ({ s with fdsel := sel }, -1)

/-- The system call that `sendlist_flush` makes for the head of the queue: `write` for a buffer,
`sendfile` for a file, and a shutdown for neither. The result is `n`, which is 0 when the call would
block; none is an error. -/
def sendbufSend (s : Sendlist) (b : Sendbuf) (r : SendResult) : Sendlist × Option Nat :=
  match b.buf with
  | some buf =>
      match r with
      | .accept n   => (s.emit (.write (readAt buf b.off (min n b.len))), some (min n b.len))
      | .wouldblock => (s, some 0)
      | .error      => (s, none)
  | none =>
      if b.fd ≥ 0 then
        match r with
        | .accept n   =>
            (s.emit (.sendfile b.fd (readAt (files b.fd) b.off (min n b.len))), some (min n b.len))
        | .wouldblock => (s, some 0)
        | .error      => (s, none)
      else
        match r with
        | .error => (s, none)
        | _      => (s.emit .shutdown, some b.len)

/-- The head of the queue after `n` more bytes of it. -/
def Sendbuf.advance (b : Sendbuf) (n : Nat) : Sendbuf := { b with len := b.len - n, off := b.off + n }

/-- The loop of `sendlist_flush`, with its `err`: 0 when the queue is empty, 1 when its head is
blocked, and -1 on an error. `n` is the number of buffers in the queue, so it is 0 when there is
nothing to peek at. -/
def sendlistFlushLoop : Nat → List SendResult → Sendlist → Sendlist × Int
  | 0,     _,  s => (s, 0)
  | n + 1, rs, s =>
      match sendlistPeek s with
      | none   => (s, 0)
      | some b =>
          match sendbufSend files s b (rs.headD .wouldblock) with
          | (s, none)   => (s, -1)
          | (s, some k) =>
              let b := b.advance k
              let s := { s with sendbufs := { s.sendbufs with elts := s.sendbufs.elts.set 0 b } }
              if b.len > 0 then (s, 1)
              else sendlistFlushLoop n rs.tail (sendlistShift s).1

/-- The registration at the end of `sendlist_flush`. -/
def sendlistSelect (s : Sendlist) (err : Int) : Sendlist :=
  if err > 0 then
    { s with fdsel :=
        (fdselectSet allocOk s.fdsel s.sendFd fdselectWRITE (some .selectWrite)).1 }
  else { s with fdsel := (fdselectUnset allocOk s.fdsel s.sendFd fdselectWRITE).1 }

/-- `sendlist_flush`. A registration that fails leaves `err` as it is. -/
def sendlistFlush (rs : List SendResult) (s : Sendlist) : Sendlist × Int :=
  match sendlistFlushLoop files (arrayCount s.sendbufs) rs s with
  | (s, err) =>
      let s := sendlistSelect allocOk s err
      (if s.flushedFunc then s.emit (.flushed err) else s, err)

/-- `sendlist_select_write`, as it was registered. -/
def sendlistSelectWrite (rs : List SendResult) (s : Sendlist) : Sendlist :=
  (sendlistFlush allocOk files rs s).1

/-- `sendlist_send`. -/
def sendlistSend (s : Sendlist) (buf : Option (Int → UInt8)) (fd : Int) (off len : Nat)
    (freeFunc : Option Nat) (rs : List SendResult) : Sendlist × Int :=
  sendlistFlush allocOk files rs
    (sendlistPush s { buf := buf, fd := fd, len := len, off := off, freeFunc := freeFunc })

/-- `sendlist_send_buf`. -/
def sendlistSendBuf (s : Sendlist) (buf : Option (Int → UInt8)) (len : Nat) (freeFunc : Option Nat)
    (rs : List SendResult) : Sendlist × Int :=
  sendlistSend allocOk files s buf (-1) 0 len freeFunc rs

/-- `sendlist_send_fd`. -/
def sendlistSendFd (s : Sendlist) (fd : Int) (off len : Nat) (freeFunc : Option Nat)
    (rs : List SendResult) : Sendlist × Int :=
  sendlistSend allocOk files s none fd off len freeFunc rs

/-- `sendlist_shutdown`. -/
def sendlistShutdown (s : Sendlist) (freeFunc : Option Nat) (rs : List SendResult) :
    Sendlist × Int :=
  sendlistSend allocOk files s none (-1) 0 0 freeFunc rs

/-- A call on a list, with the results that its system calls will have. `flush` is made by hand or
by `sendlist_select_write`. -/
inductive SendlistOp where
  | sendBuf (buf : Option (Int → UInt8)) (len : Nat) (freeFunc : Option Nat) (rs : List SendResult)
  | sendFd (fd : Int) (off len : Nat) (freeFunc : Option Nat) (rs : List SendResult)
  | shutdown (freeFunc : Option Nat) (rs : List SendResult)
  | flush (rs : List SendResult)
  | close

/-- The call, with what it returns. -/
def SendlistOp.apply (s : Sendlist) : SendlistOp → Sendlist × Int
  | .sendBuf buf len freeFunc rs   => sendlistSendBuf allocOk files s buf len freeFunc rs
  | .sendFd fd off len freeFunc rs => sendlistSendFd allocOk files s fd off len freeFunc rs
  | .shutdown freeFunc rs          => sendlistShutdown allocOk files s freeFunc rs
  | .flush rs                      => sendlistFlush allocOk files rs s
  | .close                         => sendlistClose allocOk s

/-- The list after the call. -/
def SendlistOp.step (s : Sendlist) (op : SendlistOp) : Sendlist := (op.apply allocOk files s).1

end

end Bklib
