import Mathlib.Data.List.Infix
import Bklib.Lib.Run
import Bklib.Lib.Trace
import Bklib.Model.Sendlist
import Bklib.Proofs.Fdselect

/-!
# `Bklib.Proofs.Sendlist`: queued bytes go out in order and every buffer is released once

The buffers queued since the list was last closed split into the ones that are done and the ones
that wait; the descriptor accepted all bytes of the former and some of the first of the latter
(`At`). One round of `sendlist_flush` moves this forward, and a close ends it. What each effect on
the trace needed when it happened (`EffectOk`) follows from the split at that time.
-/

set_option autoImplicit false

namespace Bklib

open Bklib.Lib

/-! ### What a trace says -/

namespace SendEffect

def isClosed : SendEffect → Bool
  | .closed => true
  | _       => false

def isShutdown : SendEffect → Bool
  | .shutdown => true
  | _         => false

/-- Bytes were accepted. -/
def isData : SendEffect → Bool
  | .write _      => true
  | .sendfile _ _ => true
  | _             => false

def queued? : SendEffect → Option Sendbuf
  | .queue b => some b
  | _        => none

def freed? : SendEffect → Option Nat
  | .free f => some f
  | _       => none

def bytes : SendEffect → List UInt8
  | .write bs      => bs
  | .sendfile _ bs => bs
  | _              => []

end SendEffect

/-- What happened since the list was last closed. -/
abbrev sinceClosed (t : List SendEffect) : List SendEffect := since SendEffect.isClosed t

/-- The buffers that were queued. -/
def queuedBufs (t : List SendEffect) : List Sendbuf := t.filterMap SendEffect.queued?

/-- The bytes that the descriptor accepted. -/
def acceptedBytes (t : List SendEffect) : List UInt8 := t.flatMap SendEffect.bytes

/-- The free functions that were called. -/
def freedFuncs (t : List SendEffect) : List Nat := t.filterMap SendEffect.freed?

def shutdownCount (t : List SendEffect) : Nat := t.countP SendEffect.isShutdown

@[simp] theorem queuedBufs_concat (t : List SendEffect) (e : SendEffect) :
    queuedBufs (t ++ [e]) = queuedBufs t ++ e.queued?.toList := by
  simp only [queuedBufs, List.filterMap_append]
  cases h : e.queued? <;> simp [h]

@[simp] theorem acceptedBytes_concat (t : List SendEffect) (e : SendEffect) :
    acceptedBytes (t ++ [e]) = acceptedBytes t ++ e.bytes := by
  simp [acceptedBytes]

@[simp] theorem freedFuncs_concat (t : List SendEffect) (e : SendEffect) :
    freedFuncs (t ++ [e]) = freedFuncs t ++ e.freed?.toList := by
  simp only [freedFuncs, List.filterMap_append]
  cases h : e.freed? <;> simp [h]

@[simp] theorem shutdownCount_concat (t : List SendEffect) (e : SendEffect) :
    shutdownCount (t ++ [e]) = shutdownCount t + e.isShutdown.toNat := by
  cases h : e.isShutdown <;> simp [shutdownCount, h]

/-- An entry with neither a buffer nor a file is a shutdown. -/
def Sendbuf.isShutdown (b : Sendbuf) : Bool := b.buf.isNone && decide (b.fd < 0)

/-- The bytes that a queued buffer stands for. -/
def Sendbuf.payload (files : Int → Int → UInt8) (b : Sendbuf) : List UInt8 :=
  match b.buf with
  | some buf => readAt buf b.off b.len
  | none     => if b.fd ≥ 0 then readAt (files b.fd) b.off b.len else []

/-- The payloads of a queue. -/
def payloads (files : Int → Int → UInt8) (bs : List Sendbuf) : List UInt8 :=
  bs.flatMap (Sendbuf.payload files)

/-- The free functions of a queue. -/
def freeFuncs (bs : List Sendbuf) : List Nat := bs.filterMap (·.freeFunc)

section
variable (files : Int → Int → UInt8)

/-- The bytes accepted since the last close are the first ones of what was queued since. -/
def StreamOk (t : List SendEffect) : Prop :=
  acceptedBytes (sinceClosed t) <+: payloads files (queuedBufs (sinceClosed t))

/-- A shutdown is the one of a queued buffer, all buffers before which were accepted. -/
def ShutdownOk (pre : List SendEffect) : Prop :=
  ∃ xs b ys, queuedBufs (sinceClosed pre) = xs ++ b :: ys ∧ b.isShutdown = true ∧
    shutdownCount (sinceClosed pre) = xs.countP Sendbuf.isShutdown ∧
    acceptedBytes (sinceClosed pre) = payloads files xs

/-- A call of a free function is the one of a queued buffer, after the ones of the buffers before
it, and the last byte of the buffer was accepted or the list is being closed. -/
def FreeOk (pre : List SendEffect) (f : Nat) : Prop :=
  ∃ xs b ys, queuedBufs (sinceClosed pre) = xs ++ b :: ys ∧ b.freeFunc = some f ∧
    freedFuncs (sinceClosed pre) = freeFuncs xs ∧
    (.close ∈ sinceClosed pre ∨ acceptedBytes (sinceClosed pre) = payloads files (xs ++ [b]))

/-- What holds of an effect when it happens. -/
structure EffectOk (pre : List SendEffect) (e : SendEffect) : Prop where
  stream : StreamOk files (pre ++ [e])
  shutdown : e = .shutdown → ShutdownOk files pre
  free : ∀ f, e = .free f → FreeOk files pre f

end

/-! ### A payload and its parts -/

section
variable {files : Int → Int → UInt8}

/-- A buffer sends no more than its length. -/
theorem length_payload_le (b : Sendbuf) : (b.payload files).length ≤ b.len := by
  unfold Sendbuf.payload
  cases b.buf with
  | some buf => simp
  | none =>
      show (if b.fd ≥ 0 then _ else _ : List UInt8).length ≤ _
      split <;> simp

/-- A shutdown sends no bytes. -/
theorem payload_of_isShutdown {b : Sendbuf} (h : b.isShutdown = true) : b.payload files = [] := by
  unfold Sendbuf.isShutdown at h
  unfold Sendbuf.payload
  cases hbuf : b.buf with
  | some buf => rw [hbuf] at h; exact absurd h (by simp)
  | none =>
      rw [hbuf] at h
      exact if_neg (by simpa using h)

/-- A payload that is no shutdown's has all the bytes that were asked for. -/
theorem length_payload {b : Sendbuf} (h : b.isShutdown = false) :
    (b.payload files).length = b.len := by
  unfold Sendbuf.isShutdown at h
  unfold Sendbuf.payload
  cases hbuf : b.buf with
  | some buf => simp
  | none =>
      rw [hbuf] at h
      show (if b.fd ≥ 0 then _ else _ : List UInt8).length = _
      rw [if_pos (by simpa using h), length_readAt]

theorem payloads_append (xs ys : List Sendbuf) :
    payloads files (xs ++ ys) = payloads files xs ++ payloads files ys := List.flatMap_append

theorem payloads_concat (xs : List Sendbuf) (b : Sendbuf) :
    payloads files (xs ++ [b]) = payloads files xs ++ b.payload files := by
  rw [payloads_append]
  simp [payloads]

theorem take_drop_readAt (m : Int → UInt8) (off : Nat) {k n j len : Nat} (hk : k ≤ len)
    (hj : j = min n (len - k)) :
    readAt m ((off + k : Nat) : Int) j = ((readAt m off len).drop k).take j := by
  rw [drop_readAt m off hk, take_readAt m _ (by omega)]
  exact congrArg (readAt m · j) (by omega)

/-- The system call for the head of the queue, `k` bytes of which are gone: it fails, would block,
accepts the next bytes of the payload, or shuts the socket down. -/
theorem sendbufSend_spec (s : Sendlist) (b : Sendbuf) {k : Nat} (hk : k ≤ b.len) (r : SendResult) :
    sendbufSend files s (b.advance k) r = (s, none) ∨
    (b.isShutdown = false ∧ sendbufSend files s (b.advance k) r = (s, some 0)) ∨
    (b.isShutdown = false ∧ ∃ m e, k + m ≤ b.len ∧ e.isData = true ∧
      e.bytes = ((b.payload files).drop k).take m ∧
      sendbufSend files s (b.advance k) r = (s.emit e, some m)) ∨
    (b.isShutdown = true ∧
      sendbufSend files s (b.advance k) r = (s.emit .shutdown, some (b.len - k))) := by
  unfold sendbufSend Sendbuf.isShutdown Sendbuf.payload Sendbuf.advance
  dsimp only
  -- what is sent decides: a buffer, a file, or neither, which shuts the socket down
  cases b.buf with
  | some buf =>
      cases r with
      | error => exact Or.inl rfl
      | wouldblock => exact Or.inr (Or.inl ⟨rfl, rfl⟩)
      | accept n =>
          refine Or.inr (Or.inr (Or.inl ⟨rfl, min n (b.len - k), _, by omega, ?_, ?_, rfl⟩))
          · rfl
          · exact take_drop_readAt buf b.off hk rfl
  | none =>
      by_cases hfd : b.fd ≥ 0
      · have hno : decide (b.fd < 0) = false := by simpa using hfd
        rw [if_pos hfd, hno]
        cases r with
        | error => exact Or.inl rfl
        | wouldblock => exact Or.inr (Or.inl ⟨rfl, rfl⟩)
        | accept n =>
            refine Or.inr (Or.inr (Or.inl ⟨rfl, min n (b.len - k), _, by omega, ?_, ?_, rfl⟩))
            · rfl
            · show readAt (files b.fd) _ _ = _
              rw [if_pos hfd]
              exact take_drop_readAt (files b.fd) b.off hk rfl
      · have hyes : decide (b.fd < 0) = true := by simpa using hfd
        rw [if_neg hfd, hyes]
        cases r with
        | error => exact Or.inl rfl
        | wouldblock => exact Or.inr (Or.inr (Or.inr ⟨rfl, rfl⟩))
        | accept n => exact Or.inr (Or.inr (Or.inr ⟨rfl, rfl⟩))

end

/-! ### The split of the queue -/

/-- A queue with `n` bytes of its head gone. -/
def progress (n : Nat) : List Sendbuf → List Sendbuf
  | []      => []
  | b :: bs => b.advance n :: bs

/-- The first `n` bytes of the head of a queue. -/
def sent (files : Int → Int → UInt8) (n : Nat) (bs : List Sendbuf) : List UInt8 :=
  ((bs.head?.map (Sendbuf.payload files)).getD []).take n

theorem freeFuncs_append (xs ys : List Sendbuf) :
    freeFuncs (xs ++ ys) = freeFuncs xs ++ freeFuncs ys := List.filterMap_append

theorem freeFuncs_progress (n : Nat) (bs : List Sendbuf) :
    freeFuncs (progress n bs) = freeFuncs bs := by
  cases bs <;> rfl

theorem sent_initial (files : Int → Int → UInt8) (n : Nat) (bs : List Sendbuf) :
    sent files n bs <+: payloads files bs := by
  cases bs with
  | nil => simp [sent]
  | cons b bs => exact (List.take_prefix n _).trans (List.prefix_append _ _)

namespace Sendlist

/-- Since the last close the buffers `done` and `wait` were queued. The free functions of `done` were
called, and `wait` is still in the queue with `n` bytes of its head gone. -/
structure Core (files : Int → Int → UInt8) (s : Sendlist) (done wait : List Sendbuf) (n : Nat) :
    Prop where
  queued : queuedBufs (sinceClosed s.trace) = done ++ wait
  elts : s.sendbufs.elts = progress n wait
  stream : StreamOk files s.trace
  freed : freedFuncs (sinceClosed s.trace) = freeFuncs done
  once : freedFuncs s.trace ++ freeFuncs wait = freeFuncs (queuedBufs s.trace)
  allowed : Allowed (EffectOk files) s.trace

/-- The split of an open list: `done` was accepted with `n` bytes of the head of `wait`, and
`shutdowns` were performed. -/
structure At (files : Int → Int → UInt8) (s : Sendlist) (done wait : List Sendbuf) (n : Nat)
    (shutdowns : Nat) : Prop where
  core : s.Core files done wait n
  accepted : acceptedBytes (sinceClosed s.trace) = payloads files done ++ sent files n wait
  shutdown : shutdownCount (sinceClosed s.trace) = shutdowns

/-- The list with another head. -/
def setHead (s : Sendlist) (b : Sendbuf) : Sendlist :=
  { s with sendbufs := { s.sendbufs with elts := s.sendbufs.elts.set 0 b } }

end Sendlist

section
variable {files : Int → Int → UInt8} {s : Sendlist} {done wait : List Sendbuf} {n k : Nat}

/-- What was accepted and what was queued give the stream. -/
theorem streamOk_of {t : List SendEffect}
    (hqueued : queuedBufs (sinceClosed t) = done ++ wait)
    (haccepted : acceptedBytes (sinceClosed t) = payloads files done ++ sent files n wait) :
    StreamOk files t := by
  unfold StreamOk
  rw [hqueued, haccepted, payloads_append]
  exact (List.prefix_append_right_inj _).mpr (sent_initial files n wait)

/-- The first buffer is the one looked at. -/
theorem sendlistPeek_cons {b : Sendbuf} {bs : List Sendbuf} (h : s.sendbufs.elts = b :: bs) :
    sendlistPeek s = some b := by
  have hget : arrayGet s.sendbufs ((0 : Nat) : Int) = some 0 :=
    arrayGet_of_lt s.sendbufs 0 (by rw [h]; exact Nat.succ_pos _)
  unfold sendlistPeek
  rw [show (0 : Int) = ((0 : Nat) : Int) from rfl, hget, Option.bind_some, h]
  rfl

/-- `sendlist_shift` frees the head and removes it. -/
theorem sendlistShift_cons {b : Sendbuf} {bs : List Sendbuf} (h : s.sendbufs.elts = b :: bs) :
    ∃ s', sendlistShift s = (s', some b) ∧ s'.sendbufs.elts = bs ∧
      s'.trace = s.trace ++ (b.freeFunc.map SendEffect.free).toList ∧ s'.fdsel = s.fdsel ∧
      s'.sendFd = s.sendFd ∧ s'.flushedFunc = s.flushedFunc := by
  unfold sendlistShift
  rw [sendlistPeek_cons h]
  refine ⟨_, rfl, ?_, ?_⟩
  · have hsame : (sendbufFree s b).sendbufs = s.sendbufs := by
      unfold sendbufFree; cases b.freeFunc <;> rfl
    show (arrayRemoveIdx (sendbufFree s b).sendbufs ((0 : Nat) : Int) 1).elts = bs
    rw [hsame, elts_arrayRemoveIdx_one _ _ (by rw [h]; exact Nat.succ_pos _), h]
    rfl
  · unfold sendbufFree
    cases b.freeFunc with
    | none => exact ⟨(List.append_nil _).symm, rfl, rfl, rfl⟩
    | some f => exact ⟨rfl, rfl, rfl, rfl⟩

/-- A shift moves the head of the queue to the buffers that are done. -/
theorem Sendlist.Core.shift {b : Sendbuf} {bs : List Sendbuf} (h : s.Core files done (b :: bs) n)
    (hfree : .close ∈ sinceClosed s.trace ∨
      acceptedBytes (sinceClosed s.trace) = payloads files (done ++ [b])) :
    ∃ s', sendlistShift s = (s', some (b.advance n)) ∧ s'.Core files (done ++ [b]) bs 0 ∧
      acceptedBytes (sinceClosed s'.trace) = acceptedBytes (sinceClosed s.trace) ∧
      shutdownCount (sinceClosed s'.trace) = shutdownCount (sinceClosed s.trace) ∧
      (.close ∈ sinceClosed s.trace → .close ∈ sinceClosed s'.trace) ∧ s'.fdsel = s.fdsel ∧
      s'.sendFd = s.sendFd ∧ s'.flushedFunc = s.flushedFunc := by
  obtain ⟨s', hshift, helts, htrace, hsame⟩ := sendlistShift_cons h.elts
  refine ⟨s', hshift, ?_⟩
  have helts' : s'.sendbufs.elts = progress 0 bs := by
    rw [helts]; cases bs <;> rfl
  cases hf : b.freeFunc with
  | none =>
      -- without a free function, the trace stays as it is
      rw [show (b.advance n).freeFunc = none from hf, Option.map_none, Option.toList_none,
        List.append_nil] at htrace
      rw [htrace]
      refine ⟨⟨?_, helts', ?_, ?_, ?_, ?_⟩, rfl, rfl, id, hsame⟩ <;> rw [htrace]
      · rw [h.queued]; simp
      · exact h.stream
      · rw [h.freed]; simp [freeFuncs, hf]
      · rw [← h.once]; simp [freeFuncs, hf]
      · exact h.allowed
  | some f =>
      rw [show (b.advance n).freeFunc = some f from hf, Option.map_some, Option.toList_some]
        at htrace
      -- the trace gets the call of the free function, and nothing else
      have hsince : sinceClosed s'.trace = sinceClosed s.trace ++ [.free f] := by
        rw [htrace]; exact since_concat_of_not _ rfl
      have hqueued : queuedBufs (sinceClosed s'.trace) = queuedBufs (sinceClosed s.trace) := by
        rw [hsince, queuedBufs_concat]; exact List.append_nil _
      have haccepted :
          acceptedBytes (sinceClosed s'.trace) = acceptedBytes (sinceClosed s.trace) := by
        rw [hsince, acceptedBytes_concat]; exact List.append_nil _
      have hstream : StreamOk files s'.trace := by
        unfold StreamOk
        rw [hqueued, haccepted]
        exact h.stream
      refine ⟨⟨?_, helts', hstream, ?_, ?_, ?_⟩, haccepted, ?_, ?_, hsame⟩
      · rw [hqueued, h.queued]; simp
      · rw [hsince, freedFuncs_concat, h.freed]
        simp [freeFuncs, SendEffect.freed?, hf]
      · rw [htrace, freedFuncs_concat, queuedBufs_concat]
        simpa [freeFuncs, SendEffect.freed?, SendEffect.queued?, hf] using h.once
      · rw [htrace]
        refine h.allowed.concat ⟨htrace ▸ hstream, fun he => absurd he (by simp), ?_⟩
        intro f' hf'
        cases hf'
        exact ⟨done, b, bs, h.queued, hf, h.freed, hfree⟩
      · rw [hsince, shutdownCount_concat]; rfl
      · rw [hsince]; exact fun hmem => List.mem_append_left _ hmem

/-- The end of the loop of `sendlist_close`: everything was freed. -/
theorem Sendlist.Core.shiftLoop (h : s.Core files done wait n)
    (hclose : .close ∈ sinceClosed s.trace) :
    (sendlistShiftLoop wait.length s).Core files (done ++ wait) [] 0 ∧
      (sendlistShiftLoop wait.length s).fdsel = s.fdsel ∧
      (sendlistShiftLoop wait.length s).sendFd = s.sendFd ∧
      (sendlistShiftLoop wait.length s).flushedFunc = s.flushedFunc := by
  induction wait generalizing s done n with
  | nil =>
      rw [List.append_nil]
      exact ⟨⟨h.queued, h.elts, h.stream, h.freed, h.once, h.allowed⟩, rfl, rfl, rfl⟩
  | cons b bs ih =>
      obtain ⟨s', hshift, hcore, -, -, hmem, hsel, hfd, hfunc⟩ := h.shift (Or.inl hclose)
      have hloop : sendlistShiftLoop (b :: bs).length s = sendlistShiftLoop bs.length s' := by
        rw [List.length_cons, sendlistShiftLoop, hshift]
      have hih := ih hcore (hmem hclose)
      rw [← hloop, List.append_assoc, List.singleton_append, hsel, hfd, hfunc] at hih
      exact hih

/-- An effect that frees nothing and does not end a close: the buffers it queues come last, and the
bytes it accepts are the next ones of the head. -/
theorem Sendlist.At.emit {j : Nat} (h : s.At files done wait n j) {e : SendEffect}
    {wait' : List Sendbuf} {n' : Nat} (bufs : ArrayT Sendbuf) (hopen : e.isClosed = false)
    (hfree : e.freed? = none) (hwait : wait' = wait ++ e.queued?.toList)
    (hsent : sent files n' wait' = sent files n wait ++ e.bytes)
    (hbufs : bufs.elts = progress n' wait') (hshut : e = .shutdown → ShutdownOk files s.trace) :
    (({ s with sendbufs := bufs } : Sendlist).emit e).At files done wait' n'
      (j + e.isShutdown.toNat) := by
  have hsince : sinceClosed (s.trace ++ [e]) = sinceClosed s.trace ++ [e] :=
    since_concat_of_not _ hopen
  have hqueued : queuedBufs (sinceClosed (s.trace ++ [e])) = done ++ wait' := by
    rw [hsince, queuedBufs_concat, h.core.queued, hwait, List.append_assoc]
  have haccepted : acceptedBytes (sinceClosed (s.trace ++ [e]))
      = payloads files done ++ sent files n' wait' := by
    rw [hsince, acceptedBytes_concat, h.accepted, hsent, List.append_assoc]
  have hstream : StreamOk files (s.trace ++ [e]) := streamOk_of hqueued haccepted
  refine ⟨⟨hqueued, hbufs, hstream, ?_, ?_, ?_⟩, haccepted, ?_⟩
  · show freedFuncs (sinceClosed (s.trace ++ [e])) = _
    rw [hsince, freedFuncs_concat, hfree, h.core.freed]; exact List.append_nil _
  · show freedFuncs (s.trace ++ [e]) ++ freeFuncs wait' = freeFuncs (queuedBufs (s.trace ++ [e]))
    rw [freedFuncs_concat, queuedBufs_concat, hfree, hwait, freeFuncs_append, freeFuncs_append,
      ← h.core.once]
    simp
  · exact h.core.allowed.concat ⟨hstream, hshut, fun f he => by
      rw [he] at hfree; exact absurd hfree (by simp [SendEffect.freed?])⟩
  · show shutdownCount (sinceClosed (s.trace ++ [e])) = _
    rw [hsince, shutdownCount_concat, h.shutdown]

/-- The new head of the queue. -/
theorem Sendlist.At.set_head {b : Sendbuf} {bs : List Sendbuf} {j : Nat}
    (h : s.At files done (b :: bs) n j) :
    s.sendbufs.elts.set 0 ((b.advance n).advance k) = progress (n + k) (b :: bs) := by
  rw [h.core.elts]
  simp [progress, Sendbuf.advance, Nat.sub_sub, Nat.add_assoc]

/-- The descriptor accepted the next `k` bytes of the head. -/
theorem Sendlist.At.data {b : Sendbuf} {bs : List Sendbuf} {j : Nat}
    (h : s.At files done (b :: bs) n j) {e : SendEffect} (hdata : e.isData = true)
    (hbytes : e.bytes = ((b.payload files).drop n).take k) :
    ((s.emit e).setHead ((b.advance n).advance k)).At files done (b :: bs) (n + k) j := by
  have hfields : e.isClosed = false ∧ e.queued? = none ∧ e.freed? = none ∧ e.isShutdown = false ∧
      e ≠ .shutdown := by
    cases e <;> simp_all [SendEffect.isData, SendEffect.isClosed, SendEffect.queued?,
      SendEffect.freed?, SendEffect.isShutdown]
  obtain ⟨hopen, hqueue, hfree, hcount, hshut⟩ := hfields
  have hsent : sent files (n + k) (b :: bs) = sent files n (b :: bs) ++ e.bytes := by
    rw [hbytes]; exact List.take_add
  have hat := h.emit { s.sendbufs with elts := s.sendbufs.elts.set 0 ((b.advance n).advance k) }
    hopen hfree (by rw [hqueue]; exact (List.append_nil _).symm) hsent h.set_head
    (fun he => absurd he hshut)
  rw [hcount] at hat
  exact hat

/-- The head was performed as a shutdown. -/
theorem Sendlist.At.shutdown_head {b : Sendbuf} {bs : List Sendbuf}
    (h : s.At files done (b :: bs) n (done.countP Sendbuf.isShutdown))
    (hb : b.isShutdown = true) :
    ((s.emit .shutdown).setHead ((b.advance n).advance k)).At files done (b :: bs) (n + k)
      ((done ++ [b]).countP Sendbuf.isShutdown) := by
  have hnone : ∀ m, sent files m (b :: bs) = [] := fun m => by
    simp [sent, payload_of_isShutdown hb]
  have hpre : acceptedBytes (sinceClosed s.trace) = payloads files done := by
    rw [h.accepted, hnone, List.append_nil]
  have hat := h.emit (e := .shutdown)
    { s.sendbufs with elts := s.sendbufs.elts.set 0 ((b.advance n).advance k) } rfl rfl
    (List.append_nil _).symm (by rw [hnone, hnone]; rfl) h.set_head
    (fun _ => ⟨done, b, bs, h.core.queued, hb, h.shutdown, hpre⟩)
  rw [List.countP_append, show [b].countP Sendbuf.isShutdown = 1 by simp [hb]]
  exact hat

/-- A head that was sent is shifted out. -/
theorem Sendlist.At.shift {b : Sendbuf} {bs : List Sendbuf} {j : Nat}
    (h : s.At files done (b :: bs) n j) (hn : (b.payload files).length ≤ n) :
    ∃ s', sendlistShift s = (s', some (b.advance n)) ∧ s'.At files (done ++ [b]) bs 0 j ∧
      s'.fdsel = s.fdsel ∧ s'.sendFd = s.sendFd ∧ s'.flushedFunc = s.flushedFunc := by
  have hall : acceptedBytes (sinceClosed s.trace) = payloads files (done ++ [b]) := by
    rw [h.accepted, payloads_concat]
    exact congrArg _ (List.take_of_length_le hn)
  obtain ⟨s', hshift, hcore, hacc, hshut, -, hsame⟩ := h.core.shift (Or.inr hall)
  refine ⟨s', hshift, ⟨hcore, ?_, by rw [hshut, h.shutdown]⟩, hsame⟩
  rw [hacc, hall]
  exact (List.append_nil _).symm

/-! ### Calls -/

/-- The split between two calls. A head that waits still has bytes left, if any of them are gone. -/
structure Sendlist.Ok (files : Int → Int → UInt8) (s : Sendlist) (done wait : List Sendbuf)
    (n : Nat) : Prop where
  at_ : s.At files done wait n (done.countP Sendbuf.isShutdown)
  pending : n = 0 ∨ ∃ b bs, wait = b :: bs ∧ n < b.len
  wf : s.fdsel.Wf

/-- Nothing outside the queue and the trace changed. -/
def Sendlist.Same (s s' : Sendlist) : Prop :=
  s'.fdsel = s.fdsel ∧ s'.sendFd = s.sendFd ∧ s'.flushedFunc = s.flushedFunc

theorem Sendlist.Same.trans {s₁ s₂ s₃ : Sendlist} (h₁ : s₁.Same s₂) (h₂ : s₂.Same s₃) :
    s₁.Same s₃ :=
  ⟨h₂.1.trans h₁.1, h₂.2.1.trans h₁.2.1, h₂.2.2.trans h₁.2.2⟩

/-- A round of the loop of `sendlist_flush` in which the head sent `k` bytes. -/
theorem sendlistFlushLoop_sent {b : Sendbuf} {bs : List Sendbuf} {s₁ : Sendlist}
    {rs : List SendResult} (helts : s.sendbufs.elts = b :: bs)
    (hsend : sendbufSend files s b (rs.headD .wouldblock) = (s₁, some k)) (m : Nat) :
    sendlistFlushLoop files (m + 1) rs s =
      if (b.advance k).len > 0 then (s₁.setHead (b.advance k), 1)
      else sendlistFlushLoop files m rs.tail (sendlistShift (s₁.setHead (b.advance k))).1 := by
  rw [sendlistFlushLoop, sendlistPeek_cons helts]
  dsimp only
  rw [hsend]
  rfl

/-- A round in which the head failed. -/
theorem sendlistFlushLoop_fail {b : Sendbuf} {bs : List Sendbuf} {rs : List SendResult}
    (helts : s.sendbufs.elts = b :: bs)
    (hsend : sendbufSend files s b (rs.headD .wouldblock) = (s, none)) (m : Nat) :
    sendlistFlushLoop files (m + 1) rs s = (s, -1) := by
  rw [sendlistFlushLoop, sendlistPeek_cons helts]
  dsimp only
  rw [hsend]

/-- What a round does with the head after its system call: the head stays, or it was sent and is
shifted out. The shutdown that the head may be counts when it is shifted. -/
theorem Sendlist.At.round {b : Sendbuf} {bs : List Sendbuf} {j : Nat}
    (h : s.At files done (b :: bs) n j) (hwf : s.fdsel.Wf) (hle : n ≤ b.len)
    (hopen : n < b.len → j = done.countP Sendbuf.isShutdown)
    (hfull : n = b.len → j = (done ++ [b]).countP Sendbuf.isShutdown) :
    (n < b.len ∧ s.Ok files done (b :: bs) n) ∨
      (n = b.len ∧ ∃ s', sendlistShift s = (s', some (b.advance n)) ∧
        s'.Ok files (done ++ [b]) bs 0 ∧ s.Same s') := by
  rcases Nat.lt_or_eq_of_le hle with hlt | heq
  · exact Or.inl ⟨hlt, hopen hlt ▸ h, Or.inr ⟨b, bs, rfl, hlt⟩, hwf⟩
  · obtain ⟨s', hshift, hat, hsame⟩ :=
      h.shift (Nat.le_trans (length_payload_le b) (Nat.le_of_eq heq.symm))
    exact Or.inr ⟨heq, s', hshift, ⟨hfull heq ▸ hat, Or.inl rfl, hsame.1 ▸ hwf⟩, hsame⟩

/-- How the loop of `sendlist_flush` ends: the queue is empty, or it stopped at a head that would
block or failed. -/
def Sendlist.Flushed (files : Int → Int → UInt8) (s : Sendlist) (r : Sendlist × Int) : Prop :=
  ∃ done wait n, r.1.Ok files done wait n ∧ s.Same r.1 ∧
    (r.2 = 0 ∧ wait = [] ∨ (r.2 = 1 ∨ r.2 = -1) ∧ wait ≠ [])

theorem Sendlist.Flushed.of_same {s' : Sendlist} {r : Sendlist × Int} (hsame : s.Same s')
    (h : s'.Flushed files r) : s.Flushed files r := by
  obtain ⟨done, wait, n, hok, hsame', herr⟩ := h
  exact ⟨done, wait, n, hok, hsame.trans hsame', herr⟩

/-- The loop of `sendlist_flush` sends from the head of the queue on. Induction on the buffers that
wait. -/
theorem sendlistFlushLoop_spec (rs : List SendResult) (h : s.Ok files done wait n) :
    s.Flushed files (sendlistFlushLoop files wait.length rs s) := by
  induction wait generalizing s done n rs with
  | nil => exact ⟨done, [], n, h, ⟨rfl, rfl, rfl⟩, Or.inl ⟨rfl, rfl⟩⟩
  | cons b bs ih =>
      have hn : n ≤ b.len := by
        rcases h.pending with rfl | ⟨b', bs', hcons, hlt⟩
        · exact Nat.zero_le _
        · cases hcons; exact Nat.le_of_lt hlt
      have helts : s.sendbufs.elts = b.advance n :: bs := h.at_.core.elts
      -- What is left to show once `k` more bytes are gone, `j` shutdowns being done.
      have hround : ∀ k j s₁, n + k ≤ b.len →
          (s₁.setHead ((b.advance n).advance k)).At files done (b :: bs) (n + k) j →
          (n + k < b.len → j = done.countP Sendbuf.isShutdown) →
          (n + k = b.len → j = (done ++ [b]).countP Sendbuf.isShutdown) → s.Same s₁ →
          sendbufSend files s (b.advance n) (rs.headD .wouldblock) = (s₁, some k) →
          s.Flushed files (sendlistFlushLoop files (b :: bs).length rs s) := by
        intro k j s₁ hle hat hopen hfull hsame hsend
        have hlen : ((b.advance n).advance k).len = b.len - (n + k) := Nat.sub_sub ..
        rw [List.length_cons, sendlistFlushLoop_sent helts hsend, hlen]
        have hwf : s₁.fdsel.Wf := hsame.1 ▸ h.wf
        rcases hat.round hwf hle hopen hfull with ⟨hlt, hok⟩ | ⟨heq, s₂, hshift, hok, hsame₂⟩
        · rw [if_pos (by omega)]
          exact ⟨_, _, _, hok, hsame, Or.inr ⟨Or.inl rfl, by simp⟩⟩
        · rw [if_neg (by omega), hshift]
          exact Sendlist.Flushed.of_same (Sendlist.Same.trans hsame hsame₂) (ih rs.tail hok)
      have hsplit : (done ++ [b]).countP Sendbuf.isShutdown
          = done.countP Sendbuf.isShutdown + b.isShutdown.toNat := by
        cases hb : b.isShutdown <;> simp [hb]
      rcases sendbufSend_spec s b hn (rs.headD .wouldblock) with
        hfail | ⟨hb, hblock⟩ | ⟨hb, k, e, hle, hdata, hbytes, haccept⟩ | ⟨hb, hshut⟩
      · -- An error leaves everything as it was.
        rw [List.length_cons, sendlistFlushLoop_fail helts hfail]
        exact ⟨done, b :: bs, n, h, ⟨rfl, rfl, rfl⟩, Or.inr ⟨Or.inr rfl, by simp⟩⟩
      · rw [hb] at hsplit
        have hhead : s.setHead ((b.advance n).advance 0) = s := by
          unfold Sendlist.setHead
          rw [show (b.advance n).advance 0 = b.advance n from rfl, helts, List.set_cons_zero, ← helts]
        exact hround 0 _ s hn (hhead.symm ▸ h.at_) (fun _ => rfl) (fun _ => hsplit.symm)
          ⟨rfl, rfl, rfl⟩ hblock
      · rw [hb] at hsplit
        exact hround k _ _ hle (h.at_.data hdata hbytes) (fun _ => rfl) (fun _ => hsplit.symm)
          ⟨rfl, rfl, rfl⟩ haccept
      · exact hround (b.len - n) _ _ (by omega) (h.at_.shutdown_head hb)
          (fun hlt => absurd hlt (by omega)) (fun _ => rfl) ⟨rfl, rfl, rfl⟩ hshut

theorem length_progress (n : Nat) (bs : List Sendbuf) : (progress n bs).length = bs.length := by
  cases bs <;> rfl

theorem Sendlist.Ok.count (h : s.Ok files done wait n) : arrayCount s.sendbufs = wait.length := by
  unfold arrayCount
  rw [h.at_.core.elts, length_progress]

/-- The queue is empty when nothing waits. -/
theorem Sendlist.Ok.elts_eq_nil (h : s.Ok files done wait n) :
    s.sendbufs.elts = [] ↔ wait = [] := by
  rw [h.at_.core.elts]
  cases wait <;> simp [progress]

/-- The registration that `sendlist_flush` ends with: where there is memory for a new entry, writing
is registered when the queue is blocked, and not otherwise. -/
theorem sendlistSelect_spec (allocOk : Nat → Bool) (hok : allocOk s.fdsel.allocs = true)
    (h : s.fdsel.Wf) (err : Int) :
    ∃ sel, sendlistSelect allocOk s err = { s with fdsel := sel } ∧ sel.Wf ∧
      fdselectFunc sel s.sendFd fdselectWRITE = if err > 0 then some .selectWrite else none := by
  unfold sendlistSelect
  by_cases herr : err > 0
  · rw [if_pos herr, if_pos herr]
    obtain ⟨sel, r, hset, hwf, hcases⟩ := fdselectFunc_set allocOk h s.sendFd fdselectWRITE
      (some .selectWrite) (by decide)
    rw [hset]
    refine ⟨sel, rfl, hwf, ?_⟩
    rcases hcases with ⟨-, hno, -⟩ | ⟨-, hfunc⟩
    · rw [hok] at hno; exact absurd hno (by simp)
    · rw [hfunc _ _ (Or.inr rfl), if_pos ⟨rfl, by decide⟩]
  · rw [if_neg herr, if_neg herr]
    obtain ⟨sel, r, hunset, hwf, -, hfunc⟩ := fdselectFunc_unset allocOk h s.sendFd fdselectWRITE
      (Or.inr (Or.inl rfl))
    rw [hunset]
    exact ⟨sel, rfl, hwf, by rw [hfunc _ _ (Or.inr rfl), if_pos ⟨rfl, by decide⟩]⟩

/-- An effect that is none of the queue's own. -/
theorem Sendlist.Ok.flushed (h : s.Ok files done wait n) (err : Int) :
    (s.emit (.flushed err)).Ok files done wait n :=
  ⟨h.at_.emit (e := .flushed err) s.sendbufs rfl rfl (List.append_nil _).symm
    (List.append_nil _).symm h.at_.core.elts (fun he => absurd he (by simp)), h.pending, h.wf⟩

/-- What a flush returns, by what it leaves in the queue and registers. -/
def FlushOk (r : Sendlist × Int) : Prop :=
  (r.2 = 0 ↔ r.1.sendbufs.elts = []) ∧
  (r.2 ≥ 0 → fdselectFunc r.1.fdsel r.1.sendFd fdselectWRITE
    = if r.1.sendbufs.elts.isEmpty then none else some .selectWrite)

/-- A flush moves the split forward, and returns and registers what the queue says. -/
theorem sendlistFlush_spec {allocOk : Nat → Bool} (hmem : ∀ k, allocOk k = true)
    (rs : List SendResult) (h : s.Ok files done wait n) :
    (∃ done' wait' n', (sendlistFlush allocOk files rs s).1.Ok files done' wait' n') ∧
      FlushOk (sendlistFlush allocOk files rs s) := by
  obtain ⟨done', wait', n', hok, ⟨hsel, -, -⟩, herr⟩ := sendlistFlushLoop_spec rs h
  unfold sendlistFlush
  rw [h.count]
  generalize sendlistFlushLoop files wait.length rs s = loop at hok hsel herr
  obtain ⟨s₁, err⟩ := loop
  dsimp only at hok hsel herr ⊢
  obtain ⟨sel, hselect, hwf, hreg⟩ := sendlistSelect_spec allocOk (hmem _) hok.wf err
  have hok₂ : ({ s₁ with fdsel := sel } : Sendlist).Ok files done' wait' n' :=
    ⟨⟨⟨hok.at_.core.queued, hok.at_.core.elts, hok.at_.core.stream, hok.at_.core.freed,
      hok.at_.core.once, hok.at_.core.allowed⟩, hok.at_.accepted, hok.at_.shutdown⟩, hok.pending,
      hwf⟩
  have hnil := hok.elts_eq_nil
  -- telling of the flush changes nothing that `FlushOk` is about
  have hflush : ∀ s₂ : Sendlist, s₂.fdsel = sel → s₂.sendFd = s₁.sendFd →
      s₂.sendbufs = s₁.sendbufs → FlushOk (s₂, err) := by
    intro s₂ hsel₂ hfd₂ hbufs₂
    unfold FlushOk
    dsimp only
    rw [hsel₂, hfd₂, hbufs₂, hnil]
    rcases herr with ⟨rfl, hwait⟩ | ⟨herr, hwait⟩
    · refine ⟨⟨fun _ => hwait, fun _ => rfl⟩, fun _ => ?_⟩
      rw [hreg, hnil.mpr hwait]; rfl
    · refine ⟨⟨fun h0 => by omega, fun h0 => absurd h0 hwait⟩, fun hge => ?_⟩
      have hempty : s₁.sendbufs.elts.isEmpty = false := by
        rw [Bool.eq_false_iff, Ne, List.isEmpty_iff, hnil]; exact hwait
      rw [hreg, if_pos (by omega), hempty]; rfl
  rw [hselect]
  dsimp only
  split
  · exact ⟨⟨_, _, _, hok₂.flushed err⟩, hflush _ rfl rfl rfl⟩
  · exact ⟨⟨_, _, _, hok₂⟩, hflush _ rfl rfl rfl⟩

/-- Queuing a buffer. -/
theorem sendlistPush_spec (h : s.Ok files done wait n) (b : Sendbuf) :
    (sendlistPush s b).Ok files done (wait ++ [b]) n := by
  obtain ⟨arr, hadd, helts⟩ := arrayAdd_one Sendbuf.zero 1 s.sendbufs
  have hpush : sendlistPush s b = ({ s with sendbufs :=
      { arr with elts := arr.elts.set s.sendbufs.elts.length b } } : Sendlist).emit (.queue b) := by
    unfold sendlistPush
    rw [hadd]
  rw [hpush]
  have hset : arr.elts.set s.sendbufs.elts.length b = progress n (wait ++ [b]) := by
    rw [helts, h.at_.core.elts]
    cases wait with
    | nil =>
        have hn : n = 0 := by
          rcases h.pending with hn | ⟨_, _, hcons, -⟩
          · exact hn
          · exact absurd hcons (by simp)
        rw [hn]; rfl
    | cons b' bs => simp [progress]
  have hsent : sent files n (wait ++ [b]) = sent files n wait := by
    cases wait with
    | nil =>
        rcases h.pending with rfl | ⟨_, _, hcons, -⟩
        · rfl
        · exact absurd hcons (by simp)
    | cons b' bs => rfl
  refine ⟨h.at_.emit (e := .queue b) _ rfl rfl rfl ?_ hset (fun he => absurd he (by simp)), ?_,
    h.wf⟩
  · rw [hsent]; exact (List.append_nil _).symm
  · rcases h.pending with hn | ⟨b', bs, rfl, hlt⟩
    · exact Or.inl hn
    · exact Or.inr ⟨b', bs ++ [b], rfl, hlt⟩

/-- A close frees what waits and starts over. -/
theorem sendlistClose_spec (allocOk : Nat → Bool) (h : s.Ok files done wait n) :
    (sendlistClose allocOk s).1.Ok files [] [] 0 := by
  have hclosing : (s.emit .close).At files done wait n (done.countP Sendbuf.isShutdown) :=
    h.at_.emit (e := .close) s.sendbufs rfl rfl (List.append_nil _).symm (List.append_nil _).symm
      h.at_.core.elts (fun he => absurd he (by simp))
  have hmem : .close ∈ sinceClosed (s.emit .close).trace := by
    show _ ∈ sinceClosed (s.trace ++ [.close])
    rw [sinceClosed, since_concat_of_not _ rfl]
    simp
  obtain ⟨hcore, hsel, -, -⟩ := hclosing.core.shiftLoop hmem
  have hcount : arrayCount s.sendbufs = wait.length := h.count
  unfold sendlistClose
  rw [hcount]
  generalize sendlistShiftLoop wait.length (s.emit .close) = s₁ at hcore hsel
  have hwf : s₁.fdsel.Wf := hsel ▸ h.wf
  obtain ⟨sel, e, hunset, hwf', -, -⟩ := fdselectFunc_unset allocOk hwf s₁.sendFd fdselectWRITE
    (Or.inr (Or.inl rfl))
  have hsince : sinceClosed (s₁.trace ++ [.closed]) = [] := since_concat ..
  have hstream : StreamOk files (s₁.trace ++ [.closed]) := by
    unfold StreamOk
    rw [hsince]
    exact List.prefix_rfl
  -- The list starts over, whatever array is left empty.
  have hnew : ∀ s' : Sendlist, s'.trace = s₁.trace ++ [.closed] → s'.sendbufs.elts = [] →
      s'.fdsel = sel → s'.Ok files [] [] 0 := by
    intro s' htrace helts hsel'
    refine ⟨⟨⟨?_, helts, ?_, ?_, ?_, ?_⟩, ?_, ?_⟩, Or.inl rfl, hsel' ▸ hwf'⟩ <;> rw [htrace]
    · rw [hsince]; rfl
    · exact hstream
    · rw [hsince]; rfl
    · rw [freedFuncs_concat, queuedBufs_concat]
      simpa [SendEffect.freed?, SendEffect.queued?] using hcore.once
    · exact hcore.allowed.concat
        ⟨hstream, fun he => absurd he (by simp), fun f he => absurd he (by simp)⟩
    · rw [hsince]; rfl
    · rw [hsince]; rfl
  dsimp only
  rw [show (s₁.emit .closed).fdsel = s₁.fdsel from rfl,
    show (s₁.emit .closed).sendFd = s₁.sendFd from rfl, hunset]
  dsimp only
  split
  · exact hnew _ rfl rfl rfl
  · exact hnew _ rfl hcore.elts rfl

end

/-! ### Runs -/

/-- What a list did so far. -/
structure Sendlist.Delivers (files : Int → Int → UInt8) (s : Sendlist) : Prop where
  /-- At any time, the bytes accepted since the last close are a prefix of what was queued. -/
  stream : ∀ pre post, s.trace = pre ++ post → StreamOk files pre
  /-- A shutdown came after all bytes queued before it. -/
  shutdown : ∀ pre post, s.trace = pre ++ .shutdown :: post → ShutdownOk files pre
  /-- A free function was called when its buffer was accepted, or in a close. -/
  free : ∀ f pre post, s.trace = pre ++ .free f :: post → FreeOk files pre f
  /-- The free functions were called once, in order, up to the buffers in the queue. -/
  once : freedFuncs s.trace ++ freeFuncs s.sendbufs.elts = freeFuncs (queuedBufs s.trace)
  /-- The last byte of a buffer in the queue was not accepted. -/
  pending : ∀ xs b ys, queuedBufs (sinceClosed s.trace) = xs ++ b :: ys →
    ys.length < s.sendbufs.elts.length → b.payload files ≠ [] →
    (acceptedBytes (sinceClosed s.trace)).length < (payloads files (xs ++ [b])).length

section
variable {files : Int → Int → UInt8} {s : Sendlist} {done wait : List Sendbuf} {n : Nat}

/-- Fewer bytes of the head were accepted than it has, unless it has none. -/
theorem Sendlist.Ok.sent_lt (h : s.Ok files done wait n) {b : Sendbuf} {bs : List Sendbuf}
    (hwait : wait = b :: bs) :
    sent files n wait = [] ∨ (sent files n wait).length < (b.payload files).length := by
  subst hwait
  rcases h.pending with rfl | ⟨b', bs', hcons, hlt⟩
  · exact Or.inl rfl
  · cases hcons
    cases hb : b.isShutdown with
    | true => exact Or.inl (by simp [sent, payload_of_isShutdown hb])
    | false =>
        right
        simp only [sent, List.head?_cons, Option.map_some, Option.getD_some, List.length_take,
          length_payload hb]
        omega

/-- A list that is in order delivers its files. -/
theorem Sendlist.Ok.delivers (h : s.Ok files done wait n) : s.Delivers files := by
  refine ⟨?_, ?_, ?_, ?_, ?_⟩
  · intro pre post hsplit
    rcases List.eq_nil_or_concat pre with rfl | ⟨pre', e, rfl⟩
    · exact List.prefix_rfl
    · rw [List.concat_eq_append, List.append_assoc] at hsplit
      rw [List.concat_eq_append]
      exact (h.at_.core.allowed pre' e post hsplit).stream
  · exact fun pre post hsplit => (h.at_.core.allowed pre _ post hsplit).shutdown rfl
  · exact fun f pre post hsplit => (h.at_.core.allowed pre _ post hsplit).free f rfl
  · rw [h.at_.core.elts, freeFuncs_progress]
    exact h.at_.core.once
  · intro xs b ys hqueued hlen hb
    rw [h.at_.core.elts, length_progress] at hlen
    rw [h.at_.core.queued] at hqueued
    rw [h.at_.accepted, payloads_concat, List.length_append, List.length_append]
    have hpos : 0 < (b.payload files).length := List.length_pos_iff.mpr hb
    -- `b` is among the buffers that wait, so `done` stands in `xs`.
    obtain ⟨zs, hxs, hwait⟩ : ∃ zs, xs = done ++ zs ∧ wait = zs ++ b :: ys := by
      rcases List.append_eq_append_iff.mp hqueued with ⟨zs, hxs, hwait⟩ | ⟨zs, hdone, hys⟩
      · exact ⟨zs, hxs, hwait⟩
      · have hlens := congrArg List.length hys
        rw [List.length_append, List.length_cons] at hlens
        cases zs with
        | nil => exact ⟨[], by simpa using hdone.symm, hys.symm⟩
        | cons z zs => simp only [List.length_cons] at hlens; omega
    rw [hxs, payloads_append, List.length_append]
    cases zs with
    | nil =>
        rcases h.sent_lt hwait with hnil | hlt
        · rw [hnil, List.length_nil]; omega
        · omega
    | cons z zs =>
        have hz : (z.payload files).length ≤ (payloads files (z :: zs)).length := by
          simp [payloads]
        rcases h.sent_lt (show wait = z :: (zs ++ b :: ys) from hwait) with hnil | hlt
        · rw [hnil, List.length_nil]; omega
        · omega

end

/-- A list in some split. -/
def Sendlist.Good (files : Int → Int → UInt8) (s : Sendlist) : Prop :=
  ∃ done wait n, s.Ok files done wait n

section
variable {allocOk : Nat → Bool} {files : Int → Int → UInt8}

theorem good_sendlistInit {fdsel : Fdselect SendlistFunc} (hwf : fdsel.Wf) (sendFd : Int)
    (flushedFunc : Bool) : (sendlistInit fdsel sendFd flushedFunc).Good files :=
  ⟨[], [], 0, ⟨⟨⟨rfl, rfl, List.prefix_rfl, rfl, rfl, allowed_nil _⟩, rfl, rfl⟩, Or.inl rfl, hwf⟩⟩

/-- Sending queues a buffer and flushes. -/
theorem sendlistSend_spec (hmem : ∀ k, allocOk k = true) {s : Sendlist} (h : s.Good files)
    (buf : Option (Int → UInt8)) (fd : Int) (off len : Nat) (freeFunc : Option Nat)
    (rs : List SendResult) :
    (sendlistSend allocOk files s buf fd off len freeFunc rs).1.Good files ∧
      FlushOk (sendlistSend allocOk files s buf fd off len freeFunc rs) := by
  obtain ⟨done, wait, n, hok⟩ := h
  exact sendlistFlush_spec hmem rs (sendlistPush_spec hok ⟨buf, fd, len, off, freeFunc⟩)

/-- The step lemma: a call keeps the list in some split, and a call that flushes returns what the
queue says. -/
theorem good_apply (hmem : ∀ k, allocOk k = true) {s : Sendlist} (h : s.Good files)
    (op : SendlistOp) :
    (op.apply allocOk files s).1.Good files ∧
      (op ≠ .close → FlushOk (op.apply allocOk files s)) := by
  cases op with
  | sendBuf buf len freeFunc rs =>
      exact (sendlistSend_spec hmem h buf (-1) 0 len freeFunc rs).imp_right fun hflush _ => hflush
  | sendFd fd off len freeFunc rs =>
      exact (sendlistSend_spec hmem h none fd off len freeFunc rs).imp_right fun hflush _ => hflush
  | shutdown freeFunc rs =>
      exact (sendlistSend_spec hmem h none (-1) 0 0 freeFunc rs).imp_right fun hflush _ => hflush
  | flush rs =>
      obtain ⟨done, wait, n, hok⟩ := h
      exact (sendlistFlush_spec hmem rs hok).imp_right fun hflush _ => hflush
  | close =>
      obtain ⟨done, wait, n, hok⟩ := h
      exact ⟨⟨_, _, _, sendlistClose_spec allocOk hok⟩, fun hne => absurd rfl hne⟩

end

/-- A list delivers what was queued since it was last closed, in every run of calls in which
`fdselect_set` has the memory for its entries: without it the table is lost. -/
theorem sendlist_delivers {allocOk : Nat → Bool} (hmem : ∀ k, allocOk k = true)
    (files : Int → Int → UInt8) (fdsel : Fdselect SendlistFunc) (hwf : fdsel.Wf) (sendFd : Int)
    (flushedFunc : Bool) (ops : List SendlistOp) :
    (run (SendlistOp.step allocOk files) (sendlistInit fdsel sendFd flushedFunc)
      ops).Delivers files ∧
    (∀ op : SendlistOp, op ≠ .close → FlushOk
      (op.apply allocOk files
        (run (SendlistOp.step allocOk files) (sendlistInit fdsel sendFd flushedFunc) ops))) ∧
    (sendlistClose allocOk
      (run (SendlistOp.step allocOk files)
        (sendlistInit fdsel sendFd flushedFunc) ops)).1.sendbufs.elts = [] := by
  have hgood : (run (SendlistOp.step allocOk files) (sendlistInit fdsel sendFd flushedFunc)
      ops).Good files :=
    run_inv (I := Sendlist.Good files) (fun _ op h => (good_apply hmem h op).1)
      (good_sendlistInit hwf sendFd flushedFunc) ops
  obtain ⟨done, wait, n, hok⟩ := hgood
  exact ⟨hok.delivers, fun op => (good_apply hmem ⟨done, wait, n, hok⟩ op).2,
    (sendlistClose_spec allocOk hok).at_.core.elts⟩

/-- Two buffers, the second one behind a blocked write, and a shutdown. -/
theorem sendlist_delivers_two :
    (run (SendlistOp.step (fun _ => true) fun _ _ => 0) (sendlistInit fdselectInit 5 true)
      [.sendBuf (some fun i => UInt8.ofNat i.toNat) 3 (some 7) [.accept 2, .wouldblock],
        .sendFd 4 10 2 (some 8) [], .shutdown none [.accept 1, .accept 2]]).Delivers fun _ _ => 0 :=
  (sendlist_delivers (fun _ => rfl) (fun _ _ => 0) fdselectInit wf_fdselectInit 5 true _).1

/-- Without the last close being counted from, the accepted bytes are no prefix: a close drops what
waits, and the list can be used again. And when there is no memory for the registration, a flush
returns 1 with nothing registered. -/
theorem sendlist_not_delivers_across_close :
    (¬ acceptedBytes
        (run (SendlistOp.step (fun _ => true) fun _ _ => 0) (sendlistInit fdselectInit 5 true)
          [.sendBuf (some fun i => UInt8.ofNat i.toNat) 2 none [.accept 1], .close,
            .sendBuf (some fun _ => 9) 1 none [.accept 1]]).trace <+:
      payloads (fun _ _ => 0) (queuedBufs
        (run (SendlistOp.step (fun _ => true) fun _ _ => 0) (sendlistInit fdselectInit 5 true)
          [.sendBuf (some fun i => UInt8.ofNat i.toNat) 2 none [.accept 1], .close,
            .sendBuf (some fun _ => 9) 1 none [.accept 1]]).trace)) ∧
    (sendlistSendBuf (fun _ => false) (fun _ _ => 0) (sendlistInit fdselectInit 5 true)
        (some fun _ => 9) 1 none []).2 = 1 ∧
      fdselectFunc (sendlistSendBuf (fun _ => false) (fun _ _ => 0)
        (sendlistInit fdselectInit 5 true) (some fun _ => 9) 1 none []).1.fdsel 5 fdselectWRITE
        = none := by
  decide +kernel

end Bklib
