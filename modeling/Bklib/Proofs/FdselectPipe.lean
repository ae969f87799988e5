import Bklib.Lib.Run
import Bklib.Proofs.PipeChannel

/-!
# `Bklib.Proofs.FdselectPipe`: a pipe is a pair of lossless FIFO channels

`Chan.Inv` is what every piece of a handler keeps: the bytes sent and the bytes that wait are the
bytes received. `Chan.Reg` says what is registered, and `Chan.Synced` that the interest flags are
right. The last one holds between the handlers only.

`fdselect_pipe_lossless` reads these facts back on the pipe, after any run of events.
-/

set_option autoImplicit false

namespace Bklib

open Bklib.Lib

def ChanEffect.received : ChanEffect → List UInt8
  | .recv bytes => bytes
  | _           => []

def ChanEffect.accepted : ChanEffect → List UInt8
  | .send bytes => bytes
  | _           => []

namespace Chan

/-- The bytes that wait in the buffer. -/
def buffered (c : Chan) : List UInt8 := readAt c.buf c.off c.len.toNat

/-- A shutdown came after the end of reading, with all bytes sent or sending failed. -/
def StopOk (trace : List ChanEffect) : Prop :=
  ∀ pre post, trace = pre ++ .shutdown :: post →
    .recvEnd ∈ pre ∧ (pre.flatMap ChanEffect.received = pre.flatMap ChanEffect.accepted
      ∨ .sendErr ∈ pre)

/-- What every piece of a handler keeps. -/
structure Inv (c : Chan) : Prop where
  off_nonneg : 0 ≤ c.off
  len_nonneg : 0 ≤ c.len
  fits : c.off + c.len ≤ c.max
  stream : c.trace.flatMap ChanEffect.received
    = c.trace.flatMap ChanEffect.accepted ++ c.buffered
  errRead : c.errRead = true ↔ .recvEnd ∈ c.trace
  errWrite : c.errWrite = true ↔ .sendErr ∈ c.trace
  once : c.trace.count .shutdown ≤ 1
  done : c.errReadDone = false → .shutdown ∉ c.trace
  stop : StopOk c.trace

/-- What is registered: reading until it fails, and writing, each with its flag. -/
structure Reg (x : Side) (c : Chan) : Prop where
  read : c.readFunc = if c.selectRead ∧ ¬ c.errRead then some (.sockRead x) else none
  write : c.writeFunc = if c.selectWrite then some (.sockWrite x.peer) else none

/-- Reading is of interest only while there is room and no read error. -/
def ReadOk (c : Chan) : Prop := c.selectRead = true → c.room = true ∧ c.errRead = false

/-- The interest flags between the handlers. -/
structure Synced (c : Chan) : Prop where
  read : c.selectRead = true ↔ c.room = true ∧ c.errRead = false
  write : c.selectWrite = true ↔ 0 < c.len ∧ c.errWrite = false

/-- Effects that are no shutdown do not disturb the ones that were. -/
theorem StopOk.concat {trace : List ChanEffect} (h : StopOk trace) {e : ChanEffect}
    (he : e ≠ .shutdown) : StopOk (trace ++ [e]) := by
  intro pre post hsplit
  rcases List.eq_nil_or_concat post with rfl | ⟨post', last, rfl⟩
  · -- The shutdown would be the new effect.
    have hlast := (List.append_inj' hsplit rfl).2
    exact absurd (List.singleton_inj.mp hlast) he
  · rw [List.concat_eq_append, ← List.cons_append, ← List.append_assoc] at hsplit
    exact h pre post' (List.append_inj' hsplit rfl).1

/-- A shutdown behind the end of reading, with all sent or an error of sending. -/
theorem StopOk.concat_shutdown {trace : List ChanEffect} (h : StopOk trace)
    (hend : .recvEnd ∈ trace)
    (hsent : trace.flatMap ChanEffect.received = trace.flatMap ChanEffect.accepted
      ∨ .sendErr ∈ trace) : StopOk (trace ++ [.shutdown]) := by
  intro pre post hsplit
  rcases List.eq_nil_or_concat post with rfl | ⟨post', last, rfl⟩
  · rw [← (List.append_inj' hsplit rfl).1]
    exact ⟨hend, hsent⟩
  · rw [List.concat_eq_append, ← List.cons_append, ← List.append_assoc] at hsplit
    exact h pre post' (List.append_inj' hsplit rfl).1

namespace Inv

variable {c : Chan}

/-- An error of `recv` keeps the invariant. -/
theorem recvErr (h : c.Inv) : c.recvErr.Inv where
  off_nonneg := h.off_nonneg
  len_nonneg := h.len_nonneg
  fits := h.fits
  stream := by
    simpa [Chan.recvErr, ChanEffect.received, ChanEffect.accepted, buffered] using h.stream
  errRead := by simp [Chan.recvErr]
  errWrite := by simpa [Chan.recvErr] using h.errWrite
  once := by simpa [Chan.recvErr, List.count_append] using h.once
  done := fun hd => by simpa [Chan.recvErr] using h.done hd
  stop := h.stop.concat (by decide)

/-- The bytes received go behind the bytes that wait. -/
theorem received (h : c.Inv) {bytes : List UInt8}
    (hfits : c.off + c.len + bytes.length ≤ c.max) : (c.received bytes).Inv where
  off_nonneg := h.off_nonneg
  len_nonneg := by have := h.len_nonneg; show 0 ≤ c.len + (bytes.length : Int); omega
  fits := by show c.off + (c.len + (bytes.length : Int)) ≤ c.max; omega
  stream := by
    have hlen := h.len_nonneg
    have hbuf : (c.received bytes).buffered = c.buffered ++ bytes := by
      show readAt (writeAt c.buf (c.off + c.len) bytes) c.off (c.len + bytes.length).toNat = _
      rw [show (c.len + (bytes.length : Int)).toNat = c.len.toNat + bytes.length by omega,
        show c.off + c.len = c.off + (c.len.toNat : Int) by omega]
      exact readAt_writeAt_append c.buf c.off c.len.toNat bytes
    rw [hbuf, ← List.append_assoc]
    have hstream := h.stream
    simp only [Chan.received, List.flatMap_append, List.flatMap_singleton, ChanEffect.received,
      ChanEffect.accepted, List.append_nil, hstream]
  errRead := by simpa [Chan.received] using h.errRead
  errWrite := by simpa [Chan.received] using h.errWrite
  once := by simpa [Chan.received, List.count_append] using h.once
  done := fun hd => by simpa [Chan.received] using h.done hd
  stop := h.stop.concat (by simp)

/-- The bytes sent are the first ones that wait. -/
theorem sent (h : c.Inv) {n : Nat} (hn : (n : Int) ≤ c.len) : (c.sent n).Inv where
  off_nonneg := by
    have := h.off_nonneg
    show 0 ≤ if c.len - (n : Int) = 0 then 0 else c.off + n
    split <;> omega
  len_nonneg := by show 0 ≤ c.len - (n : Int); omega
  fits := by
    have := h.off_nonneg
    have := h.fits
    show (if c.len - (n : Int) = 0 then 0 else c.off + n) + (c.len - (n : Int)) ≤ c.max
    split <;> omega
  stream := by
    have hbuf : c.buffered = readAt c.buf c.off n ++ (c.sent n).buffered := by
      have hsplit : c.len.toNat = n + (c.len - n).toNat := by omega
      unfold buffered
      rw [hsplit, readAt_add]
      refine congrArg (_ ++ ·) ?_
      show _ = readAt c.buf (if c.len - (n : Int) = 0 then 0 else c.off + n) (c.len - n).toNat
      split
      · rename_i h0
        rw [show (c.len - (n : Int)).toNat = 0 by omega]
        rfl
      · rfl
    have hstream := h.stream
    rw [hbuf, ← List.append_assoc] at hstream
    simp only [Chan.sent, List.flatMap_append, List.flatMap_singleton, ChanEffect.received,
      ChanEffect.accepted, List.append_nil]
    exact hstream
  errRead := by simpa [Chan.sent] using h.errRead
  errWrite := by simpa [Chan.sent] using h.errWrite
  once := by simpa [Chan.sent, List.count_append] using h.once
  done := fun hd => by simpa [Chan.sent] using h.done hd
  stop := h.stop.concat (by simp)

/-- The flags and the registrations are not part of the invariant. -/
theorem congr {d : Chan} (h : c.Inv) (hoff : d.off = c.off) (hlen : d.len = c.len)
    (hmax : d.max = c.max) (hbuf : d.buf = c.buf) (hread : d.errRead = c.errRead)
    (hwrite : d.errWrite = c.errWrite) (hdone : d.errReadDone = c.errReadDone)
    (htrace : d.trace = c.trace) : d.Inv where
  off_nonneg := by rw [hoff]; exact h.off_nonneg
  len_nonneg := by rw [hlen]; exact h.len_nonneg
  fits := by rw [hoff, hlen, hmax]; exact h.fits
  stream := by unfold buffered; rw [htrace, hbuf, hoff, hlen]; exact h.stream
  errRead := by rw [hread, htrace]; exact h.errRead
  errWrite := by rw [hwrite, htrace]; exact h.errWrite
  once := by rw [htrace]; exact h.once
  done := by rw [hdone, htrace]; exact h.done
  stop := by rw [htrace]; exact h.stop

theorem unsetRead (h : c.Inv) : c.unsetRead.Inv := by
  unfold Chan.unsetRead
  split
  · exact h.congr rfl rfl rfl rfl rfl rfl rfl rfl
  · exact h

theorem unsetWrite (h : c.Inv) : c.unsetWrite.Inv := by
  unfold Chan.unsetWrite
  split
  · exact h.congr rfl rfl rfl rfl rfl rfl rfl rfl
  · exact h

theorem setRead (h : c.Inv) (x : Side) : (c.setRead x).Inv := by
  unfold Chan.setRead
  split
  · exact h
  · exact h.congr rfl rfl rfl rfl rfl rfl rfl rfl

theorem setWrite (h : c.Inv) (x : Side) : (c.setWrite x).Inv := by
  unfold Chan.setWrite
  split
  · exact h
  · exact h.congr rfl rfl rfl rfl rfl rfl rfl rfl

/-- An error of `send` keeps it, although what is in the buffer is lost. -/
theorem sendErr (h : c.Inv) : c.sendErr.Inv := by
  refine unsetRead (c := { c with errWrite := true, trace := c.trace ++ [.sendErr] })
    { off_nonneg := h.off_nonneg
      len_nonneg := h.len_nonneg
      fits := h.fits
      stream := ?_
      errRead := ?_
      errWrite := ?_
      once := ?_
      done := ?_
      stop := h.stop.concat (by decide) }
  · simpa [ChanEffect.received, ChanEffect.accepted, buffered] using h.stream
  · simpa using h.errRead
  · simp
  · simpa [List.count_append] using h.once
  · intro hd; simpa using h.done hd

/-- The shutdown, when the buffer is empty or sending failed. -/
theorem stopped (h : c.Inv) (hdone : ¬ (c.len > 0 ∧ ¬ c.errWrite = true)) : c.stop.Inv := by
  unfold Chan.stop
  split
  · rename_i hcond
    have hnot : c.errReadDone = false := by simpa using hcond.2
    refine
      { off_nonneg := h.off_nonneg
        len_nonneg := h.len_nonneg
        fits := h.fits
        stream := ?_
        errRead := ?_
        errWrite := ?_
        once := ?_
        done := fun hd => absurd hd (by simp)
        stop := h.stop.concat_shutdown (h.errRead.mp hcond.1) ?_ }
    · simpa [ChanEffect.received, ChanEffect.accepted, buffered] using h.stream
    · simpa using h.errRead
    · simpa using h.errWrite
    · have honce := List.count_eq_zero.mpr (h.done hnot)
      simp [List.count_append, honce]
    · by_cases hw : c.errWrite = true
      · exact Or.inr (h.errWrite.mp hw)
      · have hlen : c.len.toNat = 0 := by
          have := h.len_nonneg
          have : ¬ c.len > 0 := fun hl => hdone ⟨hl, hw⟩
          omega
        have hstream := h.stream
        rw [buffered, hlen, readAt_zero, List.append_nil] at hstream
        exact Or.inl hstream
  · exact h

end Inv

namespace Reg

variable {x : Side} {c : Chan}

theorem recvErr (h : c.Reg x) : c.recvErr.Reg x :=
  ⟨by simp [Chan.recvErr], h.write⟩

/-- Unregistering reading: what is left without the flag is nothing. -/
theorem unsetRead (h : c.Reg x) : c.unsetRead.Reg x := by
  unfold Chan.unsetRead
  split
  · exact ⟨by simp, h.write⟩
  · exact h

theorem unsetWrite (h : c.Reg x) : c.unsetWrite.Reg x := by
  unfold Chan.unsetWrite
  split
  · exact ⟨h.read, by simp⟩
  · exact h

theorem setRead (h : c.Reg x) (herr : c.errRead = false) : (c.setRead x).Reg x := by
  unfold Chan.setRead
  split
  · exact h
  · exact ⟨by simp [herr], h.write⟩

theorem setWrite (h : c.Reg x) : (c.setWrite x).Reg x := by
  unfold Chan.setWrite
  split
  · exact h
  · exact ⟨h.read, by simp⟩

theorem stop (h : c.Reg x) : c.stop.Reg x := by
  unfold Chan.stop
  split
  · exact ⟨h.read, h.write⟩
  · exact h

theorem sendErr (h : c.Reg x) : c.sendErr.Reg x :=
  unsetRead (c := { c with errWrite := true, trace := c.trace ++ [.sendErr] }) ⟨h.read, h.write⟩

theorem regOk (h : c.Reg x) : c.RegOk :=
  ⟨fun hf => by rw [h.read]; rcases hf with hf | hf <;> simp [hf],
    fun hf => by rw [h.write, hf]; simp⟩

end Reg

/-- What the two loops keep, for the channel that reads from `x`. -/
def Good (x : Side) (c : Chan) : Prop := c.Inv ∧ c.Reg x

theorem good_recvLoop {x : Side} {c : Chan} (h : c.Good x) (recvs : List RecvResult) :
    (c.recvLoop recvs).Good x :=
  recvLoop_inv (fun _ h => ⟨h.1.recvErr, h.2.recvErr⟩)
    (fun _ _ h _ hfits => ⟨h.1.received hfits, h.2.read, h.2.write⟩) recvs h

theorem good_sendLoop {x : Side} {c : Chan} (h : c.Good x) (sends : List SendResult) :
    (c.sendLoop sends).Good x :=
  sendLoop_inv (fun _ h => ⟨h.1.sendErr, h.2.sendErr⟩)
    (fun _ _ h _ hn => ⟨h.1.sent hn, h.2.read, h.2.write⟩) sends h

/-- Sending makes room: it never takes the reading interest's room away. -/
theorem readOk_sendLoop {x : Side} {c : Chan} (h : c.Good x) (hread : c.ReadOk)
    (sends : List SendResult) : (c.sendLoop sends).ReadOk := by
  refine (sendLoop_inv (P := fun c => c.Good x ∧ c.ReadOk) ?_ ?_ sends ⟨h, hread⟩).2
  · intro c h
    refine ⟨⟨h.1.1.sendErr, h.1.2.sendErr⟩, fun hf => ?_⟩
    have hoff : c.sendErr.selectRead = false := by
      unfold Chan.sendErr Chan.unsetRead
      split
      · rfl
      · simp_all
    rw [hoff] at hf
    exact absurd hf (by simp)
  · intro c n h _ hn
    refine ⟨⟨h.1.1.sent hn, h.1.2.read, h.1.2.write⟩, fun hf => ?_⟩
    obtain ⟨hroom, herr⟩ := h.2 hf
    refine ⟨?_, herr⟩
    have hoff := h.1.1.off_nonneg
    simp only [room, decide_eq_true_eq] at hroom ⊢
    show (if c.len - (n : Int) = 0 then 0 else c.off + n) + (c.len - (n : Int)) < c.max
    split <;> omega

/-- The parts of a channel that setting the flags of the write handler leaves alone. -/
theorem writeFlags_same (x : Side) (c : Chan) :
    (c.writeFlags x).len = c.len ∧ (c.writeFlags x).errWrite = c.errWrite ∧
      (c.writeFlags x).room = c.room ∧ (c.writeFlags x).errRead = c.errRead := by
  unfold writeFlags setRead setWrite unsetWrite stop room
  dsimp only
  repeat' split
  all_goals exact ⟨rfl, rfl, rfl, rfl⟩

/-- Registering behind a write keeps the channel good. -/
theorem good_writeFlags {x : Side} {c : Chan} (h : c.Good x) : (c.writeFlags x).Good x := by
  unfold writeFlags
  have hfirst : (if c.room ∧ ¬ c.errRead then c.setRead x else c).Good x := by
    split
    · rename_i hcond
      exact ⟨h.1.setRead x, h.2.setRead (by simpa using hcond.2)⟩
    · exact h
  dsimp only
  generalize (if c.room ∧ ¬ c.errRead then c.setRead x else c) = d at hfirst
  split
  · exact ⟨hfirst.1.setWrite x, hfirst.2.setWrite⟩
  · rename_i hdone
    exact ⟨(hfirst.1.stopped hdone).unsetWrite, hfirst.2.stop.unsetWrite⟩

/-- The write handler leaves the write flag right. -/
theorem writeFlags_selectWrite (x : Side) (c : Chan) :
    (c.writeFlags x).selectWrite = true ↔ 0 < c.len ∧ c.errWrite = false := by
  have hfirst : (if c.room ∧ ¬ c.errRead then c.setRead x else c).len = c.len ∧
      (if c.room ∧ ¬ c.errRead then c.setRead x else c).errWrite = c.errWrite := by
    unfold setRead
    repeat' split
    all_goals exact ⟨rfl, rfl⟩
  unfold writeFlags
  dsimp only
  generalize (if c.room ∧ ¬ c.errRead then c.setRead x else c) = d at hfirst
  rw [← hfirst.1, ← hfirst.2]
  split
  · rename_i hcond
    have hset : (d.setWrite x).selectWrite = true := by
      unfold setWrite
      split
      · assumption
      · rfl
    simpa [hset] using hcond
  · rename_i hcond
    have hset : d.stop.unsetWrite.selectWrite = false := by
      unfold unsetWrite
      split
      · rfl
      · simp_all
    rw [hset]
    simpa using hcond

/-- The write handler registers reading where there is room for it. -/
theorem writeFlags_selectRead (x : Side) (c : Chan) :
    (c.writeFlags x).selectRead = true ↔
      c.selectRead = true ∨ c.room = true ∧ c.errRead = false := by
  unfold writeFlags setRead setWrite unsetWrite stop
  dsimp only
  by_cases hcond : c.room = true ∧ ¬ c.errRead = true
  · have hright : c.room = true ∧ c.errRead = false := by simpa using hcond
    rw [if_pos hcond]
    by_cases hflag : c.selectRead = true
    · rw [if_pos hflag]
      repeat' split
      all_goals simp [hflag]
    · rw [if_neg hflag]
      repeat' split
      all_goals simp [hright]
  · have hright : ¬ (c.room = true ∧ c.errRead = false) := by simpa using hcond
    rw [if_neg hcond]
    repeat' split
    all_goals simp [hright]

/-- Reading the flags changes none of the rest of a channel. -/
theorem readFlags_same (x : Side) (c : Chan) :
    (c.readFlags x).len = c.len ∧ (c.readFlags x).errWrite = c.errWrite ∧
      (c.readFlags x).room = c.room ∧ (c.readFlags x).errRead = c.errRead ∧
      (c.readFlags x).selectWrite = c.selectWrite := by
  unfold readFlags setRead unsetRead room
  repeat' split
  all_goals exact ⟨rfl, rfl, rfl, rfl, rfl⟩

/-- A channel is read while it has room and no error. -/
theorem readFlags_selectRead (x : Side) (c : Chan) :
    (c.readFlags x).selectRead = true ↔ c.room = true ∧ c.errRead = false := by
  unfold readFlags
  split
  · rename_i hcond
    have hset : (c.setRead x).selectRead = true := by
      unfold setRead
      split
      · assumption
      · rfl
    simpa [hset] using hcond
  · rename_i hcond
    have hset : c.unsetRead.selectRead = false := by
      unfold unsetRead
      split
      · rfl
      · simp_all
    rw [hset]
    simpa using hcond

/-- Reading the flags keeps a channel good. -/
theorem good_readFlags {x : Side} {c : Chan} (h : c.Good x) : (c.readFlags x).Good x := by
  unfold readFlags
  split
  · rename_i hcond
    exact ⟨h.1.setRead x, h.2.setRead (by simpa using hcond.2)⟩
  · exact ⟨h.1.unsetRead, h.2.unsetRead⟩

/-- The write step, from a channel between two handlers. -/
theorem write_step {x : Side} {c : Chan} (h : c.Good x) (hsync : c.Synced)
    (sends : List SendResult) : (c.write x sends).Good x ∧ (c.write x sends).Synced := by
  have hgood := good_sendLoop h sends
  have hread := readOk_sendLoop h (fun hf => hsync.read.mp hf) sends
  obtain ⟨hlen, herrw, hroom, herrr⟩ := writeFlags_same x (c.sendLoop sends)
  refine ⟨good_writeFlags hgood, ⟨?_, ?_⟩⟩
  · show ((c.sendLoop sends).writeFlags x).selectRead = true ↔ _
    rw [write, hroom, herrr, writeFlags_selectRead]
    exact or_iff_right_of_imp hread
  · rw [write, hlen, herrw]
    exact writeFlags_selectWrite x (c.sendLoop sends)

/-- The read step. The write handler runs in the middle of it. -/
theorem read_step {x : Side} {c : Chan} (h : c.Good x) (recvs : List RecvResult)
    (sends : List SendResult) :
    (c.read x recvs sends).Good x ∧ (c.read x recvs sends).Synced := by
  have hgood := good_writeFlags (good_sendLoop (good_recvLoop h recvs) sends)
  obtain ⟨hlen, herrw, hroom, herrr, hselect⟩ :=
    readFlags_same x ((c.recvLoop recvs).write x sends)
  obtain ⟨hlen', herrw', -, -⟩ := writeFlags_same x ((c.recvLoop recvs).sendLoop sends)
  refine ⟨good_readFlags hgood, ⟨?_, ?_⟩⟩
  · rw [read, hroom, herrr]
    exact readFlags_selectRead x _
  · rw [read, hlen, herrw, hselect, write, hlen', herrw']
    exact writeFlags_selectWrite x _

end Chan

/-! ### What the effects of a pipe show -/

/-- The bytes received from `x`. -/
def PipeEffect.received (x : Side) : PipeEffect → List UInt8
  | .recv z bytes => if z = x then bytes else []
  | _             => []

/-- The bytes that `y` accepted. -/
def PipeEffect.accepted (y : Side) : PipeEffect → List UInt8
  | .send z bytes => if z = y then bytes else []
  | _             => []

def bytesReceived (x : Side) (trace : List PipeEffect) : List UInt8 :=
  trace.flatMap (PipeEffect.received x)

def bytesAccepted (y : Side) (trace : List PipeEffect) : List UInt8 :=
  trace.flatMap (PipeEffect.accepted y)

/-- The bytes from `x` that wait in its buffer. -/
def FdselectPipe.buffered (p : FdselectPipe) (x : Side) : List UInt8 :=
  readAt (p.sock x).buf (p.sock x).off (p.sock x).len.toNat

/-- A filter in front of a `flatMap`. -/
theorem flatMap_filterMap_getD {α β γ : Type} (f : α → Option β) (g : β → List γ) (xs : List α) :
    (xs.filterMap f).flatMap g = xs.flatMap fun a => ((f a).map g).getD [] := by
  induction xs with
  | nil => rfl
  | cons a xs ih =>
      rw [List.flatMap_cons, ← ih]
      cases h : f a with
      | none => rw [List.filterMap_cons_none h]; rfl
      | some b => rw [List.filterMap_cons_some h, List.flatMap_cons]; rfl

/-- The bytes received on a side are those of its channel. -/
theorem bytesReceived_chan (x : Side) (trace : List PipeEffect) :
    (trace.filterMap (·.toChan x)).flatMap ChanEffect.received = bytesReceived x trace := by
  rw [flatMap_filterMap_getD]
  refine congrArg (trace.flatMap ·) (funext fun e => ?_)
  cases e <;> simp only [PipeEffect.toChan, PipeEffect.received] <;> try split
  all_goals rfl

/-- The bytes accepted on the other side are those of its channel. -/
theorem bytesAccepted_chan (x : Side) (trace : List PipeEffect) :
    (trace.filterMap (·.toChan x)).flatMap ChanEffect.accepted = bytesAccepted x.peer trace := by
  rw [flatMap_filterMap_getD]
  refine congrArg (trace.flatMap ·) (funext fun e => ?_)
  cases e <;> simp only [PipeEffect.toChan, PipeEffect.accepted] <;> try split
  all_goals rfl

theorem toChan_eq_recvEnd {x : Side} {e : PipeEffect} :
    e.toChan x = some .recvEnd ↔ e = .recvEnd x := by
  cases e <;> simp [PipeEffect.toChan]

theorem toChan_eq_sendErr {x : Side} {e : PipeEffect} :
    e.toChan x = some .sendErr ↔ e = .sendErr x.peer := by
  cases e <;> simp [PipeEffect.toChan]

theorem toChan_eq_shutdown {x : Side} {e : PipeEffect} :
    e.toChan x = some .shutdown ↔ e = .shutdownSend x.peer := by
  cases e <;> simp [PipeEffect.toChan]

theorem mem_chan_recvEnd {x : Side} {trace : List PipeEffect} :
    .recvEnd ∈ trace.filterMap (·.toChan x) ↔ .recvEnd x ∈ trace := by
  simp [List.mem_filterMap, toChan_eq_recvEnd]

theorem mem_chan_sendErr {x : Side} {trace : List PipeEffect} :
    .sendErr ∈ trace.filterMap (·.toChan x) ↔ .sendErr x.peer ∈ trace := by
  simp [List.mem_filterMap, toChan_eq_sendErr]

/-- The shutdowns of the other side are those of its channel. -/
theorem count_chan_shutdown (x : Side) (trace : List PipeEffect) :
    (trace.filterMap (·.toChan x)).count .shutdown = trace.count (.shutdownSend x.peer) := by
  rw [List.count, List.count, List.countP_filterMap]
  refine List.countP_congr fun e _ => ?_
  rw [beq_iff_eq, ← toChan_eq_shutdown]
  cases e.toChan x <;> simp

/-- The channel from `x` to its peer is lossless and in order, its receiving end is shut down for
sending at most once and not too early, and the interest flags are right and registered. -/
structure FdselectPipe.Lossless (p : FdselectPipe) (x : Side) : Prop where
  stream : bytesAccepted x.peer p.trace ++ p.buffered x = bytesReceived x p.trace
  fits : (p.sock x).off + (p.sock x).len ≤ (p.sock x).max
  once : p.trace.count (.shutdownSend x.peer) ≤ 1
  stop : ∀ pre post, p.trace = pre ++ .shutdownSend x.peer :: post →
    .recvEnd x ∈ pre ∧ (bytesAccepted x.peer pre = bytesReceived x pre ∨ .sendErr x.peer ∈ pre)
  errRead : (p.sock x).errRead = true ↔ .recvEnd x ∈ p.trace
  errWrite : (p.sock x.peer).errWrite = true ↔ .sendErr x.peer ∈ p.trace
  read : (p.sock x).selectRead = true ↔
    (p.sock x).off + (p.sock x).len < (p.sock x).max ∧ (p.sock x).errRead = false
  write : (p.sock x.peer).selectWrite = true ↔
    0 < (p.sock x).len ∧ (p.sock x.peer).errWrite = false
  readReg : fdselectFunc p.fdselect (p.sock x).sock fdselectREAD
    = if (p.sock x).selectRead then some (.sockRead x) else none
  writeReg : fdselectFunc p.fdselect (p.sock x.peer).sock fdselectWRITE
    = if (p.sock x.peer).selectWrite then some (.sockWrite x.peer) else none

/-- What holds of a pipe between two handlers. -/
structure FdselectPipe.Good (p : FdselectPipe) : Prop where
  ok : p.Ok
  chan : ∀ x, (p.chan x).Good x ∧ (p.chan x).Synced

/-- The channel of a good pipe, read back on the pipe. -/
theorem FdselectPipe.Good.lossless {p : FdselectPipe} (h : p.Good) (x : Side) : p.Lossless x := by
  obtain ⟨⟨hinv, hreg⟩, hsync⟩ := h.chan x
  have hread : (p.sock x).selectRead = true ↔
      (p.sock x).off + (p.sock x).len < (p.sock x).max ∧ (p.sock x).errRead = false :=
    hsync.read.trans (and_congr_left' decide_eq_true_iff)
  refine
    { stream := ?_
      fits := hinv.fits
      once := ?_
      stop := ?_
      errRead := hinv.errRead.trans mem_chan_recvEnd
      errWrite := hinv.errWrite.trans mem_chan_sendErr
      read := hread
      write := hsync.write
      readReg := ?_
      writeReg := hreg.write }
  · -- the trace of the channel is what the trace of the pipe has of it
    have hstream := hinv.stream
    rw [show (p.chan x).trace = p.trace.filterMap (·.toChan x) from rfl, bytesReceived_chan,
      bytesAccepted_chan] at hstream
    exact hstream.symm
  · have honce := hinv.once
    rw [show (p.chan x).trace = p.trace.filterMap (·.toChan x) from rfl,
      count_chan_shutdown] at honce
    exact honce
  · intro pre post hsplit
    have hchan : (p.chan x).trace
        = pre.filterMap (·.toChan x) ++ .shutdown :: post.filterMap (·.toChan x) := by
      show p.trace.filterMap (·.toChan x) = _
      rw [hsplit, List.filterMap_append, List.filterMap_cons_some (toChan_eq_shutdown.mpr rfl)]
    obtain ⟨hend, hsent⟩ := hinv.stop _ _ hchan
    rw [bytesReceived_chan, bytesAccepted_chan] at hsent
    exact ⟨mem_chan_recvEnd.mp hend, hsent.imp Eq.symm mem_chan_sendErr.mp⟩
  · -- a socket that failed has its flag down
    have hreadReg : fdselectFunc p.fdselect (p.sock x).sock fdselectREAD
        = if (p.sock x).selectRead = true ∧ ¬ (p.sock x).errRead = true then some (.sockRead x)
          else none := hreg.read
    rw [hreadReg]
    refine if_congr ⟨And.left, fun hf => ⟨hf, ?_⟩⟩ rfl rfl
    simpa using (hread.mp hf).2

/-- The step lemma: a handler leaves a good pipe behind. -/
theorem good_handle {p : FdselectPipe} (h : p.Good) (e : PipeEvent) :
    (e.handle (fun _ => true) p).Good := by
  have hreg : ∀ z, (p.chan z).RegOk := fun z => (h.chan z).1.2.regOk
  -- A step of one channel keeps the other.
  have hacts : ∀ x p' c, Acts x p p' c → c.Good x ∧ c.Synced → p'.Good := by
    intro x p' c hacts hc
    refine ⟨hacts.ok, fun z => ?_⟩
    rcases Side.eq_or_eq_peer x z with rfl | rfl
    · rw [hacts.here]; exact hc
    · rw [hacts.other]; exact h.chan _
  cases e with
  | read x recvs sends =>
      exact hacts x _ _ (acts_sockRead h.ok hreg x recvs sends)
        (Chan.read_step (h.chan x).1 recvs sends)
  | write y sends =>
      have hwrite := acts_sockWrite h.ok hreg y.peer sends
      rw [Side.peer_peer] at hwrite
      exact hacts y.peer _ _ hwrite
        (Chan.write_step (h.chan y.peer).1 (h.chan y.peer).2 sends)

/-- A new channel is good. -/
theorem good_newChan {buf : Int → UInt8} {max : Int} (hmax : 0 < max) (x : Side) :
    ({ newChan buf max with selectRead := true, readFunc := some (.sockRead x) } : Chan).Good x ∧
      ({ newChan buf max with selectRead := true, readFunc := some (.sockRead x) } : Chan).Synced := by
  refine ⟨⟨?_, ?_⟩, ?_⟩
  · refine ⟨by simp [newChan], by simp [newChan], by simpa [newChan] using Int.le_of_lt hmax,
      rfl,
      by simp [newChan], by simp [newChan], by simp [newChan], by simp [newChan], ?_⟩
    intro pre post hsplit
    exact absurd hsplit (by simp [newChan])
  · exact ⟨by simp [newChan], by simp [newChan]⟩
  · exact ⟨by simpa [newChan, Chan.room] using hmax, by simp [newChan]⟩

/-- A pipe is a pair of lossless FIFO channels, after any run of events. -/
theorem fdselect_pipe_lossless (sel : Fdselect PipeFunc) (hwf : sel.Wf) (callback : Bool)
    (sock0 sock1 : Int) (hne : sock0 ≠ sock1) (h0 : sel.entry sock0 = none)
    (h1 : sel.entry sock1 = none) (buf0 buf1 : Int → UInt8) (max0 max1 : Int) (hmax0 : 0 < max0)
    (hmax1 : 0 < max1) (events : List PipeEvent) (x : Side) :
    (run (PipeEvent.handle fun _ => true)
      (fdselectPipeInit (fun _ => true) sel callback sock0 buf0 max0 sock1 buf1 max1)
      events).Lossless x := by
  have hinit : (fdselectPipeInit (fun _ => true) sel callback sock0 buf0 max0 sock1 buf1
      max1).Good := by
    obtain ⟨p, hp, hok, hchan⟩ := fdselectPipeInit_spec (fun _ => true) hwf callback hne h0 h1
      buf0 buf1 max0 max1
    rw [hp]
    rcases hchan with ⟨hzero, hone⟩ | ⟨⟨n, hfail⟩, -⟩
    · refine ⟨hok, fun z => ?_⟩
      cases z with
      | zero => rw [hzero]; exact good_newChan hmax0 .zero
      | one => rw [hone]; exact good_newChan hmax1 .one
    · exact absurd hfail (by simp)
  have hrun : (run (PipeEvent.handle fun _ => true)
      (fdselectPipeInit (fun _ => true) sel callback sock0 buf0 max0 sock1 buf1 max1)
      events).Good := run_inv (I := FdselectPipe.Good) (fun _ e h => good_handle h e) hinit events
  exact hrun.lossless x

/-- Bytes go from the first socket to the second, which then is shut down for sending. -/
theorem fdselect_pipe_lossless_echo :
    (run (PipeEvent.handle fun _ => true)
      (fdselectPipeInit (fun _ => true) fdselectInit true 3 (fun _ => 0) 4 5 (fun _ => 0) 4)
      [.read .zero [.bytes [1, 2, 3], .wouldblock] [.accept 1, .wouldblock],
        .read .zero [.bytes [4, 5], .bytes []] [], .write .one [.accept 9]]).Lossless .zero :=
  fdselect_pipe_lossless fdselectInit wf_fdselectInit true 3 5 (by decide) rfl rfl _ _ 4 4
    (by decide) (by decide) _ .zero

end Bklib
