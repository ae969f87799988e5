import Bklib.Proofs.FdselectPipe

/-!
# `Bklib.Proofs.PipeClose`: when a pipe reports closing at most once

The closed callback is the last thing that may happen to a pipe: the callback frees it. `closeStep`
watches the effects for this, and `ClosedOnce` says it in words.

The read handler runs the write handler in its middle, and both end by calling
`fdselect_pipe_closed_callback`. So a read that ends the pipe in the nested write handler reports
twice, and touches the pipe in between. `PipeEvent.CloseOk` is the condition, on the state and on the
results of the system calls, under which an event does not do that.
-/

set_option autoImplicit false

namespace Bklib

open Bklib.Lib

/-- The closed callback comes at most once, and no handler touches the pipe after it. -/
def ClosedOnce (trace : List PipeEffect) : Prop :=
  ∀ pre post, trace = pre ++ .closedCallback :: post →
    .closedCallback ∉ post ∧ .touch ∉ post

/-- What the effects so far amount to: the pipe is in use, was reported closed, or was used or
reported closed again after that. -/
inductive CloseStatus where
  | inUse
  | closed
  | bad
  deriving DecidableEq

def closeStep : CloseStatus → PipeEffect → CloseStatus
  | .inUse,  .closedCallback => .closed
  | .closed, .closedCallback => .bad
  | .closed, .touch          => .bad
  | s,       _               => s

theorem closeStep_bad (es : List PipeEffect) : es.foldl closeStep .bad = .bad := by
  induction es with
  | nil => rfl
  | cons e es ih => cases e <;> exact ih

/-- Behind the callback for the end there is no second one, and nothing is touched. -/
theorem closeStep_closed (es : List PipeEffect) :
    es.foldl closeStep .closed ≠ .bad ↔ .closedCallback ∉ es ∧ .touch ∉ es := by
  induction es with
  | nil => simp
  | cons e es ih =>
      rw [List.foldl_cons]
      cases e
      case closedCallback => simp [closeStep, closeStep_bad]
      case touch => simp [closeStep, closeStep_bad]
      all_goals simpa [closeStep] using ih

/-- The watcher says what `ClosedOnce` says. -/
theorem closedOnce_iff (trace : List PipeEffect) :
    ClosedOnce trace ↔ trace.foldl closeStep .inUse ≠ .bad := by
  induction trace with
  | nil => exact ⟨fun _ => by simp, fun _ pre post h => absurd h (by simp)⟩
  | cons e es ih =>
      have hcons : ∀ pre post, e :: es = pre ++ PipeEffect.closedCallback :: post ↔
          (pre = [] ∧ e = .closedCallback ∧ es = post) ∨
            ∃ pre', pre = e :: pre' ∧ es = pre' ++ .closedCallback :: post := by
        intro pre post
        cases pre with
        | nil => simp
        | cons a pre' => simp [and_assoc, eq_comm]
      by_cases he : e = .closedCallback
      · subst he
        rw [List.foldl_cons, closeStep, closeStep_closed]
        constructor
        · intro h; exact h [] es rfl
        · rintro ⟨hclosed, htouch⟩ pre post hsplit
          rcases (hcons pre post).mp hsplit with ⟨-, -, rfl⟩ | ⟨pre', -, rfl⟩
          · exact ⟨hclosed, htouch⟩
          · exact absurd (by simp) hclosed
      · have hstep : closeStep .inUse e = .inUse := by cases e <;> first | rfl | exact absurd rfl he
        rw [List.foldl_cons, hstep, ← ih]
        constructor
        · intro h pre post hsplit
          exact h (e :: pre) post (by rw [hsplit]; rfl)
        · intro h pre post hsplit
          rcases (hcons pre post).mp hsplit with ⟨-, he', -⟩ | ⟨pre', -, hes⟩
          · exact absurd he' he
          · exact h pre' post hes

namespace FdselectPipe

def status (p : FdselectPipe) : CloseStatus := p.trace.foldl closeStep .inUse

theorem status_emit (p : FdselectPipe) (e : PipeEffect) :
    (p.emit e).status = closeStep p.status e := by
  simp [status, emit]

/-- A piece of a handler that neither touches the pipe after a call of the closed callback nor calls
it. -/
structure Quiet (p p' : FdselectPipe) : Prop where
  status : p'.status = p.status
  callback : p'.callback = p.callback

theorem Quiet.refl (p : FdselectPipe) : Quiet p p := ⟨rfl, rfl⟩

theorem Quiet.trans {p p' p'' : FdselectPipe} (h : Quiet p p') (h' : Quiet p' p'') :
    Quiet p p'' := ⟨h'.status.trans h.status, h'.callback.trans h.callback⟩

/-- Effects other than these two do not matter to the watcher. -/
theorem quiet_emit (p : FdselectPipe) {e : PipeEffect}
    (he : e ≠ .closedCallback ∧ e ≠ .touch) : Quiet p (p.emit e) := by
  refine ⟨?_, rfl⟩
  rw [status_emit]
  cases p.status <;> cases e <;> first | rfl | exact absurd rfl he.1 | exact absurd rfl he.2

theorem quiet_setSock (p : FdselectPipe) (x : Side) (s : FdselectPipeSock) :
    Quiet p (p.setSock x s) := ⟨rfl, rfl⟩

theorem quiet_pipeSelect (allocOk : Nat → Bool) (p : FdselectPipe) (x : Side) (events : FdEvents)
    (func : PipeFunc) : Quiet p (pipeSelect allocOk p x events func).1 := ⟨rfl, rfl⟩

theorem quiet_pipeUnselect (allocOk : Nat → Bool) (p : FdselectPipe) (x : Side)
    (events : FdEvents) : Quiet p (pipeUnselect allocOk p x events).1 := ⟨rfl, rfl⟩

section
variable (allocOk : Nat → Bool) (p : FdselectPipe) (x : Side)

theorem quiet_unsetRead : Quiet p (pipeUnsetRead allocOk x p) := by
  unfold pipeUnsetRead
  split
  · exact (quiet_pipeUnselect allocOk p x _).trans (quiet_setSock _ _ _)
  · exact Quiet.refl p

theorem quiet_unsetWrite : Quiet p (pipeUnsetWrite allocOk x p) := by
  unfold pipeUnsetWrite
  split
  · exact (quiet_pipeUnselect allocOk p x _).trans (quiet_setSock _ _ _)
  · exact Quiet.refl p

theorem quiet_sendErr : Quiet p (pipeSendErr allocOk x p) :=
  (quiet_emit p (by simp)).trans ((quiet_setSock _ _ _).trans
    ((quiet_emit _ (by simp)).trans (quiet_unsetRead allocOk _ _)))

theorem quiet_writeCallback (len : Int) : Quiet p (pipeWriteCallback x len p) := by
  unfold pipeWriteCallback
  split
  · exact quiet_emit p (by simp)
  · exact Quiet.refl p

/-- Sending does not end the pipe. The induction is on the results of `send`. -/
theorem quiet_sendLoop (sends : List SendResult) :
    ∀ p : FdselectPipe, Quiet p (pipeSendLoop allocOk x sends p) := by
  induction sends with
  | nil => intro p; exact Quiet.refl p
  | cons r sends ih =>
      intro p
      have herr : ∀ len, Quiet p (pipeSendErr allocOk x (pipeWriteCallback x len p)) := fun len =>
        (quiet_writeCallback p x len).trans (quiet_sendErr allocOk _ x)
      unfold pipeSendLoop
      split
      · exact Quiet.refl p
      · cases r with
        | wouldblock => exact Quiet.refl p
        | error => exact herr (-1)
        | accept n =>
            dsimp only
            split
            · exact herr 0
            · exact ((quiet_emit p (by simp)).trans ((quiet_writeCallback _ x _).trans
                (quiet_setSock _ _ _))).trans (ih _)

/-- The read callback is quiet. -/
theorem quiet_selectRead : Quiet p (pipeSelectRead allocOk x p).1 := by
  unfold pipeSelectRead
  split
  · exact Quiet.refl p
  · dsimp only
    split
    · exact quiet_pipeSelect allocOk p x _ _
    · exact (quiet_pipeSelect allocOk p x _ _).trans (quiet_setSock _ _ _)

/-- The write callback is quiet. -/
theorem quiet_selectWrite : Quiet p (pipeSelectWrite allocOk x p).1 := by
  unfold pipeSelectWrite
  split
  · exact Quiet.refl p
  · dsimp only
    split
    · exact quiet_pipeSelect allocOk p x _ _
    · exact (quiet_pipeSelect allocOk p x _ _).trans (quiet_setSock _ _ _)

theorem quiet_stop : Quiet p (pipeStop x p) := by
  unfold pipeStop
  split
  · exact (quiet_setSock p _ _).trans (quiet_emit _ (by simp))
  · exact Quiet.refl p

/-- Neither does registering. -/
theorem quiet_writeFlags : Quiet p (pipeWriteFlags allocOk x p).1 := by
  have hfirst : Quiet p (if p.room x.peer ∧ ¬ (p.sock x.peer).errRead then
      pipeSelectRead allocOk x.peer p else (p, true)).1 := by
    split
    · exact quiet_selectRead allocOk p _
    · exact Quiet.refl p
  unfold pipeWriteFlags
  dsimp only
  generalize (if p.room x.peer ∧ ¬ (p.sock x.peer).errRead then
    pipeSelectRead allocOk x.peer p else (p, true)) = r at hfirst
  split
  · exact hfirst
  · split
    · exact hfirst.trans (quiet_selectWrite allocOk _ _)
    · exact hfirst.trans ((quiet_stop _ _).trans (quiet_unsetWrite allocOk _ _))

theorem quiet_readFlags : Quiet p (pipeReadFlags allocOk x p).1 := by
  unfold pipeReadFlags
  split
  · exact quiet_selectRead allocOk p x
  · exact quiet_unsetRead allocOk p x

theorem quiet_recvErr : Quiet p (pipeRecvErr allocOk x p) :=
  (quiet_emit p (by simp)).trans ((quiet_setSock _ _ _).trans
    ((quiet_emit _ (by simp)).trans (quiet_pipeUnselect allocOk _ _ _)))

/-- Receiving is quiet. -/
theorem quiet_received (bytes : List UInt8) : Quiet p (pipeReceived x bytes p) := by
  unfold pipeReceived
  dsimp only
  split
  · exact (quiet_emit p (by simp)).trans ((quiet_setSock _ _ _).trans (quiet_emit _ (by simp)))
  · exact (quiet_emit p (by simp)).trans (quiet_setSock _ _ _)

/-- Nor does receiving. -/
theorem quiet_recvLoop (recvs : List RecvResult) :
    ∀ p : FdselectPipe, Quiet p (pipeRecvLoop allocOk x recvs p) := by
  induction recvs with
  | nil => intro p; exact Quiet.refl p
  | cons r recvs ih =>
      intro p
      unfold pipeRecvLoop
      dsimp only
      split
      · exact Quiet.refl p
      · cases r with
        | wouldblock => exact Quiet.refl p
        | error => exact quiet_recvErr allocOk p x
        | bytes bs =>
            dsimp only
            split
            · exact quiet_recvErr allocOk p x
            · exact (quiet_received p x _).trans (ih _)

end

end FdselectPipe

/-! ### The results of the system calls -/

/-- What the results of `recv` come to with `room` bytes of room: how many bytes come in, and whether
reading stops for want of room, at the end of the file or on an error. -/
def recvOutcome (room : Int) : List RecvResult → Int × Bool
  | []      => (0, decide (room ≤ 0))
  | r :: rs =>
      if room ≤ 0 then (0, true)
      else match r with
        | .wouldblock => (0, false)
        | .error      => (0, true)
        | .bytes bs   =>
            let n := (bs.take room.toNat).length
            if n = 0 then (0, true)
            else (n + (recvOutcome (room - n) rs).1, (recvOutcome (room - n) rs).2)

/-- Whether the results of `send` fail before `len` bytes are sent. -/
def sendFails (len : Int) : List SendResult → Bool
  | []      => false
  | r :: rs =>
      if len ≤ 0 then false
      else match r with
        | .wouldblock => false
        | .error      => true
        | .accept n   =>
            if min n len.toNat = 0 then true else sendFails (len - (min n len.toNat : Nat)) rs

namespace Chan

/-- The receive loop, by what the results come to. -/
theorem recvLoop_outcome (recvs : List RecvResult) :
    ∀ c : Chan, c.errRead = false →
      (c.recvLoop recvs).len = c.len + (recvOutcome (c.max - (c.off + c.len)) recvs).1 ∧
        (c.recvLoop recvs).selectRead = c.selectRead ∧
        ((c.recvLoop recvs).room = true ∧ (c.recvLoop recvs).errRead = false ↔
          (recvOutcome (c.max - (c.off + c.len)) recvs).2 = false) := by
  induction recvs with
  | nil =>
      intro c herr
      have hroom : c.room = true ↔ ¬ c.max - (c.off + c.len) ≤ 0 := by
        unfold room
        rw [decide_eq_true_iff]
        omega
      refine ⟨by simp [recvLoop, recvOutcome], rfl, ?_⟩
      simp only [recvLoop, recvOutcome, hroom, herr, and_true, decide_eq_false_iff_not]
  | cons r recvs ih =>
      intro c herr
      -- an error and the end of the stream leave the channel alike
      have hend : c.recvErr.len = c.len + 0 ∧ c.recvErr.selectRead = c.selectRead ∧
          (c.recvErr.room = true ∧ c.recvErr.errRead = false ↔ true = false) := by
        refine ⟨(add_zero c.len).symm, rfl, ?_⟩
        simp [recvErr]
      unfold recvLoop recvOutcome
      by_cases hfull : c.max - (c.off + c.len) ≤ 0
      · have hroom : ¬ c.room = true := by
          unfold room
          rw [decide_eq_true_iff]
          omega
        rw [if_pos hfull, if_pos hfull]
        exact ⟨(add_zero c.len).symm, rfl, by simp [hroom]⟩
      · have hroom : c.room = true := by
          unfold room
          rw [decide_eq_true_iff]
          omega
        rw [if_neg hfull, if_neg hfull]
        cases r with
        | wouldblock => exact ⟨(add_zero c.len).symm, rfl, by simp [hroom, herr]⟩
        | error => exact hend
        | bytes bs =>
            dsimp only
            by_cases hnil : bs.take (c.max - (c.off + c.len)).toNat = []
            · rw [if_pos hnil, if_pos (by rw [hnil]; rfl)]
              exact hend
            · rw [if_neg hnil, if_neg (fun h => hnil (List.length_eq_zero_iff.mp h))]
              generalize bs.take (c.max - (c.off + c.len)).toNat = got
              obtain ⟨hlen, hselect, hend⟩ := ih (c.received got) herr
              -- what was received takes that much of the room
              have hleft : (c.received got).max - ((c.received got).off + (c.received got).len)
                  = c.max - (c.off + c.len) - got.length := by
                show c.max - (c.off + (c.len + (got.length : Int))) = _
                omega
              rw [hleft] at hlen hend
              refine ⟨?_, hselect, hend⟩
              rw [hlen]
              show c.len + (got.length : Int) + _ = _
              omega

/-- The send loop, by whether the results fail: a failure leaves the room as it was, since bytes wait
then. -/
theorem sendLoop_outcome (sends : List SendResult) :
    ∀ c : Chan,
      (sendFails c.len sends = true → (c.sendLoop sends).errWrite = true ∧
        (c.sendLoop sends).selectRead = false ∧ (c.sendLoop sends).room = c.room ∧
        (c.sendLoop sends).errRead = c.errRead) ∧
      (sendFails c.len sends = false → (c.sendLoop sends).selectRead = c.selectRead) := by
  induction sends with
  | nil => intro c; exact ⟨fun h => absurd h (by simp [sendFails]), fun _ => rfl⟩
  | cons r sends ih =>
      intro c
      have herr : c.sendErr.errWrite = true ∧ c.sendErr.selectRead = false ∧
          c.sendErr.room = c.room ∧ c.sendErr.errRead = c.errRead := by
        unfold sendErr unsetRead
        split
        · exact ⟨rfl, rfl, rfl, rfl⟩
        · exact ⟨rfl, by simp_all, rfl, rfl⟩
      unfold sendLoop sendFails
      by_cases hlen : c.len ≤ 0
      · rw [if_pos hlen, if_pos hlen]
        exact ⟨fun h => absurd h (by simp), fun _ => rfl⟩
      · rw [if_neg hlen, if_neg hlen]
        cases r with
        | wouldblock => exact ⟨fun h => absurd h (by simp), fun _ => rfl⟩
        | error => exact ⟨fun _ => herr, fun h => absurd h (by simp)⟩
        | accept n =>
            dsimp only
            by_cases h0 : min n c.len.toNat = 0
            · rw [if_pos h0, if_pos h0]
              exact ⟨fun _ => herr, fun h => absurd h (by simp)⟩
            · rw [if_neg h0, if_neg h0]
              generalize min n c.len.toNat = k
              obtain ⟨hfail, hok⟩ := ih (c.sent k)
              refine ⟨fun h => ?_, hok⟩
              obtain ⟨hw, hr, hroom, herr'⟩ := hfail h
              refine ⟨hw, hr, hroom.trans ?_, herr'⟩
              -- A failure with an empty buffer does not happen, so nothing was reset.
              have hleft : ¬ c.len - (k : Int) = 0 := by
                intro hz
                rw [hz] at h
                cases sends <;> simp [sendFails] at h
              unfold room
              show decide ((if c.len - (k : Int) = 0 then 0 else c.off + k) + (c.len - (k : Int))
                < c.max) = _
              rw [if_neg hleft, show c.off + (k : Int) + (c.len - k) = c.off + c.len by omega]

end Chan

/-- Both interest flags of the channel are off. -/
def Chan.Off (c : Chan) : Prop := c.selectRead = false ∧ c.selectWrite = false

/-- Where reading stops and sending fails, no flag is to be set after the send loop. -/
theorem Chan.noneToSet {recvs : List RecvResult} {sends : List SendResult} {c : Chan}
    (herr : c.errRead = false)
    (hstop : (recvOutcome (c.max - (c.off + c.len)) recvs).2 = true)
    (hfails : sendFails (c.len + (recvOutcome (c.max - (c.off + c.len)) recvs).1) sends = true) :
    (sendLoop sends (c.recvLoop recvs)).selectRead = false ∧
      ¬ ((sendLoop sends (c.recvLoop recvs)).room = true ∧
        (sendLoop sends (c.recvLoop recvs)).errRead = false) ∧
      (sendLoop sends (c.recvLoop recvs)).errWrite = true := by
  obtain ⟨hlen, -, hend⟩ := Chan.recvLoop_outcome recvs c herr
  obtain ⟨hfail, -⟩ := Chan.sendLoop_outcome sends (c.recvLoop recvs)
  obtain ⟨hw, hr, hroom, herr'⟩ := hfail (by rw [hlen]; exact hfails)
  refine ⟨hr, ?_, hw⟩
  rw [hroom, herr', hend, hstop]
  simp

/-- The write step in the middle of a read step, on a channel that was reading: it turns both flags
off exactly when reading stopped and sending fails. -/
theorem Chan.off_write_iff (x : Side) (recvs : List RecvResult) (sends : List SendResult)
    {c : Chan} (hread : c.selectRead = true) (herr : c.errRead = false) :
    ((c.recvLoop recvs).write x sends).Off ↔
      (recvOutcome (c.max - (c.off + c.len)) recvs).2 = true ∧
        sendFails (c.len + (recvOutcome (c.max - (c.off + c.len)) recvs).1) sends = true := by
  have hflags : ∀ d : Chan, (d.write x sends).Off ↔ (d.sendLoop sends).selectRead = false ∧
      ¬ ((d.sendLoop sends).room = true ∧ (d.sendLoop sends).errRead = false) ∧
      ¬ (0 < (d.sendLoop sends).len ∧ (d.sendLoop sends).errWrite = false) := by
    intro d
    unfold Chan.Off Chan.write
    rw [← Bool.not_eq_true, ← Bool.not_eq_true, Chan.writeFlags_selectRead,
      Chan.writeFlags_selectWrite, not_or, Bool.not_eq_true, and_assoc]
  rw [hflags]
  constructor
  · rintro ⟨hselect, hstop, -⟩
    obtain ⟨hlen, hselect', hend⟩ := Chan.recvLoop_outcome recvs c herr
    obtain ⟨hfail, hok⟩ := Chan.sendLoop_outcome sends (c.recvLoop recvs)
    -- Without a failure the read flag would still be set.
    have hfails : sendFails (c.recvLoop recvs).len sends = true := by
      by_contra hnot
      rw [hok (by simpa using hnot), hselect', hread] at hselect
      exact absurd hselect (by decide)
    obtain ⟨-, -, hroom, herr'⟩ := hfail hfails
    rw [hroom, herr', hend] at hstop
    rw [hlen] at hfails
    exact ⟨by simpa using hstop, hfails⟩
  · rintro ⟨hstop, hfails⟩
    obtain ⟨hselect, hnone, hw⟩ := Chan.noneToSet herr hstop hfails
    exact ⟨hselect, hnone, fun h => absurd h.2 (by simp [hw])⟩

namespace FdselectPipe

/-- What holds of a pipe between two handlers, also when there was no memory for a registration. -/
structure Sound (p : FdselectPipe) : Prop where
  ok : p.Ok
  reg : ∀ z, (p.chan z).RegOk
  callback : p.callback = true

/-- A pipe is closed exactly when both channels are off. -/
theorem closed_iff (p : FdselectPipe) (x : Side) :
    fdselectPipeClosed p = true ↔ (p.chan x).Off ∧ (p.chan x.peer).Off := by
  have hside : ∀ z, (p.chan z).Off ↔ (p.sock z).selectRead = false ∧
      (p.sock z.peer).selectWrite = false := fun z => Iff.rfl
  rw [hside, hside, Side.peer_peer]
  unfold fdselectPipeClosed
  cases x <;> simp only [Side.peer, Bool.not_eq_true', Bool.or_eq_false_iff] <;> tauto

/-- A step of one channel leaves a sound pipe when its channel is sound. -/
theorem Sound.acts {p p' : FdselectPipe} {x : Side} {c : Chan} (h : p.Sound)
    (hacts : Acts x p p' c) (hc : c.RegOk) (hcall : p'.callback = p.callback) : p'.Sound := by
  refine ⟨hacts.ok, fun z => ?_, hcall.trans h.callback⟩
  rcases Side.eq_or_eq_peer x z with rfl | rfl
  · rw [hacts.here]; exact hc
  · rw [hacts.other]; exact h.reg _

section
variable (allocOk : Nat → Bool) {p : FdselectPipe}

/-- The end of a handler: the pipe is used once more, and reported closed when its flags are off. -/
theorem closedCallback_spec (h : p.Sound) (x : Side) :
    (fdselectPipeClosedCallback allocOk p).Sound ∧
      Acts x p (fdselectPipeClosedCallback allocOk p) (p.chan x) ∧
      (fdselectPipeClosedCallback allocOk p).status
        = if fdselectPipeClosed p then closeStep (closeStep p.status .touch) .closedCallback
          else closeStep p.status .touch := by
  have hacts := acts_closedCallback allocOk h.ok x h.reg
  have hcall : (fdselectPipeClosedCallback allocOk p).callback = p.callback ∧
      (fdselectPipeClosedCallback allocOk p).status
        = if fdselectPipeClosed p then closeStep (closeStep p.status .touch) .closedCallback
          else closeStep p.status .touch := by
    have hc : (p.emit .touch).callback = true := h.callback
    have hclosed : fdselectPipeClosed (p.emit .touch) = fdselectPipeClosed p := rfl
    unfold fdselectPipeClosedCallback
    dsimp only
    rw [hclosed]
    split
    · rw [status_emit, status_emit]
      exact ⟨rfl, rfl⟩
    · rw [status_emit]
      exact ⟨rfl, rfl⟩
  exact ⟨h.acts hacts (h.reg x) hcall.1, hacts, hcall.2⟩

theorem handlerEnd_ok (p : FdselectPipe) :
    pipeHandlerEnd allocOk (p, true) = fdselectPipeClosedCallback allocOk p := rfl

/-- The write handler stops for want of memory, with a flag to be set, or it runs to its end. -/
theorem sockWrite_spec (h : p.Sound) (x : Side) (sends : List SendResult) :
    (fdselectPipeSockWrite allocOk x.peer sends p).Sound ∧
      (fdselectPipeSockWrite allocOk x.peer sends p).chan x.peer = p.chan x.peer ∧
      ((((p.chan x).sendLoop sends).room = true ∧ ((p.chan x).sendLoop sends).errRead = false ∨
            ((p.chan x).sendLoop sends).errWrite = false) ∧
          (fdselectPipeSockWrite allocOk x.peer sends p).status = closeStep p.status .touch ∨
        (fdselectPipeSockWrite allocOk x.peer sends p).chan x = (p.chan x).write x sends ∧
          (fdselectPipeSockWrite allocOk x.peer sends p).status
            = if fdselectPipeClosed (fdselectPipeSockWrite allocOk x.peer sends p) then
                closeStep (closeStep (closeStep p.status .touch) .touch) .closedCallback
              else closeStep (closeStep p.status .touch) .touch) := by
  have htouch : Acts x p (p.emit .touch) (p.chan x) := acts_emit h.ok fun _ => rfl
  have hsend := acts_sendLoop allocOk x sends htouch.ok
  have hquiet := quiet_sendLoop allocOk x.peer sends (p.emit .touch)
  rw [htouch.here] at hsend
  have hsend' := htouch.trans hsend
  have hsound : (pipeSendLoop allocOk x.peer sends (p.emit .touch)).Sound :=
    h.acts hsend' ((h.reg x).sendLoop sends) hquiet.callback
  have hstatus : (pipeSendLoop allocOk x.peer sends (p.emit .touch)).status
      = closeStep p.status .touch := by rw [hquiet.status, status_emit]
  have hdef : fdselectPipeSockWrite allocOk x.peer sends p
      = pipeHandlerEnd allocOk
          (pipeWriteFlags allocOk x.peer (pipeSendLoop allocOk x.peer sends (p.emit .touch))) := rfl
  generalize pipeSendLoop allocOk x.peer sends (p.emit .touch) = q at *
  have hquiet' := quiet_writeFlags allocOk q x.peer
  obtain ⟨u, ok, hu, hcases⟩ := acts_writeFlags allocOk hsound.ok x (hsound.reg x)
  rw [hu] at hdef hquiet'
  rw [hsend'.here] at hcases
  -- with memory the handler goes on to the closed callback; without, it leaves after one touch
  rcases hcases with ⟨rfl, hflags⟩ | ⟨rfl, -, hset, c, hc, hflags⟩
  · have husound : u.Sound :=
      hsound.acts hflags (((h.reg x).sendLoop sends).writeFlags x) hquiet'.callback
    obtain ⟨hend, hacts, hst⟩ := closedCallback_spec allocOk husound x
    have hall := hsend'.trans (hflags.trans hacts)
    rw [hdef, handlerEnd_ok]
    refine ⟨hend, hall.other, Or.inr ⟨hall.here.trans hflags.here, ?_⟩⟩
    -- whether the pipe is closed does not depend on the callback
    have hclosed : fdselectPipeClosed (fdselectPipeClosedCallback allocOk u)
        = fdselectPipeClosed u := by
      rw [Bool.eq_iff_iff, closed_iff _ x, closed_iff _ x, hacts.here, hacts.other]
    rw [hclosed, hst, hquiet'.status, hstatus]
  · rw [hdef]
    exact ⟨hsound.acts hflags hc hquiet'.callback, (hsend'.trans hflags).other,
      Or.inl ⟨hset, hquiet'.status.trans hstatus⟩⟩

/-- The receive loop of the read handler, from its start. -/
theorem recvLoop_spec (h : p.Sound) (x : Side) (recvs : List RecvResult) :
    (pipeRecvLoop allocOk x recvs (p.emit .touch)).Sound ∧
      (pipeRecvLoop allocOk x recvs (p.emit .touch)).status = closeStep p.status .touch ∧
      (pipeRecvLoop allocOk x recvs (p.emit .touch)).chan x = (p.chan x).recvLoop recvs ∧
      (pipeRecvLoop allocOk x recvs (p.emit .touch)).chan x.peer = p.chan x.peer := by
  have htouch : Acts x p (p.emit .touch) (p.chan x) := acts_emit h.ok fun _ => rfl
  have hrecv := acts_recvLoop allocOk x recvs htouch.ok
  have hquiet := quiet_recvLoop allocOk x recvs (p.emit .touch)
  rw [htouch.here] at hrecv
  have hall := htouch.trans hrecv
  exact ⟨h.acts hall ((h.reg x).recvLoop recvs) hquiet.callback,
    by rw [hquiet.status, status_emit], hall.here, hall.other⟩

/-- The part of the read handler behind the nested write handler. -/
def readEnd (x : Side) (p : FdselectPipe) : FdselectPipe :=
  pipeHandlerEnd allocOk (pipeReadFlags allocOk x (p.emit .touch))

theorem sockRead_eq (x : Side) (recvs : List RecvResult) (sends : List SendResult)
    (p : FdselectPipe) :
    fdselectPipeSockRead allocOk x recvs sends p = readEnd allocOk x
      (fdselectPipeSockWrite allocOk x.peer sends
        (pipeRecvLoop allocOk x recvs (p.emit .touch))) := rfl

/-- The end of the read handler closes the pipe at most once, and not before the last touch. -/
theorem readEnd_spec (h : p.Sound) (x : Side) :
    (readEnd allocOk x p).Sound ∧
      ((readEnd allocOk x p).status = closeStep p.status .touch ∨
        (readEnd allocOk x p).status
          = if fdselectPipeClosed (readEnd allocOk x p) then
              closeStep (closeStep (closeStep p.status .touch) .touch) .closedCallback
            else closeStep (closeStep p.status .touch) .touch) := by
  have htouch : Acts x p (p.emit .touch) (p.chan x) := acts_emit h.ok fun _ => rfl
  obtain ⟨u, ok, hu, hcases⟩ := acts_readFlags allocOk htouch.ok x
  have hquiet := quiet_readFlags allocOk (p.emit .touch) x
  have hstatus : (p.emit .touch).status = closeStep p.status .touch := status_emit p .touch
  have hdef : readEnd allocOk x p
      = pipeHandlerEnd allocOk (pipeReadFlags allocOk x (p.emit .touch)) := rfl
  have hsound : (p.emit .touch).Sound := h.acts htouch (h.reg x) rfl
  rw [hu] at hdef hquiet
  rcases hcases with ⟨rfl, hflags⟩ | ⟨rfl, -, hflags⟩
  · have husound : u.Sound := hsound.acts hflags ((hsound.reg x).readFlags x) hquiet.callback
    obtain ⟨hend, hacts, hst⟩ := closedCallback_spec allocOk husound x
    have hclosed : fdselectPipeClosed (fdselectPipeClosedCallback allocOk u)
        = fdselectPipeClosed u := by
      rw [Bool.eq_iff_iff, closed_iff _ x, closed_iff _ x, hacts.here, hacts.other]
    rw [hdef, handlerEnd_ok]
    exact ⟨hend, Or.inr (by rw [hclosed, hst, hquiet.status, hstatus])⟩
  · rw [hdef]
    exact ⟨hsound.acts hflags (hsound.reg x) hquiet.callback,
      Or.inl (hquiet.status.trans hstatus)⟩

end

/-- A pipe that was reported closed at most once: it is in use, or it is closed with all flags off. -/
structure Fine (p : FdselectPipe) : Prop where
  sound : p.Sound
  status : p.status = .inUse ∨ p.status = .closed ∧ fdselectPipeClosed p = true

/-- The end of a handler that found the pipe in use. -/
theorem fine_of_end {p : FdselectPipe} (h : p.Sound)
    (hstatus : p.status = .inUse ∨ p.status = if fdselectPipeClosed p then .closed else .inUse) :
    p.Fine := by
  refine ⟨h, ?_⟩
  rcases hstatus with hs | hs
  · exact Or.inl hs
  · cases hc : fdselectPipeClosed p with
    | true => rw [hc] at hs; exact Or.inr ⟨hs, rfl⟩
    | false => rw [hc] at hs; exact Or.inl hs

end FdselectPipe

/-- A read of `x` that ends the pipe in the nested write handler: nothing is of interest the other
way, reading stops, and sending what waits fails. -/
def CloseTwice (p : FdselectPipe) (x : Side) (recvs : List RecvResult) (sends : List SendResult) :
    Prop :=
  (p.sock x).selectWrite = false ∧ (p.sock x.peer).selectRead = false ∧
    (recvOutcome ((p.sock x).max - ((p.sock x).off + (p.sock x).len)) recvs).2 = true ∧
    sendFails ((p.sock x).len
      + (recvOutcome ((p.sock x).max - ((p.sock x).off + (p.sock x).len)) recvs).1) sends = true

instance (p : FdselectPipe) (x : Side) (recvs : List RecvResult) (sends : List SendResult) :
    Decidable (CloseTwice p x recvs sends) :=
  inferInstanceAs (Decidable (_ ∧ _ ∧ _ ∧ _))

/-- The event does not close the pipe twice. -/
def PipeEvent.CloseOk (p : FdselectPipe) : PipeEvent → Prop
  | .read x recvs sends =>
      fdselectFunc p.fdselect (p.sock x).sock fdselectREAD = some (.sockRead x) →
        ¬ CloseTwice p x recvs sends
  | .write _ _ => True

namespace FdselectPipe

/-- The nested write handler reports the pipe closed exactly when the read closes twice. -/
theorem nested_status (allocOk : Nat → Bool) {p : FdselectPipe} (h : p.Sound)
    (huse : p.status = .inUse) (x : Side) (recvs : List RecvResult) (sends : List SendResult)
    (hread : (p.chan x).selectRead = true) (herr : (p.chan x).errRead = false) :
    (CloseTwice p x recvs sends → (fdselectPipeSockWrite allocOk x.peer sends
        (pipeRecvLoop allocOk x recvs (p.emit .touch))).status = .closed) ∧
      (¬ CloseTwice p x recvs sends → (fdselectPipeSockWrite allocOk x.peer sends
        (pipeRecvLoop allocOk x recvs (p.emit .touch))).status = .inUse) := by
  obtain ⟨hsound, hstatus, hhere, hother⟩ := recvLoop_spec allocOk h x recvs
  have htwice : CloseTwice p x recvs sends ↔
      (p.chan x.peer).Off ∧ (((p.chan x).recvLoop recvs).write x sends).Off := by
    have hpeer : (p.chan x.peer).Off ↔
        (p.sock x.peer).selectRead = false ∧ (p.sock x).selectWrite = false := by
      show (p.sock x.peer).selectRead = false ∧ (p.sock x.peer.peer).selectWrite = false ↔ _
      rw [Side.peer_peer]
    rw [Chan.off_write_iff x recvs sends hread herr, hpeer, and_comm (b := (p.sock x).selectWrite
      = false), and_assoc]
    rfl
  rw [huse] at hstatus
  generalize pipeRecvLoop allocOk x recvs (p.emit .touch) = q at *
  obtain ⟨-, hpeer, hcases⟩ := sockWrite_spec allocOk hsound x sends
  rw [hstatus, hhere] at hcases
  rcases hcases with ⟨hset, hst⟩ | ⟨hchan, hst⟩
  · refine ⟨fun htw => ?_, fun _ => hst⟩
    -- Closing twice needs no flag to be set, so memory cannot run out.
    obtain ⟨-, -, hstop, hfails⟩ := htw
    obtain ⟨-, hnone, hw⟩ := Chan.noneToSet (c := p.chan x) herr hstop hfails
    rcases hset with hset | hset
    · exact absurd hset hnone
    · rw [hw] at hset
      exact absurd hset (by decide)
  · have hclosed := closed_iff (fdselectPipeSockWrite allocOk x.peer sends q) x
    rw [hchan, hpeer, hother, and_comm, ← htwice] at hclosed
    refine ⟨fun htw => ?_, fun htw => ?_⟩
    · rw [hst, if_pos (hclosed.mpr htw)]
      rfl
    · rw [hst, if_neg (fun hc => htw (hclosed.mp hc))]
      rfl

/-- A registered reading is of interest and has not failed. -/
theorem Sound.reading {p : FdselectPipe} (h : p.Sound) {x : Side}
    (hreg : fdselectFunc p.fdselect (p.sock x).sock fdselectREAD = some (.sockRead x)) :
    (p.chan x).selectRead = true ∧ (p.chan x).errRead = false := by
  have hsome : (p.chan x).readFunc ≠ none := by
    show fdselectFunc p.fdselect (p.sock x).sock fdselectREAD ≠ none
    rw [hreg]
    exact Option.some_ne_none _
  constructor
  · by_contra hnot
    exact hsome ((h.reg x).read (Or.inl (by simpa using hnot)))
  · by_contra hnot
    exact hsome ((h.reg x).read (Or.inr (by simpa using hnot)))

/-- An event is delivered only to a pipe in use. -/
theorem Fine.inUse_of_read {p : FdselectPipe} (h : p.Fine) {x : Side}
    (hreg : fdselectFunc p.fdselect (p.sock x).sock fdselectREAD = some (.sockRead x)) :
    p.status = .inUse := by
  refine h.status.resolve_right fun hc => ?_
  have hoff := ((closed_iff p x).mp hc.2).1.1
  rw [(h.sound.reading hreg).1] at hoff
  exact absurd hoff (by decide)

/-- A handler that is registered belongs to a pipe in use. -/
theorem Fine.inUse_of_write {p : FdselectPipe} (h : p.Fine) {y : Side}
    (hreg : fdselectFunc p.fdselect (p.sock y).sock fdselectWRITE = some (.sockWrite y)) :
    p.status = .inUse := by
  refine h.status.resolve_right fun hc => ?_
  have hoff := ((closed_iff p y.peer).mp hc.2).1.2
  have hnone := (h.sound.reg y.peer).write hoff
  unfold chan at hnone
  dsimp only at hnone
  rw [Side.peer_peer, hreg] at hnone
  exact absurd hnone (by simp)

/-- The step lemma: an event that meets the condition leaves a fine pipe, and one that does not
closes the pipe twice. -/
theorem Fine.deliver (allocOk : Nat → Bool) {p : FdselectPipe} (h : p.Fine) (e : PipeEvent) :
    (e.CloseOk p → (e.deliver allocOk p).Fine) ∧
      (¬ e.CloseOk p → (e.deliver allocOk p).status = .bad) := by
  cases e with
  | write y sends =>
      refine ⟨fun _ => ?_, fun hnot => absurd trivial hnot⟩
      unfold PipeEvent.deliver
      dsimp only
      split
      · rename_i hreg
        obtain ⟨hsound, -, hcases⟩ := sockWrite_spec allocOk h.sound y.peer sends
        rw [Side.peer_peer, h.inUse_of_write hreg] at hcases
        rw [Side.peer_peer] at hsound
        refine fine_of_end hsound (hcases.imp And.right fun hc => ?_)
        rw [hc.2]
        rfl
      · exact h
  | read x recvs sends =>
      unfold PipeEvent.deliver PipeEvent.CloseOk
      dsimp only
      split
      · rename_i hreg
        have huse := h.inUse_of_read hreg
        obtain ⟨hread, herr⟩ := h.sound.reading hreg
        obtain ⟨hbad, hgood⟩ := nested_status allocOk h.sound huse x recvs sends hread herr
        obtain ⟨hrecv, -, -, -⟩ := recvLoop_spec allocOk h.sound x recvs
        obtain ⟨hsound, -, -⟩ := sockWrite_spec allocOk hrecv x sends
        rw [sockRead_eq]
        generalize fdselectPipeSockWrite allocOk x.peer sends
          (pipeRecvLoop allocOk x recvs (p.emit .touch)) = q at *
        obtain ⟨hend, hcases⟩ := readEnd_spec allocOk hsound x
        refine ⟨fun hok => ?_, fun hnot => ?_⟩
        · rw [hgood (hok hreg)] at hcases
          refine fine_of_end hend (hcases.imp id fun hc => ?_)
          rw [hc]
          rfl
        · -- The read handler uses the pipe again after the nested one reported it closed.
          have htwice : CloseTwice p x recvs sends := by
            by_contra hne
            exact hnot fun _ => hne
          rw [hbad htwice] at hcases
          rcases hcases with hc | hc
          · exact hc
          · rw [hc]
            split <;> rfl
      · rename_i hreg
        exact ⟨fun _ => h, fun hnot => absurd (fun hr => absurd hr hreg) hnot⟩

/-- A pipe with a callback that was used or reported closed again after it was closed. -/
structure Bad (p : FdselectPipe) : Prop where
  status : p.status = .bad
  callback : p.callback = true

theorem Bad.emit {p : FdselectPipe} (h : p.Bad) (e : PipeEffect) : (p.emit e).Bad :=
  ⟨by rw [status_emit, h.status]; rfl, h.callback⟩

theorem Bad.quiet {p p' : FdselectPipe} (h : p.Bad) (hq : Quiet p p') : p'.Bad :=
  ⟨hq.status.trans h.status, hq.callback.trans h.callback⟩

/-- A bad pipe stays bad behind its closed callback. -/
theorem Bad.closedCallback (allocOk : Nat → Bool) {p : FdselectPipe} (h : p.Bad) :
    (fdselectPipeClosedCallback allocOk p).Bad := by
  have hc : (p.emit .touch).callback = true := h.callback
  unfold fdselectPipeClosedCallback
  dsimp only
  split
  · exact (h.emit _).emit _
  · exact h.emit _

/-- A bad pipe stays bad at the end of its handler. -/
theorem Bad.handlerEnd (allocOk : Nat → Bool) {r : FdselectPipe × Bool} (h : r.1.Bad) :
    (pipeHandlerEnd allocOk r).Bad := by
  obtain ⟨p, ok⟩ := r
  cases ok with
  | false => exact h
  | true => exact h.closedCallback allocOk

theorem Bad.sockWrite (allocOk : Nat → Bool) {p : FdselectPipe} (h : p.Bad) (y : Side)
    (sends : List SendResult) : (fdselectPipeSockWrite allocOk y sends p).Bad := by
  have hsend := (h.emit .touch).quiet (quiet_sendLoop allocOk y sends _)
  exact (hsend.quiet (quiet_writeFlags allocOk _ y)).handlerEnd allocOk

/-- What has gone wrong stays wrong. -/
theorem Bad.deliver (allocOk : Nat → Bool) {p : FdselectPipe} (h : p.Bad) (e : PipeEvent) :
    (e.deliver allocOk p).Bad := by
  cases e with
  | write y sends =>
      unfold PipeEvent.deliver
      dsimp only
      split
      · exact h.sockWrite allocOk y sends
      · exact h
  | read x recvs sends =>
      unfold PipeEvent.deliver
      dsimp only
      split
      · have hrecv := (h.emit .touch).quiet (quiet_recvLoop allocOk x recvs _)
        have hwrite := (hrecv.sockWrite allocOk x.peer sends).emit .touch
        exact (hwrite.quiet (quiet_readFlags allocOk _ x)).handlerEnd allocOk
      · exact h

/-- The callback stays what it is. -/
theorem Fine.callback_deliver (allocOk : Nat → Bool) {p : FdselectPipe} (h : p.Fine)
    (e : PipeEvent) : (e.deliver allocOk p).callback = true := by
  have hc := h.sound.callback
  cases e with
  | write y sends =>
      unfold PipeEvent.deliver
      dsimp only
      split
      · have hspec := (sockWrite_spec allocOk h.sound y.peer sends).1
        rw [Side.peer_peer] at hspec
        exact hspec.callback
      · exact hc
  | read x recvs sends =>
      unfold PipeEvent.deliver
      dsimp only
      split
      · have hrecv := (recvLoop_spec allocOk h.sound x recvs).1
        rw [sockRead_eq]
        exact (readEnd_spec allocOk (sockWrite_spec allocOk hrecv x sends).1 x).1.callback
      · exact hc

theorem Bad.run (allocOk : Nat → Bool) {p : FdselectPipe} (h : p.Bad) (events : List PipeEvent) :
    (Lib.run (PipeEvent.deliver allocOk) p events).Bad :=
  run_inv (I := Bad) (fun _ e h => h.deliver allocOk e) h events

/-- The run lemma: the pipe stays fine exactly when every event meets the condition. -/
theorem Fine.run_iff (allocOk : Nat → Bool) (events : List PipeEvent) :
    ∀ p : FdselectPipe, p.Fine →
      ((Lib.run (PipeEvent.deliver allocOk) p events).status ≠ .bad ↔
        AllSteps PipeEvent.CloseOk (PipeEvent.deliver allocOk) p events) := by
  induction events with
  | nil =>
      intro p h
      refine iff_of_true ?_ trivial
      rcases h.status with hs | ⟨hs, -⟩ <;> rw [run_nil, hs] <;> decide
  | cons e events ih =>
      intro p h
      obtain ⟨hgood, hbad⟩ := h.deliver allocOk e
      rw [run_cons, allSteps_cons]
      by_cases hok : e.CloseOk p
      · rw [ih _ (hgood hok)]
        exact (and_iff_right hok).symm
      · have hrest : (Lib.run (PipeEvent.deliver allocOk) (e.deliver allocOk p) events).Bad :=
          Bad.run allocOk ⟨hbad hok, h.callback_deliver allocOk e⟩ events
        exact iff_of_false (fun hne => hne hrest.status) fun hall => hok hall.1

end FdselectPipe

/-- A new pipe has done nothing yet. -/
theorem trace_fdselectPipeInit (allocOk : Nat → Bool) (sel : Fdselect PipeFunc) (callback : Bool)
    (sock0 : Int) (buf0 : Int → UInt8) (max0 : Int) (sock1 : Int) (buf1 : Int → UInt8)
    (max1 : Int) :
    (fdselectPipeInit allocOk sel callback sock0 buf0 max0 sock1 buf1 max1).trace = [] ∧
      (fdselectPipeInit allocOk sel callback sock0 buf0 max0 sock1 buf1 max1).callback
        = callback := by
  unfold fdselectPipeInit
  dsimp only
  split <;> exact ⟨rfl, rfl⟩

/-- A new pipe is fine, also when there was no memory to register a socket. -/
theorem fine_fdselectPipeInit (allocOk : Nat → Bool) {sel : Fdselect PipeFunc} (hwf : sel.Wf)
    {sock0 sock1 : Int} (hne : sock0 ≠ sock1) (h0 : sel.entry sock0 = none)
    (h1 : sel.entry sock1 = none) (buf0 buf1 : Int → UInt8) (max0 max1 : Int) :
    (fdselectPipeInit allocOk sel true sock0 buf0 max0 sock1 buf1 max1).Fine := by
  obtain ⟨p, hp, hok, hchan⟩ :=
    fdselectPipeInit_spec allocOk hwf true hne h0 h1 buf0 buf1 max0 max1
  obtain ⟨htrace, hcall⟩ :=
    trace_fdselectPipeInit allocOk sel true sock0 buf0 max0 sock1 buf1 max1
  rw [hp] at htrace hcall ⊢
  have hreg : (p.chan .zero).RegOk ∧ (p.chan .one).RegOk := by
    rcases hchan with ⟨hzero, hone⟩ | ⟨-, hzero, hone⟩
    · rw [hzero, hone]
      exact ⟨⟨fun hf => absurd hf (by simp [newChan]), fun _ => rfl⟩,
        ⟨fun hf => absurd hf (by simp [newChan]), fun _ => rfl⟩⟩
    · exact ⟨hzero, hone⟩
  refine ⟨⟨hok, fun z => ?_, hcall⟩, Or.inl (by rw [FdselectPipe.status, htrace]; rfl)⟩
  cases z with
  | zero => exact hreg.1
  | one => exact hreg.2

/-- A pipe reports closing at most once, and is not touched after that, exactly when no event closes
it twice. -/
theorem fdselect_pipe_closedOnce_iff (allocOk : Nat → Bool) (sel : Fdselect PipeFunc)
    (hwf : sel.Wf) (sock0 sock1 : Int) (hne : sock0 ≠ sock1) (h0 : sel.entry sock0 = none)
    (h1 : sel.entry sock1 = none) (buf0 buf1 : Int → UInt8) (max0 max1 : Int)
    (events : List PipeEvent) :
    ClosedOnce (run (PipeEvent.deliver allocOk)
        (fdselectPipeInit allocOk sel true sock0 buf0 max0 sock1 buf1 max1) events).trace ↔
      AllSteps PipeEvent.CloseOk (PipeEvent.deliver allocOk)
        (fdselectPipeInit allocOk sel true sock0 buf0 max0 sock1 buf1 max1) events := by
  rw [closedOnce_iff]
  exact FdselectPipe.Fine.run_iff allocOk events _
    (fine_fdselectPipeInit allocOk hwf hne h0 h1 buf0 buf1 max0 max1)

/-- The second socket ends, then the first one sends a byte and ends: the pipe closes once. -/
theorem fdselect_pipe_closedOnce_eof :
    ClosedOnce (run (PipeEvent.deliver fun _ => true)
      (fdselectPipeInit (fun _ => true) fdselectInit true 3 (fun _ => 0) 4 5 (fun _ => 0) 4)
      [.read .one [.bytes []] [], .read .zero [.bytes [7], .bytes []] [.accept 1]]).trace :=
  (fdselect_pipe_closedOnce_iff (fun _ => true) fdselectInit wf_fdselectInit 3 5 (by decide) rfl
    rfl (fun _ => 0) (fun _ => 0) 4 4 _).mpr
    ⟨fun _ => by decide, fun _ => by decide, trivial⟩

/-- The same, but the byte cannot be sent: the pipe is reported closed in the nested write handler,
used again, and reported closed again. -/
theorem fdselect_pipe_closed_twice :
    ¬ ClosedOnce (run (PipeEvent.deliver fun _ => true)
      (fdselectPipeInit (fun _ => true) fdselectInit true 3 (fun _ => 0) 4 5 (fun _ => 0) 4)
      [.read .one [.bytes []] [], .read .zero [.bytes [7], .bytes []] [.error]]).trace := by
  rw [closedOnce_iff]
  decide

end Bklib
