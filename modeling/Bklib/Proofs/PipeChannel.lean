import Bklib.Model.FdselectPipe
import Bklib.Proofs.Fdselect

/-!
# `Bklib.Proofs.PipeChannel`: a pipe is two independent channels

A `Chan` is one direction of a pipe: the buffer of the socket it reads from, the two interest flags,
the error flags, what is registered, and the effects of this direction. `FdselectPipe.chan` reads the
two channels off a pipe.

The handlers of the pipe are steps of one channel that leave the other as it is. `Acts x p p' c` says
so for a piece of a handler: in `p'` the channel `x` is `c`, and the other channel is the one of `p`.
The channel functions below are what the pieces do to their channel. The receive and the send loop
need no memory, so they act the same whether or not the allocations succeed.
-/

set_option autoImplicit false

namespace Bklib

open Bklib.Lib

@[simp] theorem Side.peer_peer (x : Side) : x.peer.peer = x := by cases x <;> rfl

@[simp] theorem Side.peer_ne (x : Side) : x.peer ≠ x := by cases x <;> decide

@[simp] theorem Side.ne_peer (x : Side) : x ≠ x.peer := by cases x <;> decide

theorem Side.eq_or_eq_peer (x z : Side) : z = x ∨ z = x.peer := by
  cases x <;> cases z <;> decide

/-- What happens on one channel. -/
inductive ChanEffect where
  | recv (bytes : List UInt8)
  | recvEnd
  | send (bytes : List UInt8)
  | sendErr
  /-- The receiving socket is shut down for sending. -/
  | shutdown
  deriving DecidableEq

/-- One direction of a pipe. The fields of the socket it reads from keep their names; `errWrite` and
`selectWrite` are those of the other socket. -/
structure Chan where
  errRead : Bool
  selectRead : Bool
  errReadDone : Bool
  buf : Int → UInt8
  off : Int
  len : Int
  max : Int
  errWrite : Bool
  selectWrite : Bool
  readFunc : Option PipeFunc
  writeFunc : Option PipeFunc
  trace : List ChanEffect

/-- The effect on the channel that reads from `x`. -/
def PipeEffect.toChan (x : Side) : PipeEffect → Option ChanEffect
  | .recv z bytes   => if z = x then some (.recv bytes) else none
  | .recvEnd z      => if z = x then some .recvEnd else none
  | .send z bytes   => if z = x.peer then some (.send bytes) else none
  | .sendErr z      => if z = x.peer then some .sendErr else none
  | .shutdownSend z => if z = x.peer then some .shutdown else none
  | _               => none

/-- The channel that reads from `x`. -/
def FdselectPipe.chan (p : FdselectPipe) (x : Side) : Chan where
  errRead := (p.sock x).errRead
  selectRead := (p.sock x).selectRead
  errReadDone := (p.sock x).errReadDone
  buf := (p.sock x).buf
  off := (p.sock x).off
  len := (p.sock x).len
  max := (p.sock x).max
  errWrite := (p.sock x.peer).errWrite
  selectWrite := (p.sock x.peer).selectWrite
  readFunc := fdselectFunc p.fdselect (p.sock x).sock fdselectREAD
  writeFunc := fdselectFunc p.fdselect (p.sock x.peer).sock fdselectWRITE
  trace := p.trace.filterMap (·.toChan x)

namespace Chan

def emit (c : Chan) (e : ChanEffect) : Chan := { c with trace := c.trace ++ [e] }

def room (c : Chan) : Bool := c.off + c.len < c.max

def recvErr (c : Chan) : Chan :=
  { c with errRead := true, readFunc := none, trace := c.trace ++ [.recvEnd] }

def received (c : Chan) (bytes : List UInt8) : Chan :=
  { c with
    buf := writeAt c.buf (c.off + c.len) bytes
    len := c.len + bytes.length
    trace := c.trace ++ [.recv bytes] }

def recvLoop : List RecvResult → Chan → Chan
  | [],      c => c
  | r :: rs, c =>
      if c.max - (c.off + c.len) ≤ 0 then c
      else match r with
        | .wouldblock => c
        | .error      => c.recvErr
        | .bytes bs   =>
            if bs.take (c.max - (c.off + c.len)).toNat = [] then c.recvErr
            else recvLoop rs (c.received (bs.take (c.max - (c.off + c.len)).toNat))

def unsetRead (c : Chan) : Chan :=
  if c.selectRead then { c with selectRead := false, readFunc := none } else c

def unsetWrite (c : Chan) : Chan :=
  if c.selectWrite then { c with selectWrite := false, writeFunc := none } else c

def sendErr (c : Chan) : Chan :=
  unsetRead { c with errWrite := true, trace := c.trace ++ [.sendErr] }

def sent (c : Chan) (n : Nat) : Chan :=
  { c with
    off := if c.len - n = 0 then 0 else c.off + n
    len := c.len - n
    trace := c.trace ++ [.send (readAt c.buf c.off n)] }

def sendLoop : List SendResult → Chan → Chan
  | [],      c => c
  | r :: rs, c =>
      if c.len ≤ 0 then c
      else match r with
        | .wouldblock => c
        | .error      => c.sendErr
        | .accept n   =>
            if min n c.len.toNat = 0 then c.sendErr
            else sendLoop rs (c.sent (min n c.len.toNat))

def setRead (x : Side) (c : Chan) : Chan :=
  if c.selectRead then c else { c with selectRead := true, readFunc := some (.sockRead x) }

def setWrite (x : Side) (c : Chan) : Chan :=
  if c.selectWrite then c
  else { c with selectWrite := true, writeFunc := some (.sockWrite x.peer) }

/-- Shut down for sending unless it was done. -/
def stop (c : Chan) : Chan :=
  if c.errRead ∧ ¬ c.errReadDone then
    { c with errReadDone := true, trace := c.trace ++ [.shutdown] }
  else c

def writeFlags (x : Side) (c : Chan) : Chan :=
  let c := if c.room ∧ ¬ c.errRead then c.setRead x else c
  if c.len > 0 ∧ ¬ c.errWrite then c.setWrite x else c.stop.unsetWrite

def readFlags (x : Side) (c : Chan) : Chan :=
  if c.room ∧ ¬ c.errRead then c.setRead x else c.unsetRead

/-- What the write handler does. -/
def write (x : Side) (sends : List SendResult) (c : Chan) : Chan :=
  writeFlags x (sendLoop sends c)

/-- What the read handler does. -/
def read (x : Side) (recvs : List RecvResult) (sends : List SendResult) (c : Chan) : Chan :=
  readFlags x (write x sends (recvLoop recvs c))

end Chan

/-! ### Pieces of a handler -/

/-- The table of the selector is well formed and the sockets are two. -/
structure FdselectPipe.Ok (p : FdselectPipe) : Prop where
  wf : p.fdselect.Wf
  ne : (p.sock .zero).sock ≠ (p.sock .one).sock

/-- The pipe went from `p` to `p'` by a step of channel `x` to `c`. -/
structure Acts (x : Side) (p p' : FdselectPipe) (c : Chan) : Prop where
  ok : p'.Ok
  here : p'.chan x = c
  other : p'.chan x.peer = p.chan x.peer

theorem Acts.refl {x : Side} {p : FdselectPipe} (h : p.Ok) : Acts x p p (p.chan x) :=
  ⟨h, rfl, rfl⟩

theorem Acts.trans {x : Side} {p p' p'' : FdselectPipe} {c c' : Chan} (h : Acts x p p' c)
    (h' : Acts x p' p'' c') : Acts x p p'' c' := ⟨h'.ok, h'.here, h'.other.trans h.other⟩

theorem FdselectPipe.Ok.sock_ne {p : FdselectPipe} (h : p.Ok) {x z : Side} (hne : z ≠ x) :
    (p.sock z).sock ≠ (p.sock x).sock := by
  have h1 := h.ne
  cases x <;> cases z <;> first | exact absurd rfl hne | exact h1 | exact Ne.symm h1

/-- A step that leaves the selector and the descriptors alone. -/
theorem FdselectPipe.Ok.congr {p p' : FdselectPipe} (h : p.Ok) (hsel : p'.fdselect = p.fdselect)
    (hsock : ∀ z, (p'.sock z).sock = (p.sock z).sock) : p'.Ok :=
  ⟨hsel ▸ h.wf, by rw [hsock, hsock]; exact h.ne⟩

/-- An effect that is not one of a channel. -/
theorem acts_emit {x : Side} {p : FdselectPipe} (h : p.Ok) {e : PipeEffect}
    (he : ∀ z, e.toChan z = none) : Acts x p (p.emit e) (p.chan x) :=
  ⟨h.congr rfl fun _ => rfl, by simp [FdselectPipe.chan, FdselectPipe.emit, he],
    by simp [FdselectPipe.chan, FdselectPipe.emit, he]⟩

section
variable (allocOk : Nat → Bool) {p : FdselectPipe} (h : p.Ok) (x : Side)

include h

/-- `fdselect_unset` takes one registration away. -/
theorem pipeUnselect_spec (events : FdEvents)
    (hev : events = fdselectREAD ∨ events = fdselectWRITE ∨ events = fdselectALL) :
    ∃ sel r, pipeUnselect allocOk p x events = ({ p with fdselect := sel }, r) ∧ sel.Wf ∧
      (r = 0 ∨ allocOk p.fdselect.allocs = false ∧
        ∀ ev, fdselectFunc p.fdselect (p.sock x).sock ev = none) ∧
      ∀ z ev, IsRw ev → fdselectFunc sel (p.sock z).sock ev
        = if z = x ∧ events &&& ev ≠ 0 then none else fdselectFunc p.fdselect (p.sock z).sock ev := by
  obtain ⟨sel, r, hsel, hwf, hr, hfunc⟩ :=
    fdselectFunc_unset allocOk h.wf (p.sock x).sock events hev
  refine ⟨sel, r, by simp only [pipeUnselect, hsel], hwf, hr, fun z ev hrw => ?_⟩
  rw [hfunc _ ev hrw]
  by_cases hz : z = x
  · simp [hz]
  · simp [hz, h.sock_ne hz]

/-- Unselecting reading, seen on the channel. -/
theorem acts_unselect_read :
    Acts x p (pipeUnselect allocOk p x fdselectREAD).1 { p.chan x with readFunc := none } := by
  obtain ⟨sel, r, hsel, hwf, -, hfunc⟩ := pipeUnselect_spec allocOk h x fdselectREAD (Or.inl rfl)
  rw [hsel]
  have hread : fdselectREAD ≠ 0#32 := by decide
  have hwrite : fdselectREAD &&& fdselectWRITE = (0 : FdEvents) := by decide
  refine ⟨⟨hwf, h.ne⟩, ?_, ?_⟩
  · simp only [FdselectPipe.chan, hfunc _ _ (Or.inl rfl), hfunc _ _ (Or.inr rfl)]
    simp [hread, hwrite]
  · simp only [FdselectPipe.chan, hfunc _ _ (Or.inl rfl), hfunc _ _ (Or.inr rfl)]
    simp [hwrite]

/-- Unregistering the writing of `x`'s peer. -/
theorem acts_unselect_write :
    Acts x p (pipeUnselect allocOk p x.peer fdselectWRITE).1
      { p.chan x with writeFunc := none } := by
  obtain ⟨sel, r, hsel, hwf, -, hfunc⟩ :=
    pipeUnselect_spec allocOk h x.peer fdselectWRITE (Or.inr (Or.inl rfl))
  rw [hsel]
  have hwrite : fdselectWRITE ≠ 0#32 := by decide
  have hread : fdselectWRITE &&& fdselectREAD = (0 : FdEvents) := by decide
  refine ⟨⟨hwf, h.ne⟩, ?_, ?_⟩
  · simp only [FdselectPipe.chan, hfunc _ _ (Or.inl rfl), hfunc _ _ (Or.inr rfl)]
    simp [hread, hwrite]
  · simp only [FdselectPipe.chan, hfunc _ _ (Or.inl rfl), hfunc _ _ (Or.inr rfl)]
    simp [hread]

theorem acts_selectRead (b : Bool) :
    Acts x p (p.setSock x { p.sock x with selectRead := b }) { p.chan x with selectRead := b } := by
  refine ⟨h.congr rfl fun z => by cases x <;> cases z <;> rfl, ?_, ?_⟩ <;>
    cases x <;> simp [FdselectPipe.chan, FdselectPipe.setSock, Side.peer]

theorem acts_selectWrite (b : Bool) :
    Acts x p (p.setSock x.peer { p.sock x.peer with selectWrite := b })
      { p.chan x with selectWrite := b } := by
  refine ⟨h.congr rfl fun z => by cases x <;> cases z <;> rfl, ?_, ?_⟩ <;>
    cases x <;> simp [FdselectPipe.chan, FdselectPipe.setSock, Side.peer]

/-- The flag for reading is taken back. -/
theorem acts_unsetRead : Acts x p (pipeUnsetRead allocOk x p) (p.chan x).unsetRead := by
  show Acts x p (if (p.sock x).selectRead = true then _ else p)
    (if (p.sock x).selectRead = true then _ else p.chan x)
  split
  · have hun := acts_unselect_read allocOk h x
    have hflag := acts_selectRead hun.ok x false
    rw [hun.here] at hflag
    exact hun.trans hflag
  · exact Acts.refl h

/-- The flag for writing is taken back. -/
theorem acts_unsetWrite : Acts x p (pipeUnsetWrite allocOk x.peer p) (p.chan x).unsetWrite := by
  show Acts x p (if (p.sock x.peer).selectWrite = true then _ else p)
    (if (p.sock x.peer).selectWrite = true then _ else p.chan x)
  split
  · have hun := acts_unselect_write allocOk h x
    have hflag := acts_selectWrite hun.ok x false
    rw [hun.here] at hflag
    exact hun.trans hflag
  · exact Acts.refl h

/-- Bytes are received into the buffer of the channel. -/
theorem acts_received (bytes : List UInt8) :
    Acts x p (pipeReceived x bytes p) ((p.chan x).received bytes) := by
  have hsel : (pipeReceived x bytes p).fdselect = p.fdselect := by
    unfold pipeReceived; dsimp only; split <;> rfl
  have hsock : ∀ z, ((pipeReceived x bytes p).sock z).sock = (p.sock z).sock := by
    intro z
    cases x <;> cases z <;> unfold pipeReceived <;> dsimp only <;> split <;> rfl
  refine ⟨h.congr hsel hsock, ?_, ?_⟩ <;>
    cases x <;> cases hc : p.callback <;>
    simp [pipeReceived, FdselectPipe.chan, FdselectPipe.emit, FdselectPipe.setSock, hc,
      PipeEffect.toChan, Side.peer, Chan.received]

/-- An error of `recv`, or the end of the file. -/
theorem acts_recvErr : Acts x p (pipeRecvErr allocOk x p) (p.chan x).recvErr := by
  have hpre : Acts x p
      (((p.emit (.recvEnd x)).setSock x { p.sock x with errRead := true }).emit (.shutdownRecv x))
      { p.chan x with errRead := true, trace := (p.chan x).trace ++ [.recvEnd] } := by
    refine ⟨h.congr rfl fun z => ?_, ?_, ?_⟩
    · cases x <;> cases z <;> rfl
    all_goals
      cases x <;> simp [FdselectPipe.chan, FdselectPipe.emit, FdselectPipe.setSock,
        PipeEffect.toChan, Side.peer]
  have hun := acts_unselect_read allocOk hpre.ok x
  rw [hpre.here] at hun
  exact hpre.trans hun

omit h in
/-- The receive loop is the receive loop of the channel. -/
theorem acts_recvLoop (recvs : List RecvResult) :
    ∀ {p : FdselectPipe}, p.Ok →
      Acts x p (pipeRecvLoop allocOk x recvs p) ((p.chan x).recvLoop recvs) := by
  induction recvs with
  | nil => intro p h; exact Acts.refl h
  | cons r recvs ih =>
      intro p h
      -- The tests of the two loops are the same.
      show Acts x p (if (p.sock x).max - ((p.sock x).off + (p.sock x).len) ≤ 0 then p else _)
        (if (p.sock x).max - ((p.sock x).off + (p.sock x).len) ≤ 0 then p.chan x else _)
      split
      · exact Acts.refl h
      · cases r with
        | wouldblock => exact Acts.refl h
        | error => exact acts_recvErr allocOk h x
        | bytes bs =>
            show Acts x p
              (if bs.take ((p.sock x).max - ((p.sock x).off + (p.sock x).len)).toNat = [] then _
                else _)
              (if bs.take ((p.sock x).max - ((p.sock x).off + (p.sock x).len)).toNat = [] then _
                else _)
            split
            · exact acts_recvErr allocOk h x
            · have hrecv := acts_received h x
                (bs.take ((p.sock x).max - ((p.sock x).off + (p.sock x).len)).toNat)
              have hrest := ih hrecv.ok
              rw [hrecv.here] at hrest
              exact hrecv.trans hrest

/-- Bytes are sent from the buffer of the channel. -/
theorem acts_sent (n : Nat) : Acts x p (pipeSent x.peer n p) ((p.chan x).sent n) := by
  have hsel : (pipeSent x.peer n p).fdselect = p.fdselect := by
    unfold pipeSent pipeWriteCallback; dsimp only; split <;> rfl
  have hsock : ∀ z, ((pipeSent x.peer n p).sock z).sock = (p.sock z).sock := by
    intro z
    cases x <;> cases z <;> unfold pipeSent pipeWriteCallback <;> dsimp only <;> split <;> rfl
  refine ⟨h.congr hsel hsock, ?_, ?_⟩ <;>
    cases x <;> cases hc : p.callback <;>
    simp [pipeSent, pipeWriteCallback, FdselectPipe.chan, FdselectPipe.emit,
      FdselectPipe.setSock, hc, PipeEffect.toChan, Side.peer, Chan.sent] <;>
    rfl

/-- The write callback acts on its own channel. -/
theorem acts_writeCallback (len : Int) :
    Acts x p (pipeWriteCallback x.peer len p) (p.chan x) := by
  unfold pipeWriteCallback
  split
  · exact acts_emit h fun _ => rfl
  · exact Acts.refl h

/-- An error of `send`. -/
theorem acts_sendErr : Acts x p (pipeSendErr allocOk x.peer p) (p.chan x).sendErr := by
  have hpre : Acts x p
      (((p.emit (.sendErr x.peer)).setSock x.peer { p.sock x.peer with errWrite := true }).emit
        (.shutdownRecv x))
      { p.chan x with errWrite := true, trace := (p.chan x).trace ++ [.sendErr] } := by
    refine ⟨h.congr rfl fun z => ?_, ?_, ?_⟩
    · cases x <;> cases z <;> rfl
    all_goals
      cases x <;> simp [FdselectPipe.chan, FdselectPipe.emit, FdselectPipe.setSock,
        PipeEffect.toChan, Side.peer]
  have hun := acts_unsetRead allocOk hpre.ok x
  rw [hpre.here] at hun
  have hsend : pipeSendErr allocOk x.peer p = pipeUnsetRead allocOk x
      (((p.emit (.sendErr x.peer)).setSock x.peer { p.sock x.peer with errWrite := true }).emit
        (.shutdownRecv x)) := by
    cases x <;> rfl
  rw [hsend]
  exact hpre.trans hun

omit h in
/-- The send loop is the send loop of the channel. -/
theorem acts_sendLoop (sends : List SendResult) :
    ∀ {p : FdselectPipe}, p.Ok →
      Acts x p (pipeSendLoop allocOk x.peer sends p) ((p.chan x).sendLoop sends) := by
  induction sends with
  | nil => intro p h; exact Acts.refl h
  | cons r sends ih =>
      intro p h
      -- A failed send runs the callback first.
      have herr : ∀ len, Acts x p (pipeSendErr allocOk x.peer (pipeWriteCallback x.peer len p))
          (p.chan x).sendErr := fun len => by
        have hcall := acts_writeCallback h x len
        have hsend := acts_sendErr allocOk hcall.ok x
        rw [hcall.here] at hsend
        exact hcall.trans hsend
      show Acts x p (if (p.sock x.peer.peer).len ≤ 0 then p else _)
        (if (p.sock x).len ≤ 0 then p.chan x else _)
      rw [Side.peer_peer]
      split
      · exact Acts.refl h
      · cases r with
        | wouldblock => exact Acts.refl h
        | error => exact herr (-1)
        | accept n =>
            show Acts x p (if min n (p.sock x).len.toNat = 0 then _ else _)
              (if min n (p.sock x).len.toNat = 0 then _ else _)
            split
            · exact herr 0
            · have hsent := acts_sent h x (min n (p.sock x).len.toNat)
              have hrest := ih hsent.ok
              rw [hsent.here] at hrest
              exact hsent.trans hrest

/-- The other side is shut down. -/
theorem acts_stop : Acts x p (pipeStop x.peer p) (p.chan x).stop := by
  show Acts x p
    (if (p.sock x.peer.peer).errRead = true ∧ ¬ (p.sock x.peer.peer).errReadDone = true then _ else p)
    (if (p.sock x).errRead = true ∧ ¬ (p.sock x).errReadDone = true then _ else p.chan x)
  rw [Side.peer_peer]
  split
  · refine ⟨h.congr rfl fun z => by cases x <;> cases z <;> rfl, ?_, ?_⟩ <;>
      cases x <;> simp [FdselectPipe.chan, FdselectPipe.emit, FdselectPipe.setSock,
        PipeEffect.toChan, Side.peer]
  · exact Acts.refl h

/-- `fdselect_set` registers one function, or fails for want of memory and changes nothing. -/
theorem pipeSelect_spec (events : FdEvents)
    (hev : events = fdselectREAD ∨ events = fdselectWRITE) (func : PipeFunc) :
    ∃ sel r, pipeSelect allocOk p x events func = ({ p with fdselect := sel }, r) ∧ sel.Wf ∧
      ((r = -1 ∧ allocOk p.fdselect.allocs = false ∧
          fdselectFunc sel = fdselectFunc p.fdselect) ∨
        (r = 0 ∧ ∀ z ev, IsRw ev → fdselectFunc sel (p.sock z).sock ev
          = if z = x ∧ events &&& ev ≠ 0 then some func
            else fdselectFunc p.fdselect (p.sock z).sock ev)) := by
  have hbits : eventsOf events = events ∧
      (events &&& fdselectADDRESS = 0 ∨ events &&& fdselectREAD ≠ 0) := by
    rcases hev with rfl | rfl <;> decide
  obtain ⟨sel, r, hsel, hwf, hcases⟩ := fdselectFunc_set allocOk h.wf (p.sock x).sock events
    (some func) (by rw [hbits.1]; exact hbits.2)
  refine ⟨sel, r, by simp only [pipeSelect, hsel], hwf, ?_⟩
  rcases hcases with ⟨hr, hok, -, hsame⟩ | ⟨hr, hfunc⟩
  · exact Or.inl ⟨hr, hok, hsame⟩
  · refine Or.inr ⟨hr, fun z ev hrw => ?_⟩
    rw [hfunc _ ev hrw, hbits.1]
    by_cases hz : z = x
    · simp [hz]
    · simp [hz, h.sock_ne hz]

/-- A failed registration changes no channel. -/
theorem acts_of_same {sel : Fdselect PipeFunc} (hwf : sel.Wf)
    (hsame : fdselectFunc sel = fdselectFunc p.fdselect) :
    Acts x p { p with fdselect := sel } (p.chan x) :=
  ⟨⟨hwf, h.ne⟩, by simp only [FdselectPipe.chan, hsame], by simp only [FdselectPipe.chan, hsame]⟩

/-- Selecting reading succeeds and is seen on the channel, or there is no memory for it. -/
theorem acts_select_read :
    ∃ p' r, pipeSelect allocOk p x fdselectREAD (.sockRead x) = (p', r) ∧
      (r = 0 ∧ Acts x p p' { p.chan x with readFunc := some (.sockRead x) } ∨
        r = -1 ∧ (∃ n, allocOk n = false) ∧ Acts x p p' (p.chan x)) := by
  obtain ⟨sel, r, hsel, hwf, hcases⟩ :=
    pipeSelect_spec allocOk h x fdselectREAD (Or.inl rfl) (.sockRead x)
  refine ⟨_, r, hsel, ?_⟩
  rcases hcases with ⟨hr, hok, hsame⟩ | ⟨hr, hfunc⟩
  · exact Or.inr ⟨hr, ⟨_, hok⟩, acts_of_same h x hwf hsame⟩
  · have hread : fdselectREAD ≠ 0#32 := by decide
    have hwrite : fdselectREAD &&& fdselectWRITE = (0 : FdEvents) := by decide
    refine Or.inl ⟨hr, ⟨hwf, h.ne⟩, ?_, ?_⟩ <;>
      simp only [FdselectPipe.chan, hfunc _ _ (Or.inl rfl), hfunc _ _ (Or.inr rfl)] <;>
      simp [hread, hwrite]

/-- The same for writing. -/
theorem acts_select_write :
    ∃ p' r, pipeSelect allocOk p x.peer fdselectWRITE (.sockWrite x.peer) = (p', r) ∧
      (r = 0 ∧ Acts x p p' { p.chan x with writeFunc := some (.sockWrite x.peer) } ∨
        r = -1 ∧ (∃ n, allocOk n = false) ∧ Acts x p p' (p.chan x)) := by
  obtain ⟨sel, r, hsel, hwf, hcases⟩ :=
    pipeSelect_spec allocOk h x.peer fdselectWRITE (Or.inr rfl) (.sockWrite x.peer)
  refine ⟨_, r, hsel, ?_⟩
  rcases hcases with ⟨hr, hok, hsame⟩ | ⟨hr, hfunc⟩
  · exact Or.inr ⟨hr, ⟨_, hok⟩, acts_of_same h x hwf hsame⟩
  · have hwrite : fdselectWRITE ≠ 0#32 := by decide
    have hread : fdselectWRITE &&& fdselectREAD = (0 : FdEvents) := by decide
    refine Or.inl ⟨hr, ⟨hwf, h.ne⟩, ?_, ?_⟩ <;>
      simp only [FdselectPipe.chan, hfunc _ _ (Or.inl rfl), hfunc _ _ (Or.inr rfl)] <;>
      simp [hread, hwrite]

/-- Registering reading, unless there is no memory for it. -/
theorem acts_setRead :
    ∃ p' ok, pipeSelectRead allocOk x p = (p', ok) ∧
      (ok = true ∧ Acts x p p' ((p.chan x).setRead x) ∨
        ok = false ∧ (∃ n, allocOk n = false) ∧ Acts x p p' (p.chan x)) := by
  unfold pipeSelectRead
  by_cases hflag : (p.sock x).selectRead = true
  · rw [if_pos hflag]
    have hset : (p.chan x).setRead x = p.chan x := if_pos hflag
    exact ⟨p, true, rfl, Or.inl ⟨rfl, by rw [hset]; exact Acts.refl h⟩⟩
  · rw [if_neg hflag]
    have hset : (p.chan x).setRead x
        = { p.chan x with selectRead := true, readFunc := some (.sockRead x) } := if_neg hflag
    obtain ⟨q, r, hq, hcases⟩ := acts_select_read allocOk h x
    rw [hq, hset]
    rcases hcases with ⟨rfl, hreg⟩ | ⟨rfl, hfail, hsame⟩
    · have hflag' := acts_selectRead hreg.ok x true
      rw [hreg.here] at hflag'
      exact ⟨_, true, rfl, Or.inl ⟨rfl, hreg.trans hflag'⟩⟩
    · exact ⟨q, false, rfl, Or.inr ⟨rfl, hfail, hsame⟩⟩

/-- Registering writing, unless there is no memory for it. -/
theorem acts_setWrite :
    ∃ p' ok, pipeSelectWrite allocOk x.peer p = (p', ok) ∧
      (ok = true ∧ Acts x p p' ((p.chan x).setWrite x) ∨
        ok = false ∧ (∃ n, allocOk n = false) ∧ Acts x p p' (p.chan x)) := by
  unfold pipeSelectWrite
  by_cases hflag : (p.sock x.peer).selectWrite = true
  · rw [if_pos hflag]
    have hset : (p.chan x).setWrite x = p.chan x := if_pos hflag
    exact ⟨p, true, rfl, Or.inl ⟨rfl, by rw [hset]; exact Acts.refl h⟩⟩
  · rw [if_neg hflag]
    have hset : (p.chan x).setWrite x
        = { p.chan x with selectWrite := true, writeFunc := some (.sockWrite x.peer) } :=
      if_neg hflag
    obtain ⟨q, r, hq, hcases⟩ := acts_select_write allocOk h x
    rw [hq, hset]
    rcases hcases with ⟨rfl, hreg⟩ | ⟨rfl, hfail, hsame⟩
    · have hflag' := acts_selectWrite hreg.ok x true
      rw [hreg.here] at hflag'
      exact ⟨_, true, rfl, Or.inl ⟨rfl, hreg.trans hflag'⟩⟩
    · exact ⟨q, false, rfl, Or.inr ⟨rfl, hfail, hsame⟩⟩

/-- A round of `fdselect_pipe_init`: the flag is set before the registration, also when that
fails. -/
theorem acts_initSock :
    ∃ p' r, pipeInitSock allocOk x p = (p', r) ∧
      (r = 0 ∧ Acts x p p'
          { p.chan x with selectRead := true, readFunc := some (.sockRead x) } ∨
        r = -1 ∧ (∃ n, allocOk n = false) ∧ Acts x p p' { p.chan x with selectRead := true }) := by
  have hflag := acts_selectRead h x true
  obtain ⟨q, r, hq, hcases⟩ := acts_select_read allocOk hflag.ok x
  refine ⟨q, r, hq, ?_⟩
  rw [hflag.here] at hcases
  rcases hcases with ⟨hr, hreg⟩ | ⟨hr, hfail, hsame⟩
  · exact Or.inl ⟨hr, hflag.trans hreg⟩
  · exact Or.inr ⟨hr, hfail, hflag.trans hsame⟩

end

/-! ### Rules for the loops -/

namespace Chan

/-- A property that a receive and a receive error keep holds after the receive loop. A receive is of
at least one byte and of no more than there is room for. -/
theorem recvLoop_inv {P : Chan → Prop} (herr : ∀ c, P c → P c.recvErr)
    (hrecv : ∀ c bs, P c → bs ≠ [] → c.off + c.len + bs.length ≤ c.max → P (c.received bs))
    (recvs : List RecvResult) : ∀ {c}, P c → P (c.recvLoop recvs) := by
  induction recvs with
  | nil => intro c h; exact h
  | cons r recvs ih =>
      intro c h
      unfold recvLoop
      split
      · exact h
      · rename_i hroom
        cases r with
        | wouldblock => exact h
        | error => exact herr c h
        | bytes bs =>
            dsimp only
            split
            · exact herr c h
            · rename_i hne
              have hlen := List.length_take_le (c.max - (c.off + c.len)).toNat bs
              exact ih (hrecv c _ h hne (by omega))

/-- A property that a send and a send error keep holds after the send loop. A send is of at least one
byte and of no more than the buffer holds. -/
theorem sendLoop_inv {P : Chan → Prop} (herr : ∀ c, P c → P c.sendErr)
    (hsent : ∀ c (n : Nat), P c → 0 < n → (n : Int) ≤ c.len → P (c.sent n))
    (sends : List SendResult) : ∀ {c}, P c → P (c.sendLoop sends) := by
  induction sends with
  | nil => intro c h; exact h
  | cons r sends ih =>
      intro c h
      unfold sendLoop
      split
      · exact h
      · rename_i hlen
        cases r with
        | wouldblock => exact h
        | error => exact herr c h
        | accept n =>
            dsimp only
            split
            · exact herr c h
            · rename_i hn
              exact ih (hsent c _ h (by omega) (by omega))

/-- Without its flag nothing of the channel is registered, and after a read error no reading. -/
structure RegOk (c : Chan) : Prop where
  read : c.selectRead = false ∨ c.errRead = true → c.readFunc = none
  write : c.selectWrite = false → c.writeFunc = none

namespace RegOk

variable {c : Chan}

theorem unsetRead (h : c.RegOk) : c.unsetRead.RegOk := by
  unfold Chan.unsetRead
  split
  · exact ⟨fun _ => rfl, h.write⟩
  · exact h

theorem unsetWrite (h : c.RegOk) : c.unsetWrite.RegOk := by
  unfold Chan.unsetWrite
  split
  · exact ⟨h.read, fun _ => rfl⟩
  · exact h

theorem recvLoop (h : c.RegOk) (recvs : List RecvResult) : (c.recvLoop recvs).RegOk :=
  recvLoop_inv (fun _ h => ⟨fun _ => rfl, h.write⟩) (fun _ _ h _ _ => ⟨h.read, h.write⟩) recvs h

theorem sendLoop (h : c.RegOk) (sends : List SendResult) : (c.sendLoop sends).RegOk :=
  sendLoop_inv (fun c h => unsetRead
      (c := { c with errWrite := true, trace := c.trace ++ [.sendErr] }) ⟨h.read, h.write⟩)
    (fun _ _ h _ _ => ⟨h.read, h.write⟩) sends h

theorem stop (h : c.RegOk) : c.stop.RegOk := by
  unfold Chan.stop
  split
  · exact ⟨h.read, h.write⟩
  · exact h

theorem setRead (h : c.RegOk) (x : Side) (herr : ¬ c.errRead = true) : (c.setRead x).RegOk := by
  unfold Chan.setRead
  split
  · exact h
  · exact ⟨fun hf => absurd hf (by simpa using herr), h.write⟩

theorem setWrite (h : c.RegOk) (x : Side) : (c.setWrite x).RegOk := by
  unfold Chan.setWrite
  split
  · exact h
  · exact ⟨h.read, fun hf => absurd hf (by simp)⟩

/-- The flags of a channel say what is registered, also behind a write. -/
theorem writeFlags (h : c.RegOk) (x : Side) : (c.writeFlags x).RegOk := by
  have hread : (if c.room ∧ ¬ c.errRead then c.setRead x else c).RegOk := by
    split
    · rename_i hcond
      exact h.setRead x hcond.2
    · exact h
  unfold Chan.writeFlags
  dsimp only
  generalize (if c.room ∧ ¬ c.errRead then c.setRead x else c) = d at hread
  split
  · exact hread.setWrite x
  · exact hread.stop.unsetWrite

/-- Reading the flags keeps the registrations right. -/
theorem readFlags (h : c.RegOk) (x : Side) : (c.readFlags x).RegOk := by
  unfold Chan.readFlags
  split
  · rename_i hcond
    exact h.setRead x hcond.2
  · exact h.unsetRead

end RegOk

end Chan

/-! ### Handlers -/

section
variable (allocOk : Nat → Bool) {p : FdselectPipe}

/-- The flags of the write handler: the channel's, unless there is no memory for one that is to be
set. -/
theorem acts_writeFlags (h : p.Ok) (x : Side) (hreg : (p.chan x).RegOk) :
    ∃ p' ok, pipeWriteFlags allocOk x.peer p = (p', ok) ∧
      (ok = true ∧ Acts x p p' ((p.chan x).writeFlags x) ∨
        ok = false ∧ (∃ n, allocOk n = false) ∧
          ((p.chan x).room = true ∧ (p.chan x).errRead = false ∨ (p.chan x).errWrite = false) ∧
          ∃ c, c.RegOk ∧ Acts x p p' c) := by
  -- reading starts again as soon as there is room
  have hfirst : ∃ p' ok, (if p.room x = true ∧ ¬ (p.sock x).errRead = true then
        pipeSelectRead allocOk x p else (p, true)) = (p', ok) ∧
      (ok = true ∧ Acts x p p'
          (if p.room x = true ∧ ¬ (p.sock x).errRead = true then (p.chan x).setRead x
            else p.chan x) ∨
        ok = false ∧ (∃ n, allocOk n = false) ∧
          (p.room x = true ∧ (p.sock x).errRead = false) ∧ Acts x p p' (p.chan x)) := by
    split
    · rename_i hcond
      obtain ⟨q, ok, hq, hcases⟩ := acts_setRead allocOk h x
      refine ⟨q, ok, hq, hcases.imp id fun hf => ⟨hf.1, hf.2.1, ?_, hf.2.2⟩⟩
      exact ⟨hcond.1, by simpa using hcond.2⟩
    · exact ⟨p, true, rfl, Or.inl ⟨rfl, Acts.refl h⟩⟩
  obtain ⟨q, ok, hq, hcases⟩ := hfirst
  have hflags : pipeWriteFlags allocOk x.peer p = if !ok then (q, false)
      else if (q.sock x).len > 0 ∧ ¬ (q.sock x.peer).errWrite then
        pipeSelectWrite allocOk x.peer q
      else (pipeUnsetWrite allocOk x.peer (pipeStop x.peer q), true) := by
    unfold pipeWriteFlags
    rw [Side.peer_peer, hq]
  rcases hcases with ⟨rfl, hacts⟩ | ⟨rfl, hfail, hcond, hacts⟩
  · generalize hc : (if p.room x = true ∧ ¬ (p.sock x).errRead = true then (p.chan x).setRead x
      else p.chan x) = c at hacts
    have hchan : (p.chan x).writeFlags x
        = if c.len > 0 ∧ ¬ c.errWrite then c.setWrite x else c.stop.unsetWrite := by
      rw [← hc]; rfl
    have hcreg : c.RegOk := by
      rw [← hc]
      split
      · rename_i hcond
        exact hreg.setRead x hcond.2
      · exact hreg
    rw [hflags, hchan, ← hacts.here]
    show ∃ p' ok, (if (q.sock x).len > 0 ∧ ¬ (q.sock x.peer).errWrite = true then _ else _)
        = (p', ok) ∧
      (ok = true ∧ Acts x p p'
        (if (q.sock x).len > 0 ∧ ¬ (q.sock x.peer).errWrite = true then _ else _) ∨ _)
    split
    · rename_i hcond
      obtain ⟨u, ok', hu, hcases'⟩ := acts_setWrite allocOk hacts.ok x
      refine ⟨u, ok', hu, ?_⟩
      rcases hcases' with ⟨rfl, hu'⟩ | ⟨rfl, hfail, hu'⟩
      · exact Or.inl ⟨rfl, hacts.trans hu'⟩
      · have herr : (p.chan x).errWrite = (q.chan x).errWrite := by
          rw [hacts.here, ← hc]
          unfold Chan.setRead
          repeat' split
          all_goals rfl
        refine Or.inr ⟨rfl, hfail, Or.inr ?_, _, by rw [hacts.here]; exact hcreg, hacts.trans hu'⟩
        have hw : (q.sock x.peer).errWrite = false := by simpa using hcond.2
        exact herr.trans hw
    · -- nothing is left to write, or the other side is gone
      have hstop := acts_stop hacts.ok x
      have hun := acts_unsetWrite allocOk hstop.ok x
      rw [hstop.here] at hun
      exact ⟨_, true, rfl, Or.inl ⟨rfl, hacts.trans (hstop.trans hun)⟩⟩
  · rw [hflags]
    exact ⟨q, false, rfl, Or.inr ⟨rfl, hfail, Or.inl hcond, _, hreg, hacts⟩⟩

/-- The flags of the read handler. -/
theorem acts_readFlags (h : p.Ok) (x : Side) :
    ∃ p' ok, pipeReadFlags allocOk x p = (p', ok) ∧
      (ok = true ∧ Acts x p p' ((p.chan x).readFlags x) ∨
        ok = false ∧ (∃ n, allocOk n = false) ∧ Acts x p p' (p.chan x)) := by
  show ∃ p' ok, (if p.room x = true ∧ ¬ (p.sock x).errRead = true then _ else _) = (p', ok) ∧
    (ok = true ∧ Acts x p p'
      (if p.room x = true ∧ ¬ (p.sock x).errRead = true then _ else _) ∨ _)
  split
  · exact acts_setRead allocOk h x
  · exact ⟨_, true, rfl, Or.inl ⟨rfl, acts_unsetRead allocOk h x⟩⟩

/-- Closing a pipe none of whose flags is set changes no channel: nothing is registered. -/
theorem acts_closeSock (h : p.Ok) (x z : Side) (closeSocks : Bool)
    (hnone : ∀ z ev, IsRw ev → fdselectFunc p.fdselect (p.sock z).sock ev = none) :
    Acts x p (fdselectPipeCloseSock allocOk p closeSocks z).1 (p.chan x) ∧
      ∀ w ev, IsRw ev → fdselectFunc (fdselectPipeCloseSock allocOk p closeSocks z).1.fdselect
        ((fdselectPipeCloseSock allocOk p closeSocks z).1.sock w).sock ev = none := by
  obtain ⟨sel, r, hsel, hwf, -, hfunc⟩ :=
    pipeUnselect_spec allocOk h z fdselectALL (Or.inr (Or.inr rfl))
  have hsame : ∀ w ev, IsRw ev → fdselectFunc sel (p.sock w).sock ev
      = fdselectFunc p.fdselect (p.sock w).sock ev := by
    intro w ev hrw
    rw [hfunc w ev hrw]
    split
    · rw [hnone w ev hrw]
    · rfl
  have hacts : Acts x p { p with fdselect := sel } (p.chan x) := by
    refine ⟨⟨hwf, h.ne⟩, ?_, ?_⟩ <;>
      simp only [FdselectPipe.chan, hsame _ _ (Or.inl rfl), hsame _ _ (Or.inr rfl)]
  unfold fdselectPipeCloseSock
  rw [hsel]
  dsimp only
  split
  · exact ⟨hacts, fun w ev hrw => (hsame w ev hrw).trans (hnone w ev hrw)⟩
  · cases closeSocks with
    | false => exact ⟨hacts, fun w ev hrw => (hsame w ev hrw).trans (hnone w ev hrw)⟩
    | true =>
        have hemit : Acts x { p with fdselect := sel }
            (({ p with fdselect := sel } : FdselectPipe).emit (.sockClose z))
            (({ p with fdselect := sel } : FdselectPipe).chan x) :=
          acts_emit hacts.ok fun _ => rfl
        rw [hacts.here] at hemit
        exact ⟨hacts.trans hemit, fun w ev hrw => (hsame w ev hrw).trans (hnone w ev hrw)⟩

/-- The end of a handler changes no channel. -/
theorem acts_closedCallback (h : p.Ok) (x : Side) (hreg : ∀ z, (p.chan z).RegOk) :
    Acts x p (fdselectPipeClosedCallback allocOk p) (p.chan x) := by
  have htouch : Acts x p (p.emit .touch) (p.chan x) := acts_emit h fun _ => rfl
  unfold fdselectPipeClosedCallback
  dsimp only
  split
  · rename_i hclosed
    split
    · have hcall : Acts x (p.emit .touch) ((p.emit .touch).emit .closedCallback)
          ((p.emit .touch).chan x) := acts_emit htouch.ok fun _ => rfl
      rw [htouch.here] at hcall
      exact htouch.trans hcall
    · -- Without a callback the pipe is closed here.
      have hflags : ∀ z, (p.sock z).selectRead = false ∧ (p.sock z).selectWrite = false := by
        unfold fdselectPipeClosed at hclosed
        simp only [Bool.not_eq_true', Bool.or_eq_false_iff] at hclosed
        obtain ⟨⟨⟨h0r, h0w⟩, h1r⟩, h1w⟩ := hclosed
        intro z
        cases z
        · exact ⟨h0r, h0w⟩
        · exact ⟨h1r, h1w⟩
      have hnone : ∀ z ev, IsRw ev →
          fdselectFunc (p.emit .touch).fdselect ((p.emit .touch).sock z).sock ev = none := by
        rintro z ev (rfl | rfl)
        · exact (hreg z).read (Or.inl (hflags z).1)
        · have hwrite := (hreg z.peer).write (by
            show (p.sock z.peer.peer).selectWrite = false
            rw [Side.peer_peer]; exact (hflags z).2)
          unfold FdselectPipe.chan at hwrite
          rw [Side.peer_peer] at hwrite
          exact hwrite
      obtain ⟨hacts₁, hnone₁⟩ := acts_closeSock allocOk htouch.ok x .zero true hnone
      rw [htouch.here] at hacts₁
      unfold fdselectPipeClose
      generalize fdselectPipeCloseSock allocOk (p.emit .touch) true .zero = r at hacts₁ hnone₁
      obtain ⟨q, ok⟩ := r
      cases ok with
      | false => exact htouch.trans hacts₁
      | true =>
          obtain ⟨hacts₂, -⟩ := acts_closeSock allocOk hacts₁.ok x .one true hnone₁
          rw [hacts₁.here] at hacts₂
          exact htouch.trans (hacts₁.trans hacts₂)
  · exact htouch

end

/-- The channel of a new pipe before its reading is registered. -/
def newChan (buf : Int → UInt8) (max : Int) : Chan where
  errRead := false
  selectRead := false
  errReadDone := false
  buf := buf
  off := 0
  len := 0
  max := max
  errWrite := false
  selectWrite := false
  readFunc := none
  writeFunc := none
  trace := []

/-- What `fdselect_pipe_init` makes of two descriptors without an entry: both channels read, or
there was no memory to register one of them. -/
theorem fdselectPipeInit_spec (allocOk : Nat → Bool) {sel : Fdselect PipeFunc} (hwf : sel.Wf)
    (callback : Bool) {sock0 sock1 : Int} (hne : sock0 ≠ sock1) (h0 : sel.entry sock0 = none)
    (h1 : sel.entry sock1 = none) (buf0 buf1 : Int → UInt8) (max0 max1 : Int) :
    ∃ p, fdselectPipeInit allocOk sel callback sock0 buf0 max0 sock1 buf1 max1 = p ∧ p.Ok ∧
      (((p.chan .zero = { newChan buf0 max0 with
            selectRead := true, readFunc := some (.sockRead .zero) }) ∧
          p.chan .one = { newChan buf1 max1 with
            selectRead := true, readFunc := some (.sockRead .one) }) ∨
        (∃ n, allocOk n = false) ∧ (p.chan .zero).RegOk ∧ (p.chan .one).RegOk) := by
  -- before the registrations, both channels are empty
  have hp : FdselectPipe.Ok
      { fdselect := sel
        sock := pipeNewSocks sock0 buf0 max0 sock1 buf1 max1
        callback := callback
        trace := [] } := ⟨hwf, hne⟩
  have hzero : FdselectPipe.chan
      { fdselect := sel
        sock := pipeNewSocks sock0 buf0 max0 sock1 buf1 max1
        callback := callback
        trace := [] } .zero = newChan buf0 max0 := by
    simp [FdselectPipe.chan, pipeNewSocks, pipeNewSock, newChan, hwf.fdselectFunc_eq, h0, h1, Side.peer]
  have hone : FdselectPipe.chan
      { fdselect := sel
        sock := pipeNewSocks sock0 buf0 max0 sock1 buf1 max1
        callback := callback
        trace := [] } .one = newChan buf1 max1 := by
    simp [FdselectPipe.chan, pipeNewSocks, pipeNewSock, newChan, hwf.fdselectFunc_eq, h0, h1, Side.peer]
  have hnew : ∀ (buf : Int → UInt8) (max : Int), (newChan buf max).RegOk :=
    fun _ _ => ⟨fun _ => rfl, fun _ => rfl⟩
  unfold fdselectPipeInit
  dsimp only
  generalize ({ fdselect := sel
                sock := pipeNewSocks sock0 buf0 max0 sock1 buf1 max1
                callback := callback
                trace := [] } : FdselectPipe) = p at hp hzero hone
  obtain ⟨q, r, hq, hcases⟩ := acts_initSock allocOk hp .zero
  rw [hq, hzero] at *
  rcases hcases with ⟨rfl, hacts⟩ | ⟨rfl, hfail, hacts⟩
  · -- the second socket is registered only if the first one was
    obtain ⟨u, r', hu, hcases'⟩ := acts_initSock allocOk hacts.ok .one
    have hqone : q.chan .one = newChan buf1 max1 := hacts.other.trans hone
    rw [hqone] at hcases'
    refine ⟨u, by simp [hu], ?_⟩
    rcases hcases' with ⟨rfl, hacts'⟩ | ⟨rfl, hfail, hacts'⟩
    · exact ⟨hacts'.ok, Or.inl ⟨hacts'.other.trans hacts.here, hacts'.here⟩⟩
    · refine ⟨hacts'.ok, Or.inr ⟨hfail, ?_, ?_⟩⟩
      · rw [show u.chan .zero = _ from hacts'.other.trans hacts.here]
        exact ⟨fun hf => absurd hf (by simp [newChan]), fun _ => rfl⟩
      · rw [hacts'.here]; exact ⟨fun hf => absurd hf (by simp [newChan]), fun _ => rfl⟩
  · refine ⟨q, rfl, hacts.ok, Or.inr ⟨hfail, ?_, ?_⟩⟩
    · rw [hacts.here]; exact ⟨fun hf => absurd hf (by simp [newChan]), fun _ => rfl⟩
    · rw [show q.chan .one = _ from hacts.other.trans hone]; exact hnew _ _

/-! ### Handlers that do not run out of memory -/

section
variable {p : FdselectPipe}

/-- Both channels have no registration without its flag. -/
theorem regOk_both {x : Side} (hx : (p.chan x).RegOk) (hy : (p.chan x.peer).RegOk) (z : Side) :
    (p.chan z).RegOk := by
  rcases Side.eq_or_eq_peer x z with rfl | rfl
  · exact hx
  · exact hy

theorem Chan.RegOk.writeStep {c : Chan} (h : c.RegOk) (x : Side) (sends : List SendResult) :
    (c.write x sends).RegOk := (h.sendLoop sends).writeFlags x

/-- The write handler of `x`'s peer is the write step of the channel that reads from `x`. -/
theorem acts_sockWrite (h : p.Ok) (hreg : ∀ z, (p.chan z).RegOk) (x : Side)
    (sends : List SendResult) :
    Acts x p (fdselectPipeSockWrite (fun _ => true) x.peer sends p)
      ((p.chan x).write x sends) := by
  have htouch : Acts x p (p.emit .touch) (p.chan x) := acts_emit h fun _ => rfl
  have hsend := acts_sendLoop (fun _ => true) x sends htouch.ok
  rw [htouch.here] at hsend
  have hsend' := htouch.trans hsend
  obtain ⟨q, ok, hq, hcases⟩ := acts_writeFlags (fun _ => true) hsend'.ok x (by
    rw [hsend'.here]; exact (hreg x).sendLoop sends)
  unfold fdselectPipeSockWrite
  dsimp only
  rw [hq]
  rcases hcases with ⟨rfl, hflags⟩ | ⟨-, ⟨n, hfail⟩, -⟩
  · rw [hsend'.here] at hflags
    have hall := hsend'.trans hflags
    have hclosed := acts_closedCallback (fun _ => true) hall.ok x fun z => regOk_both (x := x)
      (by rw [hall.here]; exact (hreg x).writeStep x sends)
      (by rw [hall.other]; exact hreg x.peer) z
    rw [hall.here] at hclosed
    exact hall.trans hclosed
  · exact absurd hfail (by decide)

/-- The read handler of `x` is the read step of the channel that reads from `x`. -/
theorem acts_sockRead (h : p.Ok) (hreg : ∀ z, (p.chan z).RegOk) (x : Side)
    (recvs : List RecvResult) (sends : List SendResult) :
    Acts x p (fdselectPipeSockRead (fun _ => true) x recvs sends p)
      ((p.chan x).read x recvs sends) := by
  have htouch : Acts x p (p.emit .touch) (p.chan x) := acts_emit h fun _ => rfl
  have hrecv := acts_recvLoop (fun _ => true) x recvs htouch.ok
  rw [htouch.here] at hrecv
  have hrecv' := htouch.trans hrecv
  have hregrecv := (hreg x).recvLoop recvs
  have hwrite := acts_sockWrite hrecv'.ok (fun z => regOk_both (x := x)
    (by rw [hrecv'.here]; exact hregrecv) (by rw [hrecv'.other]; exact hreg x.peer) z) x sends
  rw [hrecv'.here] at hwrite
  have hwrite' := hrecv'.trans hwrite
  have htouch' : Acts x _ ((fdselectPipeSockWrite (fun _ => true) x.peer sends
      (pipeRecvLoop (fun _ => true) x recvs (p.emit .touch))).emit .touch) _ :=
    acts_emit hwrite'.ok fun _ => rfl
  rw [hwrite'.here] at htouch'
  have hwrite'' := hwrite'.trans htouch'
  obtain ⟨q, ok, hq, hcases⟩ := acts_readFlags (fun _ => true) hwrite''.ok x
  unfold fdselectPipeSockRead
  dsimp only
  rw [hq]
  rcases hcases with ⟨rfl, hflags⟩ | ⟨-, ⟨n, hfail⟩, -⟩
  · rw [hwrite''.here] at hflags
    have hall := hwrite''.trans hflags
    have hclosed := acts_closedCallback (fun _ => true) hall.ok x fun z => regOk_both (x := x)
      (by rw [hall.here]; exact (hregrecv.writeStep x sends).readFlags x)
      (by rw [hall.other]; exact hreg x.peer) z
    rw [hall.here] at hclosed
    exact hall.trans hclosed
  · exact absurd hfail (by decide)

end

end Bklib
