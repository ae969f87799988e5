import Bklib.Model.FdselectSelect
import Bklib.Proofs.Fdselect

/-!
# `Bklib.Proofs.FdselectMap`: the table as a map of registrations

`RegMap` is what a table is for: the callback most recently set for each descriptor and event. One
entry has one slot for the callbacks of `FDSELECT_READ` and `FDSELECT_ADDRESS_LIST_CHANGE`, so a call
that names one of the two while the other is registered takes the other's callback as well.
`FdAct.Separate` rules that out, and is exactly what a step needs: `faithful_step_iff`.
-/

set_option autoImplicit false

namespace Bklib

variable {φ : Type}

/-! ## The map -/

/-- The callback of each descriptor and event. -/
abbrev RegMap (φ : Type) := Int → FdEvents → Option φ

/-- One of the three events. -/
def IsFdEvent (event : FdEvents) : Prop :=
  event = fdselectREAD ∨ event = fdselectWRITE ∨ event = fdselectADDRESS

/-- The events that share the slot for reading. -/
def SharesRead (event : FdEvents) : Prop := event = fdselectREAD ∨ event = fdselectADDRESS

/-- `FDSELECT_READ | FDSELECT_ADDRESS_LIST_CHANGE`. -/
def readSlot : FdEvents := fdselectREAD ||| fdselectADDRESS

/-- A set of the three events only. -/
def KnownEvents (events : FdEvents) : Prop :=
  events &&& ~~~(fdselectREAD ||| fdselectWRITE ||| fdselectADDRESS) = 0

/-- No events mean all events to `fdselect_unset`. -/
def unsetEventsOf (events : FdEvents) : FdEvents := if events = 0 then fdselectALL else events

/-- The map with the callback of some events of `fd` replaced. -/
def RegMap.set (m : RegMap φ) (fd : Int) (events : FdEvents) (func : Option φ) : RegMap φ :=
  fun fd' ev => if fd' = fd ∧ events &&& ev ≠ 0 then func else m fd' ev

/-- What a call registers. -/
def FdAct.register (m : RegMap φ) : FdAct φ → RegMap φ
  | .set fd events func => m.set fd (eventsOf events) func
  | .unset fd events    => m.set fd (unsetEventsOf events) none
  | .clear              => fun _ _ => none
  | .brk                => m

/-- What is registered after some calls, with nothing before them. -/
def regMap (acts : List (FdAct φ)) : RegMap φ := acts.foldl FdAct.register fun _ _ => none

/-- A call with a set of the three events. -/
def FdAct.Known : FdAct φ → Prop
  | .set _ events _ => KnownEvents events
  | _               => True

/-- An event of the slot for reading that a call on `events` of `fd` does not name is not
registered, or has this very callback. -/
def EventKept (sel : Fdselect φ) (fd : Int) (events : FdEvents) (func : Option φ)
    (ev : FdEvents) : Prop :=
  events &&& ev = 0 → fdselectFunc sel fd ev = none ∨ fdselectFunc sel fd ev = func

/-- A call on `events` of `fd` with `func` leaves the events that it does not name their callback:
it does not use the slot for reading, or both events of the slot are kept. -/
def SlotKept (sel : Fdselect φ) (fd : Int) (events : FdEvents) (func : Option φ) : Prop :=
  events &&& readSlot ≠ 0 →
    EventKept sel fd events func fdselectREAD ∧ EventKept sel fd events func fdselectADDRESS

/-- A call that takes no callback from an event it does not name. -/
def FdAct.Separate (sel : Fdselect φ) : FdAct φ → Prop
  | .set fd events func => SlotKept sel fd (eventsOf events) func
  | .unset fd events    => SlotKept sel fd (unsetEventsOf events) none
  | _                   => True

instance [DecidableEq φ] (sel : Fdselect φ) (fd : Int) (events : FdEvents) (func : Option φ)
    (ev : FdEvents) : Decidable (EventKept sel fd events func ev) :=
  inferInstanceAs (Decidable (_ → _ ∨ _))

instance [DecidableEq φ] (sel : Fdselect φ) (fd : Int) (events : FdEvents) (func : Option φ) :
    Decidable (SlotKept sel fd events func) :=
  inferInstanceAs (Decidable (_ → _ ∧ _))

instance [DecidableEq φ] (sel : Fdselect φ) : (act : FdAct φ) → Decidable (act.Separate sel)
  | .set fd events func => inferInstanceAs (Decidable (SlotKept sel fd (eventsOf events) func))
  | .unset fd events    => inferInstanceAs (Decidable (SlotKept sel fd (unsetEventsOf events) none))
  | .clear              => .isTrue trivial
  | .brk                => .isTrue trivial

/-! ## Entries -/

/-- An event is one bit of the mask. -/
theorem IsFdEvent.bit {event : FdEvents} (h : IsFdEvent event) :
    ∃ i, i < 32 ∧ ∀ x : FdEvents, x &&& event ≠ 0 ↔ x.getLsbD i = true := by
  rcases h with rfl | rfl | rfl
  · exact ⟨0, by decide, fun x => and_twoPow_ne_zero x 0 (by decide)⟩
  · exact ⟨1, by decide, fun x => and_twoPow_ne_zero x 1 (by decide)⟩
  · exact ⟨2, by decide, fun x => and_twoPow_ne_zero x 2 (by decide)⟩

theorem SharesRead.isFdEvent {event : FdEvents} (h : SharesRead event) : IsFdEvent event :=
  h.elim Or.inl fun h => Or.inr (Or.inr h)

theorem SharesRead.ne_write {event : FdEvents} (h : SharesRead event) : event ≠ fdselectWRITE := by
  rcases h with rfl | rfl <;> decide

/-- An event that is named and shares the slot names the slot. -/
theorem SharesRead.and_readSlot {event events : FdEvents} (h : SharesRead event)
    (hin : events &&& event ≠ 0) : events &&& readSlot ≠ 0 := by
  intro h0
  rw [readSlot, BitVec.and_or_distrib_left] at h0
  rcases h with rfl | rfl
  · exact hin (BitVec.or_eq_zero_iff.mp h0).1
  · exact hin (BitVec.or_eq_zero_iff.mp h0).2

instance (event : FdEvents) : Decidable (SharesRead event) := inferInstanceAs (Decidable (_ ∨ _))

/-- What `fdselect_set` makes of the callbacks of an entry, an event at a time. -/
theorem funcOf_assign_event {event : FdEvents} (h : IsFdEvent event) (f : FdselectFd φ)
    (events : FdEvents) (func : Option φ) :
    (f.assign events func).funcOf event =
      if events &&& event ≠ 0 then func
      else if f.events &&& event = 0 then none
      else if SharesRead event ∧ events &&& readSlot ≠ 0 then func
      else f.func event := by
  have hev := assign_events h.bit f events func
  have hfunc : (f.assign events func).func event =
      if event = fdselectWRITE then (if events &&& fdselectWRITE ≠ 0 then func else f.writeFunc)
      else if events &&& readSlot ≠ 0 then func else f.readFunc := rfl
  rw [FdselectFd.funcOf, hfunc]
  by_cases hin : events &&& event ≠ 0
  · rw [if_pos hin] at hev ⊢
    cases func with
    | none => rw [if_neg (by simpa using hev)]
    | some g =>
        rw [if_pos (hev.mpr rfl)]
        -- reading and the address list share a slot, and writing has its own
        rcases h with rfl | rfl | rfl
        · rw [if_neg (by decide), if_pos (SharesRead.and_readSlot (Or.inl rfl) hin)]
        · rw [if_pos rfl, if_pos hin]
        · rw [if_neg (by decide), if_pos (SharesRead.and_readSlot (Or.inr rfl) hin)]
  · rw [if_neg hin] at hev ⊢
    by_cases hold : f.events &&& event = 0
    · rw [if_pos hold, if_neg (by simpa [hold] using hev)]
    · rw [if_neg hold, if_pos (hev.mpr hold)]
      rcases h with rfl | rfl | rfl
      · have hne : fdselectREAD ≠ fdselectWRITE := by decide
        rw [if_neg hne, FdselectFd.func, if_neg hne]
        simp only [SharesRead, true_or, true_and]
      · rw [if_pos rfl, if_neg hin, FdselectFd.func, if_pos rfl, if_neg]
        exact fun hshare => SharesRead.ne_write hshare.1 rfl
      · have hne : fdselectADDRESS ≠ fdselectWRITE := by decide
        rw [if_neg hne, FdselectFd.func, if_neg hne]
        simp only [SharesRead, or_true, true_and]

/-- An entry of known events, each with a callback. -/
structure FdselectFd.Served (f : FdselectFd φ) : Prop where
  known : KnownEvents f.events
  func : ∀ ev, IsFdEvent ev → f.events &&& ev ≠ 0 → (f.funcOf ev).isSome = true

theorem served_new (fd : Int) : (⟨fd, 0, none, none⟩ : FdselectFd φ).Served :=
  ⟨by simp [KnownEvents], fun ev _ h => absurd (by simp) h⟩

/-- The events of an entry that share the slot for reading and are not named have `func`, when the
slot is used. -/
def FdselectFd.SlotKept (f : FdselectFd φ) (events : FdEvents) (func : Option φ) : Prop :=
  ∀ ev, SharesRead ev → events &&& readSlot ≠ 0 → events &&& ev = 0 →
    f.funcOf ev = none ∨ f.funcOf ev = func

/-- With the slot kept, `fdselect_set` replaces the callbacks it names and no other. -/
theorem FdselectFd.SlotKept.funcOf_assign {f : FdselectFd φ} {events : FdEvents} {func : Option φ}
    (hserved : f.Served) (h : f.SlotKept events func) {event : FdEvents} (hevent : IsFdEvent event) :
    (f.assign events func).funcOf event =
      if events &&& event ≠ 0 then func else f.funcOf event := by
  rw [funcOf_assign_event hevent]
  by_cases hin : events &&& event ≠ 0
  · rw [if_pos hin, if_pos hin]
  · rw [if_neg hin, if_neg hin]
    by_cases hold : f.events &&& event = 0
    · rw [if_pos hold, FdselectFd.funcOf, if_neg (not_not.mpr hold)]
    · have hsome := hserved.func event hevent hold
      rw [if_neg hold]
      split
      next hslot =>
        rcases h event hslot.1 hslot.2 (not_not.mp hin) with hnone | hsame
        · rw [hnone] at hsome
          exact absurd hsome (by simp)
        · exact hsame.symm
      next => rw [FdselectFd.funcOf, if_pos hold]

/-- An assignment keeps the events known. -/
theorem known_assign {f : FdselectFd φ} {events : FdEvents} {func : Option φ}
    (hf : KnownEvents f.events) (hevents : func.isSome = true → KnownEvents events) :
    KnownEvents (f.assign events func).events := by
  unfold KnownEvents at *
  cases func with
  | none =>
      show f.events &&& ~~~events &&& _ = 0
      rw [BitVec.and_assoc, BitVec.and_comm (~~~events), ← BitVec.and_assoc, hf]
      simp
  | some g =>
      show (f.events ||| events) &&& _ = 0
      rw [BitVec.and_comm, BitVec.and_or_distrib_left, BitVec.and_comm, hf, BitVec.and_comm,
        hevents rfl]
      simp

/-- An assignment that leaves the other slots keeps every event served. -/
theorem FdselectFd.SlotKept.served {f : FdselectFd φ} {events : FdEvents} {func : Option φ}
    (hserved : f.Served) (h : f.SlotKept events func)
    (hevents : func.isSome = true → KnownEvents events) : (f.assign events func).Served := by
  refine ⟨known_assign hserved.known hevents, fun ev hev hbit => ?_⟩
  have hnew := (assign_events hev.bit f events func).mp hbit
  rw [h.funcOf_assign hserved hev]
  by_cases hin : events &&& ev ≠ 0
  · rw [if_pos hin] at hnew ⊢
    exact hnew
  · rw [if_neg hin] at hnew ⊢
    exact hserved.func ev hev hnew

/-! ## Tables -/

/-- The table registers what the map says: no two entries of one descriptor, none without events,
the right count, and the callbacks of the map. -/
structure Faithful (sel : Fdselect φ) (m : RegMap φ) : Prop where
  wf : sel.Wf
  served : ∀ f ∈ sel.fdArray, f.Served
  func : ∀ fd ev, IsFdEvent ev → fdselectFunc sel fd ev = m fd ev

theorem faithful_fdselectInit : Faithful (fdselectInit : Fdselect φ) fun _ _ => none :=
  ⟨wf_fdselectInit, fun _ h => absurd h List.not_mem_nil, fun _ _ _ => rfl⟩

/-- The entry of a descriptor, or the new one that `fdselect_set` adds. -/
def Fdselect.entryOrNew (sel : Fdselect φ) (fd : Int) : FdselectFd φ :=
  (sel.entry fd).getD ⟨fd, 0, none, none⟩

section Step

variable {sel : Fdselect φ} {m : RegMap φ}

theorem Faithful.served_entry (h : Faithful sel m) (fd : Int) : (sel.entryOrNew fd).Served := by
  unfold Fdselect.entryOrNew
  cases hentry : sel.entry fd with
  | none => exact served_new fd
  | some f => exact h.served f (h.wf.entry_eq_some.mp hentry).1

/-- An entry that is not there yet has the callbacks of none. -/
theorem Fdselect.Wf.funcOf_entryOrNew (h : sel.Wf) (fd : Int) (event : FdEvents) :
    (sel.entryOrNew fd).funcOf event = fdselectFunc sel fd event := by
  rw [h.fdselectFunc_eq, Fdselect.entryOrNew]
  cases sel.entry fd with
  | none => simp [FdselectFd.funcOf]
  | some f => rfl

/-- Whether a call keeps the other slots, by the entry it changes. -/
theorem slotKept_entry (h : sel.Wf) {fd : Int} {events : FdEvents} {func : Option φ} :
    (sel.entryOrNew fd).SlotKept events func ↔ SlotKept sel fd events func := by
  simp only [FdselectFd.SlotKept, SlotKept, EventKept, h.funcOf_entryOrNew, SharesRead,
    forall_eq_or_imp, forall_eq]
  exact ⟨fun hkept hslot => ⟨hkept.1 hslot, hkept.2 hslot⟩,
    fun hkept => ⟨fun hslot => (hkept hslot).1, fun hslot => (hkept hslot).2⟩⟩

/-- `fdselect_set` with the memory it needs. -/
theorem fdselectSet_entry (h : sel.Wf) (fd : Int) (events : FdEvents) (func : Option φ) :
    (fdselectSet (fun _ => true) sel fd events func).1.Wf ∧
      ∀ fd', (fdselectSet (fun _ => true) sel fd events func).1.entry fd' =
        if fd' = fd then ((sel.entryOrNew fd).assign (eventsOf events) func).keep
        else sel.entry fd' := by
  obtain ⟨s, r, hset, hwf, hcases⟩ := fdselectSet_spec (fun _ => true) h fd events func
  rw [hset]
  rcases hcases with ⟨-, hok, -, -⟩ | ⟨-, hentry⟩
  · exact absurd hok (by simp)
  · exact ⟨hwf, hentry⟩

/-- The callbacks after `fdselect_set`: those of the entry it wrote, and the others as they were. -/
theorem fdselectFunc_fdselectSet (h : sel.Wf) (fd : Int) (events : FdEvents) (func : Option φ)
    (fd' : Int) (ev : FdEvents) :
    fdselectFunc (fdselectSet (fun _ => true) sel fd events func).1 fd' ev =
      if fd' = fd then ((sel.entryOrNew fd).assign (eventsOf events) func).funcOf ev
      else fdselectFunc sel fd' ev := by
  obtain ⟨hwf, hentry⟩ := fdselectSet_entry h fd events func
  rw [hwf.fdselectFunc_eq, h.fdselectFunc_eq, hentry]
  split
  · exact keep_bind_funcOf _
  · rfl

/-- `fdselect_set` follows the map when it keeps the slot for reading. -/
theorem Faithful.set (h : Faithful sel m) (fd : Int) (events : FdEvents) (func : Option φ)
    (hknown : func.isSome = true → KnownEvents (eventsOf events))
    (hkept : SlotKept sel fd (eventsOf events) func) :
    Faithful (fdselectSet (fun _ => true) sel fd events func).1
      (m.set fd (eventsOf events) func) := by
  obtain ⟨hwf, hentry⟩ := fdselectSet_entry h.wf fd events func
  have hkept' := (slotKept_entry h.wf).mpr hkept
  have hserved := h.served_entry fd
  refine ⟨hwf, fun f hf => ?_, fun fd' ev hev => ?_⟩
  · have hfind := hwf.entry_eq_some.mpr ⟨hf, rfl⟩
    rw [hentry] at hfind
    split at hfind
    next hfd =>
      unfold FdselectFd.keep at hfind
      split at hfind
      · exact absurd hfind (by simp)
      · rw [← Option.some.inj hfind]
        exact hkept'.served hserved hknown
    next hfd => exact h.served f (h.wf.entry_eq_some.mp hfind).1
  · rw [fdselectFunc_fdselectSet h.wf, RegMap.set]
    by_cases hfd : fd' = fd
    · rw [if_pos hfd, hkept'.funcOf_assign hserved hev, h.wf.funcOf_entryOrNew, h.func fd ev hev, hfd]
      simp only [true_and]
    · rw [if_neg hfd, if_neg (fun hand => hfd hand.1), h.func fd' ev hev]

/-- And only then. -/
theorem Faithful.slotKept_of_set (h : Faithful sel m) (fd : Int) (events : FdEvents)
    (func : Option φ) (h' : Faithful (fdselectSet (fun _ => true) sel fd events func).1
      (m.set fd (eventsOf events) func)) : SlotKept sel fd (eventsOf events) func := by
  rw [← slotKept_entry h.wf]
  intro ev hshare hslot hout
  rw [h.wf.funcOf_entryOrNew]
  have hm : m.set fd (eventsOf events) func fd ev = fdselectFunc sel fd ev := by
    rw [RegMap.set, if_neg (fun hand => hand.2 hout), h.func fd ev hshare.isFdEvent]
  have hfunc := h'.func fd ev hshare.isFdEvent
  rw [hm, fdselectFunc_fdselectSet h.wf, if_pos rfl, funcOf_assign_event hshare.isFdEvent,
    if_neg (not_not.mpr hout)] at hfunc
  split at hfunc
  next => exact Or.inl hfunc.symm
  next =>
    rw [if_pos ⟨hshare, hslot⟩] at hfunc
    exact Or.inr hfunc.symm

/-- The events to unset are read as themselves. -/
theorem eventsOf_unsetEventsOf (events : FdEvents) :
    eventsOf (unsetEventsOf events) = unsetEventsOf events := by
  have hne : unsetEventsOf events ≠ 0 := by
    unfold unsetEventsOf
    split
    next => decide
    next h => exact h
  exact if_neg hne

/-- A call follows the map exactly when it is separate. -/
theorem faithful_step_iff (h : Faithful sel m) {act : FdAct φ} (hknown : act.Known) :
    Faithful (act.run sel) (act.register m) ↔ act.Separate sel := by
  cases act with
  | set fd events func =>
      have hevents : KnownEvents (eventsOf events) := by
        unfold eventsOf
        split
        next =>
          show (fdselectREAD ||| fdselectWRITE) &&& _ = 0
          decide
        next => exact hknown
      exact ⟨fun h' => h.slotKept_of_set fd events func h',
        fun hkept => h.set fd events func (fun _ => hevents) hkept⟩
  | unset fd events =>
      have heq := eventsOf_unsetEventsOf events
      constructor
      · intro h'
        have hset := h.slotKept_of_set fd (unsetEventsOf events) none
          (by rw [heq]; exact h')
        rwa [heq] at hset
      · intro hkept
        have hset := h.set fd (unsetEventsOf events) none
          (fun hsome => absurd hsome (by simp)) (by rw [heq]; exact hkept)
        rwa [heq] at hset
  | clear =>
      exact ⟨fun _ => trivial, fun _ =>
        ⟨⟨List.nodup_nil, fun _ hf => absurd hf List.not_mem_nil, rfl⟩,
          fun _ hf => absurd hf List.not_mem_nil, fun _ _ _ => rfl⟩⟩
  | brk =>
      exact ⟨fun _ => trivial, fun _ =>
        ⟨⟨h.wf.nodup, h.wf.events, h.wf.count⟩, h.served, h.func⟩⟩

/-- Taking events from a descriptor that has no entry leaves the entries as they are. -/
theorem fdselectUnset_unknown {fd : Int} (habsent : sel.entry fd = none) (events : FdEvents) :
    (fdselectUnset (fun _ => true) sel fd events).1.fdArray = sel.fdArray ∧
      (fdselectUnset (fun _ => true) sel fd events).1.count = sel.count := by
  have hnone : fdselectFind sel.fdArray fd sel.fdArray.length = none := by
    cases hfind : fdselectFind sel.fdArray fd sel.fdArray.length with
    | none => rfl
    | some i =>
        obtain ⟨f, hf, hfd⟩ :=
          (fdselectFind_spec sel.fdArray fd sel.fdArray.length (Nat.le_refl _)).2 i hfind
        have hmiss := List.find?_eq_none.mp habsent f (List.mem_of_getElem? hf)
        exact absurd hfd (by simpa using hmiss)
  -- The new entry gets no events, so it is the one that is removed.
  have herase : (sel.fdArray ++ [(⟨fd, 0, none, none⟩ : FdselectFd φ)]).eraseIdx
      sel.fdArray.length = sel.fdArray := by
    rw [List.eraseIdx_append_of_length_le (Nat.le_refl _), Nat.sub_self]
    exact List.append_nil _
  have hempty : ∀ x : FdEvents, 0 &&& x = 0 := fun x => by simp
  simp only [fdselectUnset, fdselectSet, hnone, if_true, fdselectAssign, FdselectFd.assign,
    Option.isSome_none, Bool.false_eq_true, if_false, hempty, List.length_append,
    List.length_singleton, Nat.add_sub_cancel, Int.add_sub_cancel, herase, and_self]

end Step

/-! ## Runs -/

/-- A run whose calls are all separate. -/
def SeparateRun : Fdselect φ → List (FdAct φ) → Prop
  | _,   []          => True
  | sel, act :: acts => act.Separate sel ∧ SeparateRun (act.run sel) acts

instance decidableSeparateRun [DecidableEq φ] :
    (sel : Fdselect φ) → (acts : List (FdAct φ)) → Decidable (SeparateRun sel acts)
  | _,   []          => .isTrue trivial
  | sel, act :: acts =>
      have := decidableSeparateRun (act.run sel) acts
      inferInstanceAs (Decidable (act.Separate sel ∧ SeparateRun (act.run sel) acts))

/-- Separate calls with known events keep the table faithful, by induction on the calls. -/
theorem faithful_run {sel : Fdselect φ} {m : RegMap φ} (h : Faithful sel m) {acts : List (FdAct φ)}
    (hknown : ∀ act ∈ acts, act.Known) (hsep : SeparateRun sel acts) :
    Faithful (fdActs sel acts) (acts.foldl FdAct.register m) := by
  induction acts generalizing sel m with
  | nil => exact h
  | cons act acts ih =>
      have hstep := (faithful_step_iff h (hknown act List.mem_cons_self)).mpr hsep.1
      exact ih hstep (fun a ha => hknown a (List.mem_cons_of_mem act ha)) hsep.2

/-- A set of known events that is not empty has one of the three. -/
theorem KnownEvents.exists_event {events : FdEvents} (h : KnownEvents events) (hne : events ≠ 0) :
    ∃ ev, IsFdEvent ev ∧ events &&& ev ≠ 0 := by
  by_contra hnone
  have hmiss : ∀ ev, IsFdEvent ev → events &&& ev = 0 := fun ev hev =>
    not_not.mp fun hand => hnone ⟨ev, hev, hand⟩
  have hr := hmiss fdselectREAD (Or.inl rfl)
  have hw := hmiss fdselectWRITE (Or.inr (Or.inl rfl))
  have ha := hmiss fdselectADDRESS (Or.inr (Or.inr rfl))
  have hall : events &&& (fdselectREAD ||| fdselectWRITE ||| fdselectADDRESS) = 0 := by
    rw [BitVec.and_or_distrib_left, BitVec.and_or_distrib_left, hr, hw, ha]
    decide
  apply hne
  rw [← BitVec.and_allOnes (x := events), ← BitVec.or_not_self
    (fdselectREAD ||| fdselectWRITE ||| fdselectADDRESS), BitVec.and_or_distrib_left, hall, h]
  decide

/-- A descriptor has an entry exactly when something is registered for it. -/
theorem Faithful.mem_fds {sel : Fdselect φ} {m : RegMap φ} (h : Faithful sel m) (fd : Int) :
    fd ∈ sel.fdArray.map (·.fd) ↔ ∃ ev, IsFdEvent ev ∧ m fd ev ≠ none := by
  constructor
  · intro hmem
    obtain ⟨f, hf, rfl⟩ := List.mem_map.mp hmem
    obtain ⟨ev, hev, hbit⟩ := (h.served f hf).known.exists_event (h.wf.events f hf)
    have hsome := (h.served f hf).func ev hev hbit
    refine ⟨ev, hev, fun hnone => ?_⟩
    rw [← h.func f.fd ev hev, h.wf.fdselectFunc_eq, h.wf.entry_eq_some.mpr ⟨hf, rfl⟩,
      Option.bind_some] at hnone
    rw [hnone] at hsome
    exact absurd hsome (by simp)
  · rintro ⟨ev, hev, hsome⟩
    rw [← h.func fd ev hev, h.wf.fdselectFunc_eq] at hsome
    cases hentry : sel.entry fd with
    | none => rw [hentry] at hsome; exact absurd rfl hsome
    | some f =>
        obtain ⟨hf, hfd⟩ := h.wf.entry_eq_some.mp hentry
        exact List.mem_map.mpr ⟨f, hf, hfd⟩

/-- A run of separate calls leaves a table that is the map of what was most recently set for each
descriptor and event: one entry for each descriptor with an event, and none without; the count is
their number; and taking events from any other descriptor changes nothing. -/
theorem fdselect_registers {acts : List (FdAct φ)} (hknown : ∀ act ∈ acts, act.Known)
    (hsep : SeparateRun fdselectInit acts) :
    let sel := fdActs fdselectInit acts
    (∀ fd ev, IsFdEvent ev → fdselectFunc sel fd ev = regMap acts fd ev) ∧
    (sel.fdArray.map (·.fd)).Nodup ∧
    (∀ f ∈ sel.fdArray, f.events ≠ 0) ∧
    sel.count = (sel.fdArray.map (·.fd)).length ∧
    (∀ fd, fd ∈ sel.fdArray.map (·.fd) ↔ ∃ ev, IsFdEvent ev ∧ regMap acts fd ev ≠ none) ∧
    ∀ fd events, (∀ ev, IsFdEvent ev → regMap acts fd ev = none) →
      (fdselectUnset (fun _ => true) sel fd events).1.fdArray = sel.fdArray ∧
        (fdselectUnset (fun _ => true) sel fd events).1.count = sel.count := by
  intro sel
  have h : Faithful sel (regMap acts) := faithful_run faithful_fdselectInit hknown hsep
  refine ⟨h.func, h.wf.nodup, h.wf.events, by rw [List.length_map]; exact h.wf.count, h.mem_fds,
    fun fd events hnone => ?_⟩
  apply fdselectUnset_unknown
  cases hentry : sel.entry fd with
  | none => rfl
  | some f =>
      obtain ⟨hf, hfd⟩ := h.wf.entry_eq_some.mp hentry
      obtain ⟨ev, hev, hsome⟩ := (h.mem_fds fd).mp (List.mem_map.mpr ⟨f, hf, hfd⟩)
      exact absurd (hnone ev hev) hsome

theorem fdselect_registers_sample :
    fdselectFunc (fdActs fdselectInit [.set 5 fdselectREAD (some 'r'), .unset 5 fdselectWRITE,
      .set 6 fdselectADDRESS (some 'a')]) 5 fdselectREAD = some 'r' := by
  have hknown : ∀ act ∈ [FdAct.set 5 fdselectREAD (some 'r'), .unset 5 fdselectWRITE,
      .set 6 fdselectADDRESS (some 'a')], act.Known := by
    simp [FdAct.Known, KnownEvents]
    decide
  exact (fdselect_registers hknown (by decide)).1 5 fdselectREAD (Or.inl rfl)

/-- Asking for changes of the address list takes the callback for reading, and giving them up
leaves none. -/
theorem fdselect_registers_shared :
    let acts := [.set 5 fdselectREAD (some 'r'), .set 5 fdselectADDRESS (some 'a')]
    (∀ act ∈ acts, act.Known) ∧ regMap acts 5 fdselectREAD = some 'r' ∧
      fdselectFunc (fdActs fdselectInit acts) 5 fdselectREAD = some 'a' ∧
      fdselectFunc (fdActs fdselectInit (acts ++ [.unset 5 fdselectADDRESS])) 5 fdselectREAD =
        none := by
  refine ⟨by simp [FdAct.Known, KnownEvents]; decide, ?_⟩
  decide

end Bklib
