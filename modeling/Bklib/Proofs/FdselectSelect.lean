import Bklib.Proofs.FdselectMap

/-!
# `Bklib.Proofs.FdselectSelect`: what `fdselect_select_os` calls

Every call on a selector sets `select_break`, and the walk tests it after each callback. So as long
as the walk goes on no callback has made a call, the table is the one the walk began with, and the
pointer still leads into it.

Before that, every descriptor of the table is put into an `fd_set`. So the walk is made exactly when
all that is registered has a bit there (`fdselectSelectOs_calls_iff`).
-/

set_option autoImplicit false

namespace Bklib

variable {φ σ : Type}

/-! ## Tables for reading and writing -/

/-- A call about reading and writing only. -/
def FdAct.Rw : FdAct φ → Prop
  | .set _ events _ => events &&& ~~~(fdselectREAD ||| fdselectWRITE) = 0
  | .unset _ events => events &&& ~~~(fdselectREAD ||| fdselectWRITE) = 0
  | _               => True

/-- A call that names reading whenever it uses the slot for reading keeps the slot, when no change
of the address list is registered. -/
theorem slotKept_of_address {sel : Fdselect φ} {fd : Int} {events : FdEvents} {func : Option φ}
    (hnone : fdselectFunc sel fd fdselectADDRESS = none)
    (hevents : events &&& fdselectADDRESS = 0 ∨ events &&& fdselectREAD ≠ 0) :
    SlotKept sel fd events func := by
  intro hslot
  refine ⟨fun hread => ?_, fun _ => Or.inl hnone⟩
  have haddr : events &&& fdselectADDRESS = 0 := hevents.resolve_right (not_not.mpr hread)
  apply absurd _ hslot
  rw [readSlot, BitVec.and_or_distrib_left, hread, haddr]
  decide

/-- Events of reading and writing have no change of the address list among them. -/
theorem and_address_of_rw {events : FdEvents}
    (h : events &&& ~~~(fdselectREAD ||| fdselectWRITE) = 0) : events &&& fdselectADDRESS = 0 := by
  have hmask : fdselectADDRESS = ~~~(fdselectREAD ||| fdselectWRITE) &&& fdselectADDRESS := by
    decide
  rw [hmask, ← BitVec.and_assoc, h]
  simp

/-- Events of reading and writing are none of the address list. -/
theorem eventsOf_address {events : FdEvents} (h : events &&& ~~~(fdselectREAD ||| fdselectWRITE) = 0) :
    eventsOf events &&& fdselectADDRESS = 0 := by
  unfold eventsOf
  split
  next => decide
  next => exact and_address_of_rw h

/-- Events of reading and writing to unset name the address list only together with reading. -/
theorem unsetEventsOf_address {events : FdEvents}
    (h : events &&& ~~~(fdselectREAD ||| fdselectWRITE) = 0) :
    unsetEventsOf events &&& fdselectADDRESS = 0 ∨ unsetEventsOf events &&& fdselectREAD ≠ 0 := by
  unfold unsetEventsOf
  split
  next => exact Or.inr (by decide)
  next => exact Or.inl (and_address_of_rw h)

/-- A call about reading and writing is about known events. -/
theorem FdAct.Rw.known {act : FdAct φ} (h : act.Rw) : act.Known := by
  cases act with
  | set fd events func =>
      have hmask : ~~~(fdselectREAD ||| fdselectWRITE ||| fdselectADDRESS) =
          ~~~(fdselectREAD ||| fdselectWRITE) &&& ~~~fdselectADDRESS := by decide
      have hrw : events &&& ~~~(fdselectREAD ||| fdselectWRITE) = 0 := h
      show events &&& _ = 0
      rw [hmask, ← BitVec.and_assoc, hrw]
      simp
  | _ => exact trivial

/-- A call about reading and writing registers no change of the address list, and is separate. -/
theorem FdAct.Rw.step {sel : Fdselect φ} {m : RegMap φ} (h : Faithful sel m)
    (hm : ∀ fd, m fd fdselectADDRESS = none) {act : FdAct φ} (hact : act.Rw) :
    act.Separate sel ∧ ∀ fd, act.register m fd fdselectADDRESS = none := by
  have hnone : ∀ fd, fdselectFunc sel fd fdselectADDRESS = none := fun fd => by
    rw [h.func fd _ (Or.inr (Or.inr rfl)), hm]
  cases act with
  | set fd events func =>
      have haddr := eventsOf_address hact
      refine ⟨slotKept_of_address (hnone fd) (Or.inl haddr), fun fd' => ?_⟩
      show (if fd' = fd ∧ eventsOf events &&& fdselectADDRESS ≠ 0 then func else _) = none
      rw [if_neg (fun hand => hand.2 haddr), hm]
  | unset fd events =>
      refine ⟨slotKept_of_address (hnone fd) (unsetEventsOf_address hact), fun fd' => ?_⟩
      show (if fd' = fd ∧ unsetEventsOf events &&& fdselectADDRESS ≠ 0 then none else _) = none
      rw [hm, ite_self]
  | clear => exact ⟨trivial, fun _ => rfl⟩
  | brk => exact ⟨trivial, hm⟩

/-- A run about reading and writing is separate, so its table is the map of what was set, and nothing
of it is about the address list. -/
theorem register_rw {sel : Fdselect φ} {m : RegMap φ} (h : Faithful sel m)
    (hm : ∀ fd, m fd fdselectADDRESS = none) {acts : List (FdAct φ)} (hacts : ∀ act ∈ acts, act.Rw) :
    Faithful (fdActs sel acts) (acts.foldl FdAct.register m) ∧
      ∀ fd, acts.foldl FdAct.register m fd fdselectADDRESS = none := by
  induction acts generalizing sel m with
  | nil => exact ⟨h, hm⟩
  | cons act acts ih =>
      have hact := hacts act List.mem_cons_self
      obtain ⟨hsep, hm'⟩ := hact.step h hm
      exact ih ((faithful_step_iff h hact.known).mpr hsep) hm'
        fun a ha => hacts a (List.mem_cons_of_mem act ha)

/-! ## Sets of descriptors -/

/-- Every descriptor that is registered for reading or writing has a bit in an `fd_set`. -/
def RegMap.InSets (m : RegMap φ) : Prop :=
  ∀ fd event func, IsRw event → m fd event = some func → FdInSet fd

section Sets

variable {sel : Fdselect φ} {m : RegMap φ}

/-- What a table registers for a descriptor that has an entry is in this entry. -/
theorem Faithful.funcOf_eq (h : Faithful sel m) {f : FdselectFd φ} (hf : f ∈ sel.fdArray)
    {event : FdEvents} (hevent : IsFdEvent event) : f.funcOf event = m f.fd event := by
  rw [← h.func f.fd event hevent, h.wf.fdselectFunc_eq, h.wf.entry_eq_some.mpr ⟨hf, rfl⟩,
    Option.bind_some]

/-- Where nothing is about the address list, every entry is there for reading or for writing. -/
theorem Faithful.exists_rw (h : Faithful sel m) (hm : ∀ fd, m fd fdselectADDRESS = none)
    {f : FdselectFd φ} (hf : f ∈ sel.fdArray) :
    ∃ event func, IsRw event ∧ f.events &&& event ≠ 0 ∧ m f.fd event = some func := by
  have hserved := h.served f hf
  obtain ⟨event, hevent, hin⟩ := hserved.known.exists_event (h.wf.events f hf)
  have hsome := hserved.func event hevent hin
  rw [h.funcOf_eq hf hevent] at hsome
  obtain ⟨func, hfunc⟩ := Option.isSome_iff_exists.mp hsome
  rcases hevent with rfl | rfl | rfl
  · exact ⟨_, func, Or.inl rfl, hin, hfunc⟩
  · exact ⟨_, func, Or.inr rfl, hin, hfunc⟩
  · exact absurd ((hm f.fd).symm.trans hfunc) (by simp)

/-- The descriptors of the map are those of the entries. -/
theorem Faithful.inSets_iff (h : Faithful sel m) (hm : ∀ fd, m fd fdselectADDRESS = none) :
    m.InSets ↔ ∀ f ∈ sel.fdArray, FdInSet f.fd := by
  constructor
  · intro hin f hf
    obtain ⟨event, func, hrw, -, hfunc⟩ := h.exists_rw hm hf
    exact hin f.fd event func hrw hfunc
  · intro hall fd event func hrw hfunc
    have hevent : IsFdEvent event := hrw.elim Or.inl fun hwrite => Or.inr (Or.inl hwrite)
    rw [← h.func fd event hevent, h.wf.fdselectFunc_eq] at hfunc
    obtain ⟨f, hentry, -⟩ := Option.bind_eq_some_iff.mp hfunc
    obtain ⟨hf, rfl⟩ := h.wf.entry_eq_some.mp hentry
    exact hall f hf

/-- `FD_SET` stays within the sets exactly when every descriptor that is registered has a bit. -/
theorem Faithful.setsFit_iff (h : Faithful sel m) (hm : ∀ fd, m fd fdselectADDRESS = none) :
    fdselectSetsFit sel = true ↔ m.InSets := by
  rw [h.inSets_iff hm, fdselectSetsFit, List.all_eq_true]
  refine forall₂_congr fun f hf => ?_
  obtain ⟨event, func, hrw, hin, -⟩ := h.exists_rw hm hf
  -- an entry for reading or writing is put into a set
  have hset : ¬f.events &&& (fdselectREAD ||| fdselectWRITE) = 0 := by
    intro hzero
    rw [BitVec.and_or_distrib_left] at hzero
    obtain ⟨hread, hwrite⟩ := BitVec.or_eq_zero_iff.mp hzero
    rcases hrw with rfl | rfl
    · exact hin hread
    · exact hin hwrite
  rw [Bool.and_eq_true, Bool.or_eq_true, beq_iff_eq, or_iff_right hset, decide_eq_true_iff,
    decide_eq_true_iff, FdInSet, and_comm]

end Sets

/-! ## Calls of callbacks -/

theorem selectBreak_fdselectAssign {sel : Fdselect φ} (h : sel.selectBreak = true) (i : Nat)
    (f : FdselectFd φ) (events : FdEvents) (func : Option φ) :
    (fdselectAssign sel i f events func).selectBreak = true := by
  unfold fdselectAssign
  split <;> exact h

/-- A registration makes `select` return. -/
theorem selectBreak_fdselectSet (sel : Fdselect φ) (fd : Int) (events : FdEvents)
    (func : Option φ) : (fdselectSet (fun _ => true) sel fd events func).1.selectBreak = true := by
  simp only [fdselectSet, if_true]
  split
  · split
    · exact selectBreak_fdselectAssign rfl _ _ _ _
    · rfl
  · exact selectBreak_fdselectAssign rfl _ _ _ _

/-- Every call on a selector asks the walk to stop. -/
theorem selectBreak_run (sel : Fdselect φ) (act : FdAct φ) : (act.run sel).selectBreak = true := by
  cases act with
  | set fd events func => exact selectBreak_fdselectSet sel fd events func
  | unset fd events => exact selectBreak_fdselectSet _ fd _ none
  | clear => rfl
  | brk => rfl

theorem selectBreak_fdActs (sel : Fdselect φ) {acts : List (FdAct φ)} (hne : acts ≠ []) :
    (fdActs sel acts).selectBreak = true := by
  rw [fdActs, ← List.dropLast_append_getLast hne, List.foldl_append]
  exact selectBreak_run _ _

/-- The walk while no callback has made a call. -/
structure FdWalk.Fresh (w : FdWalk φ σ) (sel : Fdselect φ) : Prop where
  sel : w.sel = sel
  acts : w.acts = []
  stale : w.stale = false

/-- The call that the walk makes for an event of an entry. -/
def callOf (isset : Bool) (fd : Int) (event : FdEvents) (func : Option φ) : List (FdCall φ) :=
  if isset then (func.map fun func => ⟨fd, event, func, []⟩).toList else []

/-- An entry gives a call exactly when its bit is set and its function there. -/
theorem mem_callOf {isset : Bool} {fd : Int} {event : FdEvents} {func : Option φ} {c : FdCall φ} :
    c ∈ callOf isset fd event func ↔
      isset = true ∧ c.fd = fd ∧ c.event = event ∧ func = some c.func ∧ c.before = [] := by
  cases isset with
  | false => simp [callOf]
  | true =>
      cases func with
      | none => simp [callOf]
      | some func =>
          simp only [callOf, if_true, Option.map_some, Option.toList_some, List.mem_singleton,
            true_and, Option.some.injEq]
          constructor
          · rintro rfl
            exact ⟨rfl, rfl, rfl, rfl⟩
          · rintro ⟨rfl, rfl, rfl, hbefore⟩
            cases c
            simp only at hbefore
            rw [hbefore]

/-- One event of one entry: the walk has made the call, and goes on only if nothing has changed. -/
theorem FdWalk.Fresh.invoke {w : FdWalk φ σ} {sel : Fdselect φ} (h : w.Fresh sel)
    (callback : FdCallback φ σ) (isset : Bool) (fd : Int) (event : FdEvents) (func : Option φ) :
    let w' := if isset then w.invoke callback fd event func else w
    w'.calls = w.calls ++ callOf isset fd event func ∧ (w'.sel.selectBreak = false → w'.Fresh sel) := by
  cases isset with
  | false => exact ⟨by simp [callOf], fun _ => h⟩
  | true =>
      cases func with
      | none => exact ⟨by simp [callOf, FdWalk.invoke], fun _ => h⟩
      | some func =>
          refine ⟨by simp [callOf, FdWalk.invoke, h.acts], fun hgo => ?_⟩
          simp only [FdWalk.invoke, if_true, h.sel] at hgo ⊢
          have hnil : (callback w.env sel func fd event).2 = [] := by
            by_contra hne
            rw [selectBreak_fdActs sel hne] at hgo
            exact absurd hgo (by simp)
          rw [hnil]
          exact ⟨rfl, by rw [h.acts]; rfl, by rw [h.stale]; rfl⟩

/-! ## The walk -/

/-- The calls for one entry. -/
def entryCalls (ready : FdReady) (f : FdselectFd φ) : List (FdCall φ) :=
  callOf (ready.rfds f.fd) f.fd fdselectREAD f.readFunc ++
    callOf (ready.wfds f.fd) f.fd fdselectWRITE f.writeFunc

/-- Calls one after the other, up to the first whose callback makes a call on the selector. -/
def FdWalk.serve (callback : FdCallback φ σ) : List (FdCall φ) → FdWalk φ σ → FdWalk φ σ
  | [],      w => w
  | c :: cs, w =>
      let w := w.invoke callback c.fd c.event (some c.func)
      if w.sel.selectBreak then w else FdWalk.serve callback cs w

/-- One event of one entry, and what follows it. -/
theorem FdWalk.serve_callOf {w : FdWalk φ σ} (hgo : w.sel.selectBreak = false)
    (callback : FdCallback φ σ) (isset : Bool) (fd : Int) (event : FdEvents) (func : Option φ)
    (cs : List (FdCall φ)) :
    FdWalk.serve callback (callOf isset fd event func ++ cs) w =
      let w' := if isset then w.invoke callback fd event func else w
      if w'.sel.selectBreak then w' else FdWalk.serve callback cs w' := by
  cases isset with
  | false => simp [callOf, hgo]
  | true =>
      cases func with
      | none => simp [callOf, FdWalk.invoke, hgo]
      | some func => rfl

/-- The walk never follows a pointer into a table that has changed. It makes the calls of the entries
from the last one on, up to the point where a callback makes a call on the selector. -/
theorem fdselectWalk_eq_serve (callback : FdCallback φ σ) (ready : FdReady) {sel : Fdselect φ}
    (hwf : sel.Wf) (hsets : ∀ f ∈ sel.fdArray, FdInSet f.fd) (hsel : sel.selectBreak = false) {i : Nat}
    (hi : i ≤ sel.fdArray.length) {w : FdWalk φ σ} (h : w.Fresh sel) :
    fdselectWalk callback ready i w =
      some (FdWalk.serve callback ((sel.fdArray.take i).reverse.flatMap (entryCalls ready)) w) := by
  induction i generalizing w with
  | zero => rfl
  | succ i ih =>
      have hget : sel.fdArray[i]? = some sel.fdArray[i] := List.getElem?_eq_getElem hi
      generalize hf : sel.fdArray[i] = f at hget
      have hderef : ∀ {v : FdWalk φ σ}, v.Fresh sel → v.deref i = some f := fun hv => by
        simp only [FdWalk.deref, hv.stale, hv.sel, Bool.false_eq_true, if_false, hget]
      have hevents : ¬f.events = 0 := hwf.events f (List.mem_of_getElem? hget)
      have hset : ¬¬FdInSet f.fd := not_not.mpr (hsets f (List.mem_of_getElem? hget))
      have hcalls : (sel.fdArray.take (i + 1)).reverse.flatMap (entryCalls ready) =
          callOf (ready.rfds f.fd) f.fd fdselectREAD f.readFunc ++
            (callOf (ready.wfds f.fd) f.fd fdselectWRITE f.writeFunc ++
              (sel.fdArray.take i).reverse.flatMap (entryCalls ready)) := by
        rw [← List.take_append_getElem hi, hf, List.reverse_append, List.reverse_singleton,
          List.singleton_append, List.flatMap_cons, entryCalls, List.append_assoc]
      obtain ⟨-, hfresh⟩ := h.invoke callback (ready.rfds f.fd) f.fd fdselectREAD f.readFunc
      rw [hcalls, FdWalk.serve_callOf (by rw [h.sel, hsel])]
      simp only [fdselectWalk, hderef h, if_neg hevents, if_neg hset]
      generalize (if ready.rfds f.fd = true then w.invoke callback f.fd fdselectREAD f.readFunc
        else w) = w1 at hfresh ⊢
      -- a read callback that sets `select_break` ends the walk
      cases hbreak : w1.sel.selectBreak with
      | true => rw [if_pos rfl, if_pos rfl]
      | false =>
          have hw1 := hfresh hbreak
          obtain ⟨-, hfresh2⟩ := hw1.invoke callback (ready.wfds f.fd) f.fd fdselectWRITE f.writeFunc
          rw [FdWalk.serve_callOf hbreak]
          simp only [Bool.false_eq_true, if_false, hderef hw1]
          generalize (if ready.wfds f.fd = true then w1.invoke callback f.fd fdselectWRITE f.writeFunc
            else w1) = w2 at hfresh2 ⊢
          -- and so does a write callback
          cases hbreak2 : w2.sel.selectBreak with
          | true => rw [if_pos rfl, if_pos rfl]
          | false =>
              rw [if_neg (by simp), if_neg (by simp)]
              exact ih (by omega) (hfresh2 hbreak2)

/-- What a walk has done that began with the table `sel` and was to make the calls `cs`: it has made
the first `calls` of these, and only the last one may have made calls on the selector. -/
structure FdWalk.Served (callback : FdCallback φ σ) (sel : Fdselect φ) (cs : List (FdCall φ))
    (w w' : FdWalk φ σ) (calls : List (FdCall φ)) : Prop where
  made  : w'.calls = w.calls ++ calls
  first : calls <+: cs
  whole : w'.acts = [] → calls = cs
  quiet : calls = [] → w'.acts = []
  table : w'.sel = fdActs sel w'.acts
  own   : ∀ act ∈ w'.acts, ∃ env sel func fd event, act ∈ (callback env sel func fd event).2

/-- From a fresh walk the calls of a list are served in their order. -/
theorem FdWalk.Fresh.served {w : FdWalk φ σ} {sel : Fdselect φ} (h : w.Fresh sel)
    (hsel : sel.selectBreak = false) (callback : FdCallback φ σ) {cs : List (FdCall φ)}
    (hcs : ∀ c ∈ cs, c.before = []) :
    ∃ calls, FdWalk.Served callback sel cs w (FdWalk.serve callback cs w) calls := by
  induction cs generalizing w with
  | nil =>
      refine ⟨[], (List.append_nil _).symm, List.nil_prefix, fun _ => rfl, fun _ => h.acts, ?_, ?_⟩
      · show w.sel = fdActs sel w.acts
        rw [h.sel, h.acts]
        rfl
      · show ∀ act ∈ w.acts, _
        rw [h.acts]
        exact fun act hact => absurd hact List.not_mem_nil
  | cons c cs ih =>
      have hbefore := hcs c List.mem_cons_self
      have hcalls : (w.invoke callback c.fd c.event (some c.func)).calls = w.calls ++ [c] := by
        simp only [FdWalk.invoke, h.acts]
        rw [← hbefore]
      have hacts : (w.invoke callback c.fd c.event (some c.func)).acts
          = (callback w.env sel c.func c.fd c.event).2 := by
        simp only [FdWalk.invoke, h.acts, h.sel, List.nil_append]
      have htable : (w.invoke callback c.fd c.event (some c.func)).sel
          = fdActs sel (callback w.env sel c.func c.fd c.event).2 := by
        simp only [FdWalk.invoke, h.sel]
      obtain ⟨-, hfresh⟩ := h.invoke callback true c.fd c.event (some c.func)
      rw [if_pos rfl] at hfresh
      unfold FdWalk.serve
      dsimp only
      generalize w.invoke callback c.fd c.event (some c.func) = w1 at hcalls hacts htable hfresh ⊢
      cases hbreak : w1.sel.selectBreak with
      | true =>
          rw [if_pos rfl]
          -- Without a call on the selector it would go on.
          have hne : w1.acts ≠ [] := by
            intro hnil
            rw [hacts] at hnil
            rw [htable, hnil] at hbreak
            exact absurd (hbreak.symm.trans hsel) (by decide)
          refine ⟨[c], hcalls, ⟨cs, rfl⟩, fun hnil => absurd hnil hne,
            fun hnil => absurd hnil (by simp), by rw [hacts]; exact htable, ?_⟩
          rw [hacts]
          exact fun act hact => ⟨_, _, _, _, _, hact⟩
      | false =>
          rw [if_neg (by simp)]
          obtain ⟨calls, hserved⟩ := ih (hfresh hbreak) fun d hd => hcs d (List.mem_cons_of_mem c hd)
          refine ⟨c :: calls, ?_, ?_, ?_, fun hnil => absurd hnil (by simp),
            hserved.table, hserved.own⟩
          · rw [hserved.made, hcalls, List.append_assoc, List.singleton_append]
          · exact (List.prefix_cons_inj c).mpr hserved.first
          · exact fun hnil => by rw [hserved.whole hnil]

/-- The walk makes the calls of the entries from the last to the first, each on what the callbacks
before it left. -/
theorem fdselectWalk_calls (callback : FdCallback φ σ) (ready : FdReady) {sel : Fdselect φ}
    (hwf : sel.Wf) (hsets : ∀ f ∈ sel.fdArray, FdInSet f.fd) (hsel : sel.selectBreak = false)
    {w : FdWalk φ σ} (h : w.Fresh sel) :
    ∃ w' calls, fdselectWalk callback ready sel.fdArray.length w = some w' ∧
      FdWalk.Served callback sel (sel.fdArray.reverse.flatMap (entryCalls ready)) w w' calls := by
  have hrun := fdselectWalk_eq_serve callback ready hwf hsets hsel (Nat.le_refl _) h
  rw [List.take_length] at hrun
  have hbefore : ∀ c ∈ sel.fdArray.reverse.flatMap (entryCalls ready), c.before = [] := by
    intro c hc
    obtain ⟨f, -, hc⟩ := List.mem_flatMap.mp hc
    rcases List.mem_append.mp hc with hc | hc
    · exact (mem_callOf.mp hc).2.2.2.2
    · exact (mem_callOf.mp hc).2.2.2.2
  obtain ⟨calls, hserved⟩ := h.served hsel callback hbefore
  exact ⟨_, calls, hrun, hserved⟩

/-! ## Which calls these are -/

/-- A descriptor that `select` reports for an event has an entry with the event, and the callback of
that entry is what is registered. -/
theorem registered_of_wanted {sel : Fdselect φ} (hwf : sel.Wf) {f : FdselectFd φ}
    (hf : f ∈ sel.fdArray) {event : FdEvents}
    (hwanted : fdselectWanted sel event f.fd = true) :
    fdselectFunc sel f.fd event = f.func event := by
  obtain ⟨g, hg, hgf⟩ := List.any_eq_true.mp hwanted
  simp only [Bool.and_eq_true, beq_iff_eq, bne_iff_ne] at hgf
  obtain rfl : g = f := List.inj_on_of_nodup_map hwf.nodup hg hf hgf.1
  rw [hwf.fdselectFunc_eq, hwf.entry_eq_some.mpr ⟨hg, rfl⟩, Option.bind_some, FdselectFd.funcOf,
    if_pos hgf.2]

/-- A call for an entry is for an event that was reported, and calls what is registered. -/
theorem mem_entryCalls {sel : Fdselect φ} (hwf : sel.Wf) {ready : FdReady} {f : FdselectFd φ}
    (hf : f ∈ sel.fdArray) {c : FdCall φ} (hc : c ∈ entryCalls (ready.within sel) f) :
    c.fd = f.fd ∧ c.before = [] ∧ fdselectFunc sel c.fd c.event = some c.func ∧
      (c.event = fdselectREAD ∧ ready.rfds c.fd = true ∨
        c.event = fdselectWRITE ∧ ready.wfds c.fd = true) := by
  rcases List.mem_append.mp hc with hc | hc
  · obtain ⟨hset, hfd, hevent, hfunc, hbefore⟩ := mem_callOf.mp hc
    obtain ⟨hready, hwanted⟩ := Bool.and_eq_true_iff.mp hset
    refine ⟨hfd, hbefore, ?_, Or.inl ⟨hevent, by rw [hfd]; exact hready⟩⟩
    rw [hfd, hevent, registered_of_wanted hwf hf hwanted]
    exact hfunc
  · obtain ⟨hset, hfd, hevent, hfunc, hbefore⟩ := mem_callOf.mp hc
    obtain ⟨hready, hwanted⟩ := Bool.and_eq_true_iff.mp hset
    refine ⟨hfd, hbefore, ?_, Or.inr ⟨hevent, by rw [hfd]; exact hready⟩⟩
    rw [hfd, hevent, registered_of_wanted hwf hf hwanted]
    exact hfunc

/-- The descriptor and the event of a call. -/
def FdCall.key (c : FdCall φ) : Int × FdEvents := (c.fd, c.event)

/-- A call has the key of its entry and event. -/
theorem key_callOf (isset : Bool) (fd : Int) (event : FdEvents) (func : Option φ) :
    ∀ k ∈ (callOf isset fd event func).map FdCall.key, k = (fd, event) := by
  intro k hk
  obtain ⟨c, hc, rfl⟩ := List.mem_map.mp hk
  obtain ⟨-, hfd, hevent, -⟩ := mem_callOf.mp hc
  rw [FdCall.key, hfd, hevent]

theorem nodup_key_callOf (isset : Bool) (fd : Int) (event : FdEvents) (func : Option φ) :
    ((callOf isset fd event func).map FdCall.key).Nodup := by
  cases isset <;> cases func <;> simp [callOf]

/-- An entry calls no event twice. -/
theorem nodup_key_entryCalls (ready : FdReady) (f : FdselectFd φ) :
    ((entryCalls ready f).map FdCall.key).Nodup := by
  rw [entryCalls, List.map_append, List.nodup_append]
  refine ⟨nodup_key_callOf _ _ _ _, nodup_key_callOf _ _ _ _, fun a ha b hb hab => ?_⟩
  have hread := key_callOf _ _ _ _ a ha
  have hwrite := key_callOf _ _ _ _ b hb
  rw [hab, hwrite] at hread
  exact absurd (congrArg Prod.snd hread) (show ¬fdselectWRITE = fdselectREAD by decide)

/-- No call is made twice, as every descriptor has one entry. -/
theorem nodup_key_calls {sel : Fdselect φ} (hwf : sel.Wf) (ready : FdReady) :
    ((sel.fdArray.reverse.flatMap (entryCalls ready)).map FdCall.key).Nodup := by
  have hfds : (sel.fdArray.reverse.map (·.fd)).Nodup := by
    rw [List.map_reverse]
    exact List.nodup_reverse.mpr hwf.nodup
  have hfd : ∀ f : FdselectFd φ, ∀ k ∈ (entryCalls ready f).map FdCall.key, k.1 = f.fd := by
    intro f k hk
    rw [entryCalls, List.map_append, List.mem_append] at hk
    rcases hk with hk | hk <;> rw [key_callOf _ _ _ _ k hk]
  rw [List.map_flatMap, List.nodup_flatMap]
  refine ⟨fun f _ => nodup_key_entryCalls ready f, ?_⟩
  refine (List.pairwise_map.mp hfds).imp fun {f g} hne k hk hk' => hne ?_
  rw [← hfd f k hk, hfd g k hk']

/-- `fdselect_select_os` returns and has called, whatever the callbacks did, what was most recently
registered at the moment of the call, for a descriptor and event that `select` reported, and each at
most once. -/
def SelectsRegistered (callback : FdCallback φ σ) (ready : FdReady) (env : σ)
    (acts : List (FdAct φ)) : Prop :=
  ∃ r w, fdselectSelectOs callback ready (fdActs fdselectInit acts) env = some (r, w) ∧
    (w.calls.map FdCall.key).Nodup ∧
    ∀ c ∈ w.calls, regMap (acts ++ c.before) c.fd c.event = some c.func ∧
      (c.event = fdselectREAD ∧ ready.rfds c.fd = true ∨
        c.event = fdselectWRITE ∧ ready.wfds c.fd = true)

/-- Where the descriptors have bits, the calls are as they should be. -/
theorem selectsRegistered_of_inSets (callback : FdCallback φ σ) (ready : FdReady) (env : σ)
    {acts : List (FdAct φ)} (hacts : ∀ act ∈ acts, act.Rw) (hin : (regMap acts).InSets) :
    SelectsRegistered callback ready env acts := by
  obtain ⟨h, haddress⟩ := register_rw faithful_fdselectInit (fun _ => rfl) hacts
  have hsets : ∀ f ∈ (fdActs fdselectInit acts).fdArray, FdInSet f.fd :=
    (h.inSets_iff haddress).mp hin
  have hfits := (h.setsFit_iff haddress).mpr hin
  have hwf : ({ fdActs fdselectInit acts with selectBreak := false } : Fdselect φ).Wf :=
    ⟨h.wf.nodup, h.wf.events, h.wf.count⟩
  unfold SelectsRegistered fdselectSelectOs
  simp only
  generalize hsel : ({ fdActs fdselectInit acts with selectBreak := false } : Fdselect φ) = sel at hwf
  have hfunc : fdselectFunc sel = fdselectFunc (fdActs fdselectInit acts) := by
    rw [← hsel]
    rfl
  have harray : (fdActs fdselectInit acts).fdArray = sel.fdArray := by rw [← hsel]
  have hfits' : fdselectSetsFit sel = true := by
    rw [← hsel]
    exact hfits
  rw [harray] at hsets
  rw [hfits', Bool.not_true, if_neg Bool.false_ne_true]
  split
  · exact ⟨_, _, rfl, by simp⟩
  · split
    · exact ⟨_, _, rfl, by simp⟩
    · obtain ⟨w, calls, hrun, hserved⟩ := fdselectWalk_calls callback (ready.within sel) hwf hsets
        (by rw [← hsel]) (w := ⟨sel, env, [], [], false⟩) ⟨rfl, rfl, rfl⟩
      have hcalls := hserved.made
      have hfirst := hserved.first
      rw [List.nil_append] at hcalls
      refine ⟨0, w, by rw [harray, hrun]; rfl, ?_, fun c hc => ?_⟩
      · rw [hcalls]
        exact (hfirst.sublist.map FdCall.key).nodup (nodup_key_calls hwf _)
      · rw [hcalls] at hc
        obtain ⟨f, hf, hcf⟩ := List.mem_flatMap.mp (hfirst.subset hc)
        obtain ⟨-, hbefore, hreg, hevent⟩ := mem_entryCalls hwf (List.mem_reverse.mp hf) hcf
        refine ⟨?_, hevent⟩
        rw [hbefore, List.append_nil, ← hreg, hfunc]
        refine (h.func c.fd c.event ?_).symm
        rcases hevent with ⟨he, -⟩ | ⟨he, -⟩
        · exact Or.inl he
        · exact Or.inr (Or.inl he)

/-- For every table of registrations for reading and writing, and whatever `select` and the callbacks
do, `fdselect_select_os` calls what it should exactly when every descriptor that is registered has a
bit in an `fd_set`. -/
theorem fdselectSelectOs_calls_iff (callback : FdCallback φ σ) (ready : FdReady) (env : σ)
    {acts : List (FdAct φ)} (hacts : ∀ act ∈ acts, act.Rw) :
    SelectsRegistered callback ready env acts ↔ (regMap acts).InSets := by
  refine ⟨fun hselects => ?_, selectsRegistered_of_inSets callback ready env hacts⟩
  obtain ⟨h, haddress⟩ := register_rw faithful_fdselectInit (fun _ => rfl) hacts
  obtain ⟨r, w, hrun, -⟩ := hselects
  -- there is a result, so the sets were filled within their bounds
  refine (h.setsFit_iff haddress).mp ?_
  by_contra hnot
  have hfit : fdselectSetsFit { fdActs fdselectInit acts with selectBreak := false } = false :=
    Bool.eq_false_iff.mpr hnot
  unfold fdselectSelectOs at hrun
  simp only [hfit, Bool.not_false, if_true] at hrun
  exact absurd hrun (by simp)

/-- The first callback clears the table, and the walk stops there. -/
theorem fdselectSelectOs_calls_clear :
    SelectsRegistered (fun env _ _ _ _ => (env, [.clear])) ⟨2, fun _ => true, fun _ => true⟩ ()
      [.set 5 fdselectREAD (some 'a'), .set 6 fdselectWRITE (some 'b')] := by
  have hacts : ∀ act ∈ [FdAct.set 5 fdselectREAD (some 'a'), .set 6 fdselectWRITE (some 'b')],
      act.Rw := by
    simp [FdAct.Rw]
    decide
  refine (fdselectSelectOs_calls_iff _ _ () hacts).mpr fun fd event func _ hfunc => ?_
  simp only [regMap, List.foldl_cons, List.foldl_nil, FdAct.register, RegMap.set] at hfunc
  split at hfunc
  · rename_i hsix
    rw [hsix.1]
    decide
  · split at hfunc
    · rename_i hfive
      rw [hfive.1]
      decide
    · exact absurd hfunc (by simp)

/-- Descriptor 1024 has no bit. -/
theorem fdselectSelectOs_outside :
    ¬SelectsRegistered (fun env _ _ _ _ => (env, [])) ⟨1, fun _ => true, fun _ => false⟩ ()
      [.set 1024 fdselectREAD (some 'a')] := by
  rintro ⟨r, w, hrun, -⟩
  have hnone : (fdselectSelectOs (fun env _ _ _ _ => (env, [])) ⟨1, fun _ => true, fun _ => false⟩
      (fdActs fdselectInit [.set 1024 fdselectREAD (some 'a')]) ()).isNone = true := by decide
  rw [hrun] at hnone
  exact absurd hnone (by simp)

end Bklib
