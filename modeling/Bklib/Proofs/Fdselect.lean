import Mathlib.Data.List.Nodup
import Mathlib.Data.List.Perm.Basic
import Bklib.Model.Fdselect

/-!
# `Bklib.Proofs.Fdselect`: what `fdselect_set` registers

A table is well formed when it has one entry for each descriptor, no entry without events, and the
right count. `fdselectSet_spec` says what becomes of the entries, and `fdselectFunc_set` reads it off
for one descriptor and event: the function that was set, or the one that was there before.
-/

set_option autoImplicit false

namespace Bklib

variable {φ : Type}

/-! ### Event sets -/

/-- Masking with one bit asks for that bit. -/
theorem and_twoPow_ne_zero (x : FdEvents) (i : Nat) (hi : i < 32) :
    x &&& BitVec.twoPow 32 i ≠ 0 ↔ x.getLsbD i = true := by
  rw [BitVec.and_twoPow]
  cases h : x.getLsbD i with
  | false => simp
  | true =>
      simp only [if_true, iff_true]
      intro h0
      have := congrArg (·.getLsbD i) h0
      simp [hi] at this

/-- Reading or writing. -/
def IsRw (event : FdEvents) : Prop := event = fdselectREAD ∨ event = fdselectWRITE

/-- A single event is one bit of a set. -/
theorem IsRw.bit {event : FdEvents} (h : IsRw event) :
    ∃ i, i < 32 ∧ ∀ x : FdEvents, x &&& event ≠ 0 ↔ x.getLsbD i = true := by
  rcases h with rfl | rfl
  · exact ⟨0, by decide, fun x => and_twoPow_ne_zero x 0 (by decide)⟩
  · exact ⟨1, by decide, fun x => and_twoPow_ne_zero x 1 (by decide)⟩

/-- The events of an entry after `fdselect_set`. -/
theorem assign_events {event : FdEvents}
    (h : ∃ i, i < 32 ∧ ∀ x : FdEvents, x &&& event ≠ 0 ↔ x.getLsbD i = true) (f : FdselectFd φ)
    (events : FdEvents) (func : Option φ) :
    (f.assign events func).events &&& event ≠ 0 ↔
      if events &&& event ≠ 0 then func.isSome = true else f.events &&& event ≠ 0 := by
  obtain ⟨i, hi, hbit⟩ := h
  simp only [hbit, FdselectFd.assign]
  cases func <;> cases hev : events.getLsbD i <;>
    simp [hev, hi, BitVec.getLsbD_or, BitVec.getLsbD_and, BitVec.getLsbD_not,
      -BitVec.getLsbD_eq_getElem]

/-- The function of an entry for an event it has. -/
def FdselectFd.funcOf (f : FdselectFd φ) (event : FdEvents) : Option φ :=
  if f.events &&& event ≠ 0 then f.func event else none

/-- `fdselect_set` on an entry: the event gets the new function, or keeps its own. Registering a
change of the address list takes the place of the reading function. -/
theorem funcOf_assign {event : FdEvents} (h : IsRw event) (f : FdselectFd φ) (events : FdEvents)
    (func : Option φ) (haddr : events &&& fdselectADDRESS = 0 ∨ events &&& fdselectREAD ≠ 0) :
    (f.assign events func).funcOf event
      = if events &&& event ≠ 0 then func else f.funcOf event := by
  have hev := assign_events h.bit f events func
  unfold FdselectFd.funcOf
  by_cases hin : events &&& event ≠ 0
  · rw [if_pos hin] at hev ⊢
    have hfunc : (f.assign events func).func event = func := by
      rcases h with rfl | rfl
      · have hor : events &&& (fdselectREAD ||| fdselectADDRESS) ≠ 0 := by
          intro h0
          rw [BitVec.and_or_distrib_left] at h0
          exact hin (BitVec.or_eq_zero_iff.mp h0).1
        rw [FdselectFd.func, if_neg (by decide), FdselectFd.assign]
        exact if_pos hor
      · rw [FdselectFd.func, if_pos rfl, FdselectFd.assign]
        exact if_pos hin
    cases func with
    | none => rw [if_neg (by simpa using hev)]
    | some g => rw [if_pos (hev.mpr rfl), hfunc]
  · rw [if_neg hin] at hev ⊢
    have hfunc : (f.assign events func).func event = f.func event := by
      rcases h with rfl | rfl
      · -- the slot of reading is taken when either bit is set
        have haddr : events &&& fdselectADDRESS = 0 := haddr.resolve_right hin
        have hor : ¬ events &&& (fdselectREAD ||| fdselectADDRESS) ≠ 0 := by
          rw [BitVec.and_or_distrib_left, not_not.mp hin, haddr]
          decide
        rw [FdselectFd.func, FdselectFd.func, if_neg (by decide), if_neg (by decide),
          FdselectFd.assign]
        exact if_neg hor
      · rw [FdselectFd.func, FdselectFd.func, if_pos rfl, if_pos rfl, FdselectFd.assign]
        exact if_neg hin
    rw [hfunc]
    exact if_congr hev rfl rfl

/-! ### Entries -/

/-- One entry for each descriptor, none without events, and the right count. -/
structure Fdselect.Wf (sel : Fdselect φ) : Prop where
  nodup : (sel.fdArray.map (·.fd)).Nodup
  events : ∀ f ∈ sel.fdArray, f.events ≠ 0
  count : sel.count = sel.fdArray.length

theorem wf_fdselectInit : (fdselectInit : Fdselect φ).Wf :=
  ⟨List.nodup_nil, fun _ h => absurd h List.not_mem_nil, rfl⟩

/-- The entry of a descriptor. -/
def Fdselect.entry (sel : Fdselect φ) (fd : Int) : Option (FdselectFd φ) :=
  sel.fdArray.find? (·.fd == fd)

/-- With one entry for each descriptor, an entry is found by its descriptor. -/
theorem find?_fd_eq_some {xs : List (FdselectFd φ)} (h : (xs.map (·.fd)).Nodup) {fd : Int}
    {f : FdselectFd φ} : xs.find? (·.fd == fd) = some f ↔ f ∈ xs ∧ f.fd = fd := by
  constructor
  · intro hf
    exact ⟨List.mem_of_find?_eq_some hf, by simpa using List.find?_some hf⟩
  · rintro ⟨hf, rfl⟩
    cases hg : xs.find? (·.fd == f.fd) with
    | none => simpa using List.find?_eq_none.mp hg f hf
    | some g =>
        have hfd : g.fd = f.fd := by simpa using List.find?_some hg
        rw [List.inj_on_of_nodup_map h (List.mem_of_find?_eq_some hg) hf hfd]

theorem Fdselect.Wf.entry_eq_some {sel : Fdselect φ} (h : sel.Wf) {fd : Int} {f : FdselectFd φ} :
    sel.entry fd = some f ↔ f ∈ sel.fdArray ∧ f.fd = fd := find?_fd_eq_some h.nodup

/-- `fdselect_find` gives an entry of the descriptor, or there is none. -/
theorem fdselectFind_spec (xs : List (FdselectFd φ)) (fd : Int) :
    ∀ n, n ≤ xs.length →
      (fdselectFind xs fd n = none → ∀ i < n, ∀ f, xs[i]? = some f → f.fd ≠ fd) ∧
      (∀ i, fdselectFind xs fd n = some i → ∃ f, xs[i]? = some f ∧ f.fd = fd) := by
  intro n
  induction n with
  | zero =>
      intro _
      exact ⟨fun _ i hi => absurd hi (Nat.not_lt_zero i), fun _ h => absurd h (by simp [fdselectFind])⟩
  | succ n ih =>
      intro hn
      have hx : xs[n]? = some xs[n] := List.getElem?_eq_getElem (by omega)
      obtain ⟨hnone, hsome⟩ := ih (by omega)
      rw [fdselectFind, hx, Option.any_some]
      by_cases hfd : xs[n].fd = fd
      · rw [if_pos (by simpa using hfd)]
        refine ⟨fun h => absurd h (by simp), fun i hi => ?_⟩
        obtain rfl : n = i := Option.some.inj hi
        exact ⟨_, hx, hfd⟩
      · rw [if_neg (by simpa using hfd)]
        refine ⟨fun h i hi f hf => ?_, hsome⟩
        rcases Nat.lt_succ_iff_lt_or_eq.mp hi with hi | rfl
        · exact hnone h i hi f hf
        · rw [hx] at hf
          cases hf
          exact hfd

/-- With one entry for each descriptor, the order of the entries does not matter. -/
theorem find?_fd_perm {xs ys : List (FdselectFd φ)} (hperm : xs.Perm ys)
    (h : (xs.map (·.fd)).Nodup) (fd : Int) :
    xs.find? (·.fd == fd) = ys.find? (·.fd == fd) := by
  apply Option.ext
  intro f
  rw [find?_fd_eq_some h, find?_fd_eq_some ((hperm.map _).nodup_iff.mp h), hperm.mem_iff]

/-- An entry that keeps at least one event. -/
def FdselectFd.keep (f : FdselectFd φ) : Option (FdselectFd φ) :=
  if f.events = 0 then none else some f

/-- What `fdselectAssign` does to a table whose entries, but for `f` at `i`, have events. -/
theorem fdselectAssign_spec (sel : Fdselect φ) {i : Nat} {f : FdselectFd φ}
    (hnodup : (sel.fdArray.map (·.fd)).Nodup) (hi : sel.fdArray[i]? = some f)
    (hevents : ∀ g ∈ sel.fdArray, g.fd ≠ f.fd → g.events ≠ 0)
    (hcount : sel.count = sel.fdArray.length) (events : FdEvents) (func : Option φ) :
    (fdselectAssign sel i f events func).Wf ∧
      ∀ fd, (fdselectAssign sel i f events func).entry fd
        = if fd = f.fd then (f.assign events func).keep else sel.entry fd := by
  obtain ⟨hlt, hget⟩ := List.getElem?_eq_some_iff.mp hi
  -- The entry and the rest: the rest does not mention its descriptor.
  have hperm : (f :: sel.fdArray.eraseIdx i).Perm sel.fdArray := by
    rw [← hget]; exact List.getElem_cons_eraseIdx_perm hlt
  have hcons := (hperm.map (·.fd)).nodup_iff.mpr hnodup
  rw [List.map_cons, List.nodup_cons] at hcons
  obtain ⟨hnotin, hrest⟩ := hcons
  have hne : ∀ g ∈ sel.fdArray.eraseIdx i, g.fd ≠ f.fd := fun g hg h =>
    hnotin (by rw [← h]; exact List.mem_map_of_mem hg)
  have hlen := hperm.length_eq
  rw [List.length_cons] at hlen
  have hold : ∀ fd, fd ≠ f.fd →
      sel.entry fd = (sel.fdArray.eraseIdx i).find? (·.fd == fd) := by
    intro fd hfd
    rw [Fdselect.entry, ← find?_fd_perm hperm ((hperm.map _).nodup_iff.mpr hnodup),
      List.find?_cons_of_neg (by simpa using Ne.symm hfd)]
  have hrestne : ∀ g ∈ sel.fdArray.eraseIdx i, g.events ≠ 0 := fun g hg =>
    hevents g (hperm.mem_iff.mp (List.mem_cons_of_mem f hg)) (hne g hg)
  unfold fdselectAssign
  by_cases h0 : (f.assign events func).events = 0
  · rw [if_pos h0]
    refine ⟨⟨hrest, hrestne, by
      show sel.count - 1 = ((sel.fdArray.eraseIdx i).length : Int)
      omega⟩, fun fd => ?_⟩
    rw [FdselectFd.keep, if_pos h0]
    split
    · rename_i hfd
      exact List.find?_eq_none.mpr fun g hg => by simpa [hfd] using hne g hg
    · rename_i hfd
      exact (hold fd hfd).symm
  · rw [if_neg h0]
    have hset : (sel.fdArray.set i (f.assign events func)).Perm
        (f.assign events func :: sel.fdArray.eraseIdx i) := List.set_perm_cons_eraseIdx hlt _
    have hnodup' : ((sel.fdArray.set i (f.assign events func)).map (·.fd)).Nodup := by
      rw [(hset.map _).nodup_iff, List.map_cons, List.nodup_cons]
      exact ⟨hnotin, hrest⟩
    refine ⟨⟨hnodup', fun g hg => ?_, by rw [List.length_set]; exact hcount⟩, fun fd => ?_⟩
    · rcases List.mem_cons.mp (hset.mem_iff.mp hg) with rfl | hg
      · exact h0
      · exact hrestne g hg
    · rw [FdselectFd.keep, if_neg h0, Fdselect.entry, find?_fd_perm hset hnodup']
      split
      · rename_i hfd
        exact List.find?_cons_of_pos (by simp [hfd, FdselectFd.assign])
      · rename_i hfd
        rw [List.find?_cons_of_neg (by simpa [FdselectFd.assign] using Ne.symm hfd)]
        exact (hold fd hfd).symm

/-- What `fdselect_set` does. It fails only for want of memory for a new entry, and then changes no
entry. -/
theorem fdselectSet_spec (allocOk : Nat → Bool) {sel : Fdselect φ} (h : sel.Wf) (fd : Int)
    (events : FdEvents) (func : Option φ) :
    ∃ s r, fdselectSet allocOk sel fd events func = (s, r) ∧ s.Wf ∧
      ((r = -1 ∧ allocOk sel.allocs = false ∧ sel.entry fd = none ∧ s.entry = sel.entry) ∨
        (r = 0 ∧ ∀ fd', s.entry fd' = if fd' = fd then
          (((sel.entry fd).getD ⟨fd, 0, none, none⟩).assign (eventsOf events) func).keep
          else sel.entry fd')) := by
  obtain ⟨hnone, hsome⟩ := fdselectFind_spec sel.fdArray fd sel.fdArray.length (Nat.le_refl _)
  cases hfind : fdselectFind sel.fdArray fd sel.fdArray.length with
  | some i =>
      obtain ⟨f, hf, rfl⟩ := hsome i hfind
      have hentry : sel.entry f.fd = some f :=
        h.entry_eq_some.mpr ⟨List.mem_of_getElem? hf, rfl⟩
      obtain ⟨hwf, hspec⟩ := fdselectAssign_spec { sel with selectBreak := true }
        h.nodup hf (fun g hg _ => h.events g hg) h.count (eventsOf events) func
      refine ⟨_, 0, by simp only [fdselectSet, hfind, hf], hwf, Or.inr ⟨rfl, fun fd' => ?_⟩⟩
      rw [hspec, hentry]
      rfl
  | none =>
      have habsent : ∀ f ∈ sel.fdArray, f.fd ≠ fd := by
        intro f hf
        obtain ⟨i, hi⟩ := List.mem_iff_getElem?.mp hf
        exact hnone hfind i (List.getElem?_eq_some_iff.mp hi).1 f hi
      have hentry : sel.entry fd = none :=
        List.find?_eq_none.mpr fun f hf => by simpa using habsent f hf
      cases hok : allocOk sel.allocs with
      | false =>
          refine ⟨{ sel with selectBreak := true, allocs := sel.allocs + 1 }, -1,
            by simp [fdselectSet, hfind, hok], ⟨h.nodup, h.events, h.count⟩,
            Or.inl ⟨rfl, rfl, hentry, rfl⟩⟩
      | true =>
          -- The new entry stands at the end and has no events yet.
          have hnodup : ((sel.fdArray ++ [(⟨fd, 0, none, none⟩ : FdselectFd φ)]).map (·.fd)).Nodup := by
            rw [List.map_append, List.nodup_append]
            refine ⟨h.nodup, List.nodup_singleton _, fun a ha b hb hab => ?_⟩
            obtain ⟨f, hf, rfl⟩ := List.mem_map.mp ha
            exact habsent f hf (by simpa [hab] using hb)
          obtain ⟨hwf, hspec⟩ := fdselectAssign_spec
            { sel with
              selectBreak := true
              allocs := sel.allocs + 1
              fdArray := sel.fdArray ++ [⟨fd, 0, none, none⟩]
              count := sel.count + 1 }
            (i := sel.fdArray.length) (f := ⟨fd, 0, none, none⟩) hnodup (by simp)
            (fun g hg hne => by
              rcases List.mem_append.mp hg with hg | hg
              · exact h.events g hg
              · rw [List.mem_singleton.mp hg] at hne; exact absurd rfl hne)
            (by simp [h.count]) (eventsOf events) func
          refine ⟨_, 0, by simp [fdselectSet, hfind, hok], hwf, Or.inr ⟨rfl, fun fd' => ?_⟩⟩
          rw [hspec, hentry, Option.getD_none]
          split
          · rfl
          · rename_i hne
            rw [Fdselect.entry, Fdselect.entry, List.find?_append,
              List.find?_cons_of_neg (by simpa using Ne.symm hne), List.find?_nil, Option.or_none]

/-! ### Registered functions -/

/-- The function of an event is the one of the descriptor's entry. -/
theorem Fdselect.Wf.fdselectFunc_eq {sel : Fdselect φ} (h : sel.Wf) (fd : Int)
    (event : FdEvents) : fdselectFunc sel fd event = (sel.entry fd).bind (·.funcOf event) := by
  unfold fdselectFunc fdselectGet
  cases hfind : sel.fdArray.reverse.find? fun f => f.fd == fd && f.events &&& event != 0 with
  | some f =>
      have hf := List.find?_some hfind
      simp only [Bool.and_eq_true, beq_iff_eq, bne_iff_ne] at hf
      have hentry : sel.entry fd = some f :=
        h.entry_eq_some.mpr ⟨List.mem_reverse.mp (List.mem_of_find?_eq_some hfind), hf.1⟩
      rw [hentry, Option.bind_some, Option.bind_some, FdselectFd.funcOf, if_pos hf.2]
  | none =>
      cases hentry : sel.entry fd with
      | none => rfl
      | some f =>
          obtain ⟨hmem, hfd⟩ := h.entry_eq_some.mp hentry
          have hmiss := List.find?_eq_none.mp hfind f (List.mem_reverse.mpr hmem)
          simp only [hfd, beq_self_eq_true, Bool.true_and, bne_iff_ne, not_not] at hmiss
          rw [Option.bind_none, Option.bind_some, FdselectFd.funcOf, if_neg (by simpa using hmiss)]

/-- An entry that is not kept has no function. -/
theorem keep_bind_funcOf {event : FdEvents} (f : FdselectFd φ) :
    f.keep.bind (·.funcOf event) = f.funcOf event := by
  unfold FdselectFd.keep
  split
  · rename_i h0
    rw [FdselectFd.funcOf, h0, if_neg (by simp)]
    rfl
  · rfl

/-- What `fdselect_set` registers for reading and writing: `func` for the events that were set on
`fd`, and what was there for everything else. When it fails, nothing changes and `fd` had no
entry. -/
theorem fdselectFunc_set (allocOk : Nat → Bool) {sel : Fdselect φ} (h : sel.Wf) (fd : Int)
    (events : FdEvents) (func : Option φ)
    (haddr : eventsOf events &&& fdselectADDRESS = 0 ∨ eventsOf events &&& fdselectREAD ≠ 0) :
    ∃ s r, fdselectSet allocOk sel fd events func = (s, r) ∧ s.Wf ∧
      ((r = -1 ∧ allocOk sel.allocs = false ∧ (∀ ev, fdselectFunc sel fd ev = none) ∧
          fdselectFunc s = fdselectFunc sel) ∨
        (r = 0 ∧ ∀ fd' ev, IsRw ev → fdselectFunc s fd' ev
          = if fd' = fd ∧ eventsOf events &&& ev ≠ 0 then func else fdselectFunc sel fd' ev)) := by
  obtain ⟨s, r, hset, hwf, hcases⟩ := fdselectSet_spec allocOk h fd events func
  refine ⟨s, r, hset, hwf, ?_⟩
  rcases hcases with ⟨hr, hok, hnone, hsame⟩ | ⟨hr, hentry⟩
  · refine Or.inl ⟨hr, hok, fun ev => by rw [h.fdselectFunc_eq, hnone]; rfl, ?_⟩
    funext fd' ev
    rw [hwf.fdselectFunc_eq, h.fdselectFunc_eq, hsame]
  · refine Or.inr ⟨hr, fun fd' ev hev => ?_⟩
    rw [hwf.fdselectFunc_eq, h.fdselectFunc_eq, hentry]
    by_cases hfd : fd' = fd
    · subst hfd
      rw [if_pos rfl, keep_bind_funcOf, funcOf_assign hev _ _ _ haddr]
      simp only [true_and]
      split
      · rfl
      · cases hold : sel.entry fd' with
        | some f => rfl
        | none => simp [FdselectFd.funcOf]
    · rw [if_neg hfd, if_neg (fun h => hfd h.1)]

/-- `fdselect_unset` takes the events away, whether or not it had the memory to say so. -/
theorem fdselectFunc_unset (allocOk : Nat → Bool) {sel : Fdselect φ} (h : sel.Wf) (fd : Int)
    (events : FdEvents) (hev : events = fdselectREAD ∨ events = fdselectWRITE ∨ events = fdselectALL) :
    ∃ s r, fdselectUnset allocOk sel fd events = (s, r) ∧ s.Wf ∧
      (r = 0 ∨ allocOk sel.allocs = false ∧ ∀ ev, fdselectFunc sel fd ev = none) ∧
      ∀ fd' ev, IsRw ev → fdselectFunc s fd' ev
        = if fd' = fd ∧ events &&& ev ≠ 0 then none else fdselectFunc sel fd' ev := by
  have hbits : events ≠ 0 ∧ eventsOf events = events ∧
      (events &&& fdselectADDRESS = 0 ∨ events &&& fdselectREAD ≠ 0) := by
    rcases hev with rfl | rfl | rfl <;> decide
  have hbreak : ({ sel with selectBreak := true } : Fdselect φ).Wf :=
    ⟨h.nodup, h.events, h.count⟩
  obtain ⟨s, r, hset, hwf, hcases⟩ := fdselectFunc_set allocOk hbreak fd events none
    (by rw [hbits.2.1]; exact hbits.2.2)
  refine ⟨s, r, by rw [fdselectUnset, if_neg hbits.1]; exact hset, hwf, ?_, ?_⟩
  · rcases hcases with ⟨-, hok, hnone, -⟩ | ⟨hr, -⟩
    · exact Or.inr ⟨hok, hnone⟩
    · exact Or.inl hr
  · intro fd' ev hrw
    rcases hcases with ⟨-, -, hnone, hsame⟩ | ⟨-, hfunc⟩
    · rw [hsame]
      split
      · rename_i hfd
        rw [hfd.1]
        exact hnone ev
      · rfl
    · rw [hfunc fd' ev hrw, hbits.2.1]
      rfl

end Bklib
