import Bklib.Model.Memutil

/-!
# `Bklib.Proofs.Memfind`: the leftmost match

`memfind_leftmost` says that `memfind` finds the first place where the needle occurs, that it finds
none only where there is none, and that it reads inside the haystack only.

The loop keeps `p + len` at the end of the haystack, and leaves no match behind: a place that `memchr`
has skipped does not start with the first byte of the needle, a place where `memcmp` has failed is no
match, and where less is left than the needle is long there is none either.
-/

set_option autoImplicit false

namespace Bklib

/-- The needle occurs in the haystack at `i`. -/
def OccursAt (hay needle : List UInt8) (i : Nat) : Prop := needle <+: hay.drop i

/-- The first place that meets `P`, or none where no place does. -/
def IsLeftmost (P : Nat → Prop) : Option Nat → Prop
  | some i => P i ∧ ∀ j < i, ¬P j
  | none   => ∀ j, ¬P j

/-- The place found is the one where the property holds and no earlier place has it. -/
theorem isLeftmost_some_iff {P : Nat → Prop} {o : Option Nat} (h : IsLeftmost P o) (i : Nat) :
    o = some i ↔ P i ∧ ∀ j < i, ¬P j := by
  constructor
  · intro ho
    subst ho
    exact h
  · intro ⟨hi, hbefore⟩
    cases o with
    | none   => exact absurd hi (h i)
    | some k =>
        -- neither of two first places is before the other
        have hki : ¬k < i := fun hlt => hbefore k hlt h.1
        have hik : ¬i < k := fun hlt => h.2 i hlt hi
        exact congrArg some (by omega)

/-- None is found exactly when the property holds nowhere. -/
theorem isLeftmost_none_iff {P : Nat → Prop} {o : Option Nat} (h : IsLeftmost P o) :
    o = none ↔ ∀ i, ¬P i := by
  constructor
  · intro ho
    subst ho
    exact h
  · intro hno
    cases o with
    | none   => rfl
    | some k => exact absurd h.1 (hno k)

section Loop

variable {hay needle : List UInt8} {p len i : Nat}

theorem OccursAt.le_length (h : OccursAt hay needle i) : needle.length ≤ hay.length - i := by
  have hle := h.length_le
  rwa [List.length_drop] at hle

/-- A match starts with the first byte of the needle. -/
theorem OccursAt.head (h : OccursAt hay needle i) (hne : needle ≠ []) :
    hay[i]? = some (needle.headD 0) := by
  obtain ⟨rest, hrest⟩ := h
  cases needle with
  | nil         => exact absurd rfl hne
  | cons c tail =>
      have hget : (hay.drop i)[0]? = some c := by rw [← hrest]; rfl
      rwa [List.getElem?_drop, Nat.add_zero] at hget

/-- What `memcmp` compares with the needle is the needle at a match and nowhere else. -/
theorem memcmp_occursAt (h : needle.length ≤ hay.length - i) :
    memcmp ((hay.drop i).take needle.length) needle = 0 ↔ OccursAt hay needle i := by
  have hlen : ((hay.drop i).take needle.length).length = needle.length := by
    rw [List.length_take, List.length_drop]
    omega
  rw [memcmp_eq_zero_iff hlen, OccursAt, List.prefix_iff_eq_take]
  exact eq_comm

/-- Where `memchr` finds nothing, there is no match. -/
theorem not_occursAt_of_memchr_none (hne : needle ≠ []) (hend : p + len = hay.length)
    (h : memchr ((hay.drop p).take len) (needle.headD 0) = none) {j : Nat} (hj : p ≤ j) :
    ¬OccursAt hay needle j := by
  intro hocc
  have hhead := hocc.head hne
  obtain ⟨hlt, hget⟩ := List.getElem?_eq_some_iff.mp hhead
  -- the first byte of a match would be among those that `memchr` looks at
  have hmem : needle.headD 0 ∈ (hay.drop p).take len := by
    rw [List.mem_iff_getElem?]
    refine ⟨j - p, ?_⟩
    rw [List.getElem?_take, if_pos (by omega), List.getElem?_drop, Nat.add_sub_cancel' hj]
    exact hhead
  have hnot := List.findIdx?_eq_none_iff.mp h _ hmem
  simp at hnot

/-- What `memchr` skips is no match. -/
theorem not_occursAt_of_memchr_some (hne : needle ≠ []) (hend : p + len = hay.length)
    (h : memchr ((hay.drop p).take len) (needle.headD 0) = some i) {j : Nat} (hj : p ≤ j)
    (hlt : j < p + i) : ¬OccursAt hay needle j := by
  intro hocc
  have hhead := hocc.head hne
  obtain ⟨_, -, hskipped⟩ := List.findIdx?_eq_some_iff_getElem.mp h
  -- each skipped byte is not the one that `memchr` looks for
  have hnot := hskipped (j - p) (by omega)
  have hget : ((hay.drop p).take len)[j - p]? = some (needle.headD 0) := by
    have hi := memchr_lt h
    rw [List.length_take] at hi
    rw [List.getElem?_take, if_pos (by omega), List.getElem?_drop, Nat.add_sub_cancel' hj]
    exact hhead
  obtain ⟨hj', hget'⟩ := List.getElem?_eq_some_iff.mp hget
  rw [hget'] at hnot
  simp at hnot

/-- Reads inside the haystack. -/
def ReadsHaystack (hay : List UInt8) (reads : List (Nat × Nat)) : Prop :=
  ∀ r ∈ reads, r.1 + r.2 ≤ hay.length

/-- A round in which `memchr` finds nothing. -/
theorem memfindLoop_none (hlong : ¬len < needle.length)
    (hq : memchr ((hay.drop p).take len) (needle.headD 0) = none) :
    memfindLoop hay needle p len = (none, [(p, len)]) := by
  rw [memfindLoop, if_neg hlong]
  split
  · rfl
  · next h => exact absurd (hq.symm.trans h) (by simp)

/-- A round in which `memchr` finds the first byte of the needle. -/
theorem memfindLoop_some (hlong : ¬len < needle.length)
    (hq : memchr ((hay.drop p).take len) (needle.headD 0) = some i) :
    memfindLoop hay needle p len =
      if len - i < needle.length then (none, [(p, len)])
      else if memcmp ((hay.drop (p + i)).take needle.length) needle = 0 then
        (some (p + i), [(p, len), (p + i, needle.length)])
      else
        ((memfindLoop hay needle (p + i + 1) (len - i - 1)).1,
          (p, len) :: (p + i, needle.length) ::
            (memfindLoop hay needle (p + i + 1) (len - i - 1)).2) := by
  rw [memfindLoop, if_neg hlong]
  split
  · next h => exact absurd (hq.symm.trans h) (by simp)
  · next k h =>
      obtain rfl := Option.some.inj (hq.symm.trans h)
      rfl

/-- From any round on: with no match behind it, the loop finds the leftmost one. -/
theorem memfindLoop_leftmost (hne : needle ≠ []) (hend : p + len = hay.length)
    (hbehind : ∀ j < p, ¬OccursAt hay needle j) :
    IsLeftmost (OccursAt hay needle) (memfindLoop hay needle p len).1 ∧
      ReadsHaystack hay (memfindLoop hay needle p len).2 := by
  induction p, len using memfindLoop.induct hay needle with
  | case1 p len hshort =>
      rw [memfindLoop, if_pos hshort]
      refine ⟨fun j hocc => ?_, by simp [ReadsHaystack]⟩
      -- less is left from `p` on than a match would take
      have hle := hocc.le_length
      have hj : ¬j < p := fun hlt => hbehind j hlt hocc
      have hpos := List.length_pos_iff.mpr hne
      omega
  | case2 p len hlong hq =>
      rw [memfindLoop_none hlong hq]
      refine ⟨fun j hocc => ?_, by simp [ReadsHaystack]; omega⟩
      have hj : p ≤ j := Nat.not_lt.mp fun hlt => hbehind j hlt hocc
      exact not_occursAt_of_memchr_none hne hend hq hj hocc
  | case3 p len hlong i hq hshort =>
      rw [memfindLoop_some hlong hq, if_pos hshort]
      refine ⟨fun j hocc => ?_, by simp [ReadsHaystack]; omega⟩
      -- behind the byte that was found, less is left than the needle is long
      have hle := hocc.le_length
      have hpos := List.length_pos_iff.mpr hne
      have hj : p ≤ j := Nat.not_lt.mp fun hlt => hbehind j hlt hocc
      have hji : ¬j < p + i := fun hlt =>
        not_occursAt_of_memchr_some hne hend hq hj hlt hocc
      omega
  | case4 p len hlong i hq hleft hcmp =>
      rw [memfindLoop_some hlong hq, if_neg hleft, if_pos hcmp]
      -- `memcmp` has found a match, and there is none before it
      refine ⟨⟨(memcmp_occursAt (by omega)).mp hcmp, fun j hlt hocc => ?_⟩, ?_⟩
      · have hj : p ≤ j := Nat.not_lt.mp fun hlt' => hbehind j hlt' hocc
        exact not_occursAt_of_memchr_some hne hend hq hj hlt hocc
      · have hpos := List.length_pos_iff.mpr hne
        simp [ReadsHaystack]
        omega
  | case5 p len hlong i hq hleft hcmp ih =>
      rw [memfindLoop_some hlong hq, if_neg hleft, if_neg hcmp]
      have hpos := List.length_pos_iff.mpr hne
      -- what `memchr` has skipped, and the place where it has stopped, are no matches
      have hbehind' : ∀ j < p + i + 1, ¬OccursAt hay needle j := by
        intro j hlt hocc
        have hj : p ≤ j := Nat.not_lt.mp fun hlt' => hbehind j hlt' hocc
        rcases Nat.lt_or_eq_of_le (Nat.le_of_lt_succ hlt) with hskip | heq
        · exact not_occursAt_of_memchr_some hne hend hq hj hskip hocc
        · rw [heq, ← memcmp_occursAt (by omega)] at hocc
          exact hcmp hocc
      obtain ⟨hleftmost, hreads⟩ := ih (by omega) hbehind'
      refine ⟨hleftmost, ?_⟩
      simp only [ReadsHaystack, List.forall_mem_cons]
      exact ⟨by omega, by omega, hreads⟩

end Loop

/-- `memfind` returns the leftmost position at which the needle occurs and null exactly when it does
not occur, and never reads outside the haystack. -/
theorem memfind_leftmost (hay : List UInt8) {needle : List UInt8} (hne : needle ≠ []) :
    (∀ i, (memfind hay needle).1 = some i ↔
      OccursAt hay needle i ∧ ∀ j < i, ¬OccursAt hay needle j) ∧
    ((memfind hay needle).1 = none ↔ ∀ i, ¬OccursAt hay needle i) ∧
    ReadsHaystack hay (memfind hay needle).2 := by
  obtain ⟨hleftmost, hreads⟩ :=
    memfindLoop_leftmost hne (Nat.zero_add hay.length) (fun j hj => absurd hj (Nat.not_lt_zero j))
  exact ⟨isLeftmost_some_iff hleftmost, isLeftmost_none_iff hleftmost, hreads⟩

/-- A match that overlaps a place where the needle almost occurs. -/
theorem memfind_leftmost_overlap :
    (∀ i, (memfind [97, 97, 97, 98] [97, 97, 98]).1 = some i ↔
      OccursAt [97, 97, 97, 98] [97, 97, 98] i ∧
        ∀ j < i, ¬OccursAt [97, 97, 97, 98] [97, 97, 98] j) ∧
    ((memfind [97, 97, 97, 98] [97, 97, 98]).1 = none ↔
      ∀ i, ¬OccursAt [97, 97, 97, 98] [97, 97, 98] i) ∧
    ReadsHaystack [97, 97, 97, 98] (memfind [97, 97, 97, 98] [97, 97, 98]).2 :=
  memfind_leftmost [97, 97, 97, 98] (by decide)

end Bklib
