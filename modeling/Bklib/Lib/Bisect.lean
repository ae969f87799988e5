import Mathlib.Order.Basic

/-!
# `Bklib.Lib.Bisect`: searching in a sorted sequence

The comparison of a key with the elements of a sorted sequence is positive first, then zero, then
negative (`SignFalls`). The place of the key is that of the first zero, and without one that of the
last positive element (`KeyPlace`). A search keeps a bracket around it: an element that is not above the
key, and one that is above it, or the last one (`Bracket`). What it finds is a candidate, from which the
place is reached by going back over the zeros.
-/

set_option autoImplicit false

namespace Bklib.Lib

/-- Positive, then zero, then negative. -/
structure SignFalls (f : Nat → Int) (n : Nat) : Prop where
  nonneg : ∀ i j, i ≤ j → j < n → 0 ≤ f j → 0 ≤ f i
  pos : ∀ i j, i ≤ j → j < n → 0 < f j → 0 < f i

/-- The first zero, or the last positive element when there is no zero. -/
def KeyPlace (f : Nat → Int) (n r : Nat) : Prop :=
  r < n ∧ ((f r = 0 ∧ ∀ k, k < r → f k ≠ 0) ∨
    (0 < f r ∧ (∀ k, k < n → f k ≠ 0) ∧ ∀ k, k < n → 0 < f k → k ≤ r))

/-- There is one place. -/
theorem KeyPlace.unique {f : Nat → Int} {n r r' : Nat} (h : KeyPlace f n r) (h' : KeyPlace f n r') :
    r = r' := by
  obtain ⟨hr, ⟨hzero, hbefore⟩ | ⟨hpos, hne, hlast⟩⟩ := h
  · obtain ⟨hr', ⟨hzero', hbefore'⟩ | ⟨-, hne', -⟩⟩ := h'
    · rcases Nat.lt_trichotomy r r' with hlt | heq | hgt
      · exact absurd hzero (hbefore' r hlt)
      · exact heq
      · exact absurd hzero' (hbefore r' hgt)
    · exact absurd hzero (hne' r hr)
  · obtain ⟨hr', ⟨hzero', -⟩ | ⟨hpos', -, hlast'⟩⟩ := h'
    · exact absurd hzero' (hne r' hr')
    · exact Nat.le_antisymm (hlast' r hr hpos) (hlast r' hr' hpos')

/-- An element that is zero, or positive with only negative ones behind it. -/
def KeyCandidate (f : Nat → Int) (n c : Nat) : Prop :=
  c < n ∧ (f c = 0 ∨ (0 < f c ∧ ∀ k, c < k → k < n → f k < 0))

/-- The key is between `a` and `b`. -/
structure Bracket (f : Nat → Int) (n a b : Nat) : Prop where
  le : a ≤ b
  lt : b < n
  low : 0 ≤ f a
  high : b + 1 = n ∨ f b < 0

variable {f : Nat → Int} {n : Nat}

/-- The whole sequence, when its first element is not above the key. -/
theorem bracket_all (hn : 0 < n) (hfirst : 0 ≤ f 0) : Bracket f n 0 (n - 1) :=
  ⟨Nat.zero_le _, by omega, hfirst, Or.inl (by omega)⟩

/-- Behind a negative element there are only negative ones. -/
theorem SignFalls.neg (h : SignFalls f n) {i j : Nat} (hij : i ≤ j) (hj : j < n) (hi : f i < 0) :
    f j < 0 := by
  by_contra hnot
  have := h.nonneg i j hij hj (by omega)
  omega

namespace Bracket

variable {a b m : Nat}

/-- Going down. -/
theorem down (h : Bracket f n a b) (ham : a ≤ m) (hmb : m ≤ b) (hm : f m < 0) : Bracket f n a m :=
  ⟨ham, Nat.lt_of_le_of_lt hmb h.lt, h.low, Or.inr hm⟩

/-- Going up. -/
theorem up (h : Bracket f n a b) (hmb : m ≤ b) (hm : 0 < f m) : Bracket f n m b :=
  ⟨hmb, h.lt, by omega, h.high⟩

/-- A bracket of one element is around a candidate. -/
theorem candidate_of_eq (h : Bracket f n a a) : KeyCandidate f n a := by
  refine ⟨h.lt, ?_⟩
  rcases Int.lt_or_eq_of_le h.low with hpos | hzero
  · refine Or.inr ⟨hpos, fun k hk hkn => ?_⟩
    rcases h.high with hlast | hneg
    · omega
    · omega
  · exact Or.inl hzero.symm

/-- A bracket of two elements, of which the first is positive, is around a candidate: the second one
when it is not above the key. -/
theorem candidate_of_succ (hf : SignFalls f n) (h : Bracket f n a (a + 1)) (ha : 0 < f a) :
    KeyCandidate f n (if 0 ≤ f (a + 1) then a + 1 else a) := by
  split
  · rename_i hb
    rcases h.high with hlast | hneg
    · exact candidate_of_eq ⟨Nat.le_refl _, h.lt, hb, Or.inl hlast⟩
    · omega
  · rename_i hb
    refine ⟨by have := h.lt; omega, Or.inr ⟨ha, fun k hk hkn => ?_⟩⟩
    exact hf.neg (show a + 1 ≤ k by omega) hkn (by omega)

end Bracket

/-- Where the way back over the zeros ends. -/
def zerosBack (f : Nat → Int) : Nat → Nat
  | 0     => 0
  | c + 1 => if f c = 0 then zerosBack f c else c + 1

/-- From a candidate the way back leads to the place of the key. Induction on the candidate. -/
theorem KeyCandidate.place (hf : SignFalls f n) {c : Nat} (h : KeyCandidate f n c) :
    KeyPlace f n (zerosBack f c) := by
  induction c with
  | zero =>
      obtain ⟨hlt, hzero | ⟨hpos, hneg⟩⟩ := h
      · exact ⟨hlt, Or.inl ⟨hzero, fun k hk => absurd hk (Nat.not_lt_zero k)⟩⟩
      · refine ⟨hlt, Or.inr ⟨hpos, fun k hk => ?_, fun k hk hkpos => ?_⟩⟩
        · rcases Nat.eq_zero_or_pos k with rfl | hk0
          · exact Int.ne_of_gt hpos
          · exact Int.ne_of_lt (hneg k hk0 hk)
        · by_contra hnot
          have := hneg k (by omega) hk
          omega
  | succ c ih =>
      obtain ⟨hlt, hcase⟩ := h
      rw [zerosBack]
      split
      · rename_i hc
        exact ih ⟨by omega, Or.inl hc⟩
      · rename_i hc
        rcases hcase with hzero | ⟨hpos, hneg⟩
        · -- The element in front of a zero is positive when it is none.
          have hcpos : 0 < f c := by
            have := hf.nonneg c (c + 1) (Nat.le_succ c) hlt (by omega)
            omega
          refine ⟨hlt, Or.inl ⟨hzero, fun k hk => ?_⟩⟩
          exact Int.ne_of_gt (hf.pos k c (by omega) (by omega) hcpos)
        · refine ⟨hlt, Or.inr ⟨hpos, fun k hk => ?_, fun k hk hkpos => ?_⟩⟩
          · rcases Nat.lt_or_ge (c + 1) k with hgt | hle
            · exact Int.ne_of_lt (hneg k hgt hk)
            · exact Int.ne_of_gt (hf.pos k (c + 1) hle hlt hpos)
          · by_contra hnot
            have := hneg k (by omega) hk
            omega

/-! ### Sorted lists -/

/-- The comparison is one of a total preorder. -/
structure CmpPreorder {α : Type*} (cmp : α → α → Int) : Prop where
  swap : ∀ x y, cmp x y < 0 ↔ 0 < cmp y x
  trans : ∀ x y z, cmp x y ≤ 0 → cmp y z ≤ 0 → cmp x z ≤ 0

/-- The comparison of the key with the element at an index. -/
def signAt {α : Type*} (cmp : α → α → Int) (xs : List α) (key : α) (i : Nat) : Int :=
  (xs[i]?.map (cmp key)).getD 0

theorem signAt_of_some {α : Type*} {cmp : α → α → Int} {xs : List α} {key x : α} {i : Nat}
    (h : xs[i]? = some x) : signAt cmp xs key i = cmp key x := by
  rw [signAt, h]
  rfl

/-- In a sorted list the sign of the comparison with a key never rises from left to right. -/
theorem signFalls_of_sorted {α : Type*} {cmp : α → α → Int} (hcmp : CmpPreorder cmp) {xs : List α}
    (hsorted : xs.Pairwise fun x y => cmp x y ≤ 0) (key : α) :
    SignFalls (signAt cmp xs key) xs.length := by
  have hle : ∀ i j, i < j → (hj : j < xs.length) → (hi : i < xs.length) → cmp xs[i] xs[j] ≤ 0 :=
    fun i j hij hj hi => List.pairwise_iff_getElem.mp hsorted i j hi hj hij
  refine ⟨fun i j hij hj h => ?_, fun i j hij hj h => ?_⟩
  · rcases Nat.eq_or_lt_of_le hij with rfl | hlt
    · exact h
    · have hi : i < xs.length := Nat.lt_trans hlt hj
      rw [signAt_of_some (List.getElem?_eq_getElem hj)] at h
      rw [signAt_of_some (List.getElem?_eq_getElem hi)]
      have hkey : cmp xs[j] key ≤ 0 := by
        by_contra hnot
        have := (hcmp.swap key xs[j]).mpr (Int.not_le.mp hnot)
        omega
      have hbelow := hcmp.trans _ _ _ (hle i j hlt hj hi) hkey
      by_contra hnot
      have := (hcmp.swap key xs[i]).mp (Int.not_le.mp hnot)
      omega
  · rcases Nat.eq_or_lt_of_le hij with rfl | hlt
    · exact h
    · have hi : i < xs.length := Nat.lt_trans hlt hj
      rw [signAt_of_some (List.getElem?_eq_getElem hj)] at h
      rw [signAt_of_some (List.getElem?_eq_getElem hi)]
      by_contra hnot
      have := hcmp.trans _ _ _ (Int.not_lt.mp hnot) (hle i j hlt hj hi)
      omega

end Bklib.Lib
