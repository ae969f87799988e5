import Mathlib.Data.Nat.Find
import Mathlib.Order.Basic

/-!
# `Bklib.Lib.LexCompare`: lists compared element by element

A comparison is a function to `Int` of which the sign counts. `lexCompare cmp` takes two lists to the
comparison of the first elements that are not equal, with the end of a list before any element.
The elements need not be ordered: all that is asked is that being equal is an equivalence, and the
theorems say where the lists of three can go wrong.
-/

set_option autoImplicit false

namespace Bklib.Lib

universe u

variable {α : Type u}

/-- Two comparisons the other way round: opposite signs, or both zero. -/
def OppositeSigns (i j : Int) : Prop := (i < 0 ∧ 0 < j) ∨ (0 < i ∧ j < 0) ∨ (i = 0 ∧ j = 0)

/-- Elements that compare equal are the classes of an equivalence. -/
structure CmpEquiv (cmp : α → α → Int) : Prop where
  refl : ∀ x, cmp x x = 0
  symm : ∀ x y, cmp x y = 0 → cmp y x = 0
  trans : ∀ x y z, cmp x y = 0 → cmp y z = 0 → cmp x z = 0

/-- The comparison of two lists. -/
def lexCompare (cmp : α → α → Int) : List α → List α → Int
  | [],      []      => 0
  | [],      _ :: _  => -1
  | _ :: _,  []      => 1
  | x :: xs, y :: ys => if cmp x y ≠ 0 then cmp x y else lexCompare cmp xs ys

/-- The comparison at one position, where a list may have ended. -/
def endCompare (cmp : α → α → Int) : Option α → Option α → Int
  | none,   none   => 0
  | none,   some _ => -1
  | some _, none   => 1
  | some x, some y => cmp x y

variable {cmp : α → α → Int}

/-- A comparison that is an equivalence where it gives zero stays one when the end of a list takes
part. -/
theorem CmpEquiv.endCompare (h : CmpEquiv cmp) : CmpEquiv (endCompare cmp) where
  refl x := by
    cases x with
    | none => rfl
    | some x => exact h.refl x
  symm x y hxy := by
    cases x with
    | none =>
        cases y with
        | none => rfl
        | some y => exact absurd hxy (by simp [Lib.endCompare])
    | some x =>
        cases y with
        | none => exact absurd hxy (by simp [Lib.endCompare])
        | some y => exact h.symm x y hxy
  trans x y z hxy hyz := by
    cases x <;> cases y <;> cases z <;> simp_all [Lib.endCompare]
    exact h.trans _ _ _ hxy hyz

/-- The first position where two lists are not equal. -/
structure FirstDiff (cmp : α → α → Int) (xs ys : List α) (k : Nat) : Prop where
  before : ∀ j < k, endCompare cmp xs[j]? ys[j]? = 0
  here : endCompare cmp xs[k]? ys[k]? ≠ 0

/-- The comparison of two lists is that of their first difference. -/
theorem FirstDiff.lexCompare_eq {xs ys : List α} {k : Nat} (h : FirstDiff cmp xs ys k) :
    lexCompare cmp xs ys = endCompare cmp xs[k]? ys[k]? := by
  induction k generalizing xs ys with
  | zero =>
      have hhere := h.here
      cases xs with
      | nil =>
          cases ys with
          | nil => exact absurd rfl hhere
          | cons y ys => rfl
      | cons x xs =>
          cases ys with
          | nil => rfl
          | cons y ys => exact if_pos hhere
  | succ k ih =>
      have hzero := h.before 0 (Nat.succ_pos k)
      cases xs with
      | nil =>
          cases ys with
          | nil => exact absurd rfl h.here
          | cons y ys => exact absurd hzero (by simp [endCompare])
      | cons x xs =>
          cases ys with
          | nil => exact absurd hzero (by simp [endCompare])
          | cons y ys =>
              have htail : FirstDiff cmp xs ys k :=
                ⟨fun j hj => h.before (j + 1) (Nat.succ_lt_succ hj), h.here⟩
              have hhead : cmp x y = 0 := hzero
              rw [lexCompare, if_neg (not_not.mpr hhead)]
              exact ih htail

/-- Lists that are equal everywhere compare equal. -/
theorem lexCompare_eq_zero {xs ys : List α} (h : ∀ k : Nat, endCompare cmp xs[k]? ys[k]? = 0) :
    lexCompare cmp xs ys = 0 := by
  induction xs generalizing ys with
  | nil =>
      cases ys with
      | nil => rfl
      | cons y ys => exact absurd (h 0) (by simp [endCompare])
  | cons x xs ih =>
      cases ys with
      | nil => exact absurd (h 0) (by simp [endCompare])
      | cons y ys =>
          have hhead : cmp x y = 0 := h 0
          rw [lexCompare, if_neg (not_not.mpr hhead)]
          exact ih fun k => h (k + 1)

/-- A property of positions that does not always hold fails somewhere for the first time. -/
theorem exists_first {p : Nat → Prop} (h : ¬∀ k, p k) : ∃ k, (∀ j < k, p j) ∧ ¬p k := by
  classical
  have hex : ∃ k, ¬p k := not_forall.mp h
  exact ⟨Nat.find hex, fun j hj => not_not.mp (Nat.find_min hex hj), Nat.find_spec hex⟩

/-- Two lists differ at a first place, or nowhere. -/
theorem firstDiff_or (cmp : α → α → Int) (xs ys : List α) :
    (∃ k, FirstDiff cmp xs ys k) ∨ ∀ k : Nat, endCompare cmp xs[k]? ys[k]? = 0 := by
  by_cases h : ∀ k : Nat, endCompare cmp xs[k]? ys[k]? = 0
  · exact Or.inr h
  · obtain ⟨k, hbefore, hhere⟩ := exists_first h
    exact Or.inl ⟨k, hbefore, hhere⟩

/-- The first list has the greater element at the first difference. -/
def Exceeds (cmp : α → α → Int) (xs ys : List α) : Prop :=
  ∃ k, FirstDiff cmp xs ys k ∧ 0 < endCompare cmp xs[k]? ys[k]?

/-- One list is above the other exactly when the comparison is positive. -/
theorem exceeds_iff {xs ys : List α} : Exceeds cmp xs ys ↔ 0 < lexCompare cmp xs ys := by
  constructor
  · rintro ⟨k, hdiff, hpos⟩
    rwa [hdiff.lexCompare_eq]
  · intro hpos
    rcases firstDiff_or cmp xs ys with ⟨k, hdiff⟩ | hequal
    · exact ⟨k, hdiff, by rwa [← hdiff.lexCompare_eq]⟩
    · rw [lexCompare_eq_zero hequal] at hpos
      exact absurd hpos (by decide)

section Equiv

variable (h : CmpEquiv cmp) (xs ys zs : List α)

include h

theorem lexCompare_self : lexCompare cmp xs xs = 0 :=
  lexCompare_eq_zero fun k => h.endCompare.refl xs[k]?

theorem CmpEquiv.firstDiff_symm {xs ys : List α} {k : Nat} (hdiff : FirstDiff cmp xs ys k) :
    FirstDiff cmp ys xs k :=
  ⟨fun j hj => h.endCompare.symm _ _ (hdiff.before j hj),
    fun hzero => hdiff.here (h.endCompare.symm _ _ hzero)⟩

/-- The comparisons of two lists have opposite signs exactly when those of their first difference
have. -/
theorem oppositeSigns_lexCompare_iff :
    OppositeSigns (lexCompare cmp xs ys) (lexCompare cmp ys xs) ↔
      ∀ k, FirstDiff cmp xs ys k →
        OppositeSigns (endCompare cmp xs[k]? ys[k]?) (endCompare cmp ys[k]? xs[k]?) := by
  constructor
  · intro hopp k hdiff
    rwa [hdiff.lexCompare_eq, (h.firstDiff_symm hdiff).lexCompare_eq] at hopp
  · intro hopp
    rcases firstDiff_or cmp xs ys with ⟨k, hdiff⟩ | hequal
    · rw [hdiff.lexCompare_eq, (h.firstDiff_symm hdiff).lexCompare_eq]
      exact hopp k hdiff
    · rw [lexCompare_eq_zero hequal,
        lexCompare_eq_zero fun k => h.endCompare.symm _ _ (hequal k)]
      exact Or.inr (Or.inr ⟨rfl, rfl⟩)

end Equiv

/-- The first position where three lists are not all equal. -/
structure FirstSplit (cmp : α → α → Int) (xs ys zs : List α) (k : Nat) : Prop where
  before : ∀ j < k, endCompare cmp xs[j]? ys[j]? = 0 ∧ endCompare cmp ys[j]? zs[j]? = 0
  here : ¬(endCompare cmp xs[k]? ys[k]? = 0 ∧ endCompare cmp ys[k]? zs[k]? = 0)

/-- The elements of three lists at a position do not go round in a circle. Two of them may be equal
there and still go different ways against the third; then the rest of those two lists must not close
the circle. -/
def NoCircle (cmp : α → α → Int) (xs ys zs : List α) (k : Nat) : Prop :=
  let xy := endCompare cmp xs[k]? ys[k]?
  let yz := endCompare cmp ys[k]? zs[k]?
  let xz := endCompare cmp xs[k]? zs[k]?
  ¬(xy ≤ 0 ∧ yz ≤ 0 ∧ 0 ≤ xz) ∨ (xy = 0 ∧ Exceeds cmp xs ys) ∨ (yz = 0 ∧ Exceeds cmp ys zs) ∨
    (xz = 0 ∧ ¬Exceeds cmp xs zs)

/-- At the first split, lists whose elements differ there compare as these do. -/
theorem FirstSplit.lexCompare_eq (h : CmpEquiv cmp) {xs ys zs : List α} {k : Nat}
    (hsplit : FirstSplit cmp xs ys zs k) :
    (endCompare cmp xs[k]? ys[k]? ≠ 0 → lexCompare cmp xs ys = endCompare cmp xs[k]? ys[k]?) ∧
    (endCompare cmp ys[k]? zs[k]? ≠ 0 → lexCompare cmp ys zs = endCompare cmp ys[k]? zs[k]?) ∧
    (endCompare cmp xs[k]? zs[k]? ≠ 0 → lexCompare cmp xs zs = endCompare cmp xs[k]? zs[k]?) := by
  refine ⟨fun hne => ?_, fun hne => ?_, fun hne => ?_⟩
  · exact FirstDiff.lexCompare_eq ⟨fun j hj => (hsplit.before j hj).1, hne⟩
  · exact FirstDiff.lexCompare_eq ⟨fun j hj => (hsplit.before j hj).2, hne⟩
  · exact FirstDiff.lexCompare_eq ⟨fun j hj => h.endCompare.trans _ _ _ (hsplit.before j hj).1
      (hsplit.before j hj).2, hne⟩

/-- Comparing three lists is transitive exactly when there is no circle at their first split. -/
theorem lexCompare_trans_iff (h : CmpEquiv cmp) (xs ys zs : List α) :
    (lexCompare cmp xs ys ≤ 0 → lexCompare cmp ys zs ≤ 0 → lexCompare cmp xs zs ≤ 0) ↔
      ∀ k, FirstSplit cmp xs ys zs k → NoCircle cmp xs ys zs k := by
  -- Of the three pairs at the first split at most one is equal.
  have hstep : ∀ k, FirstSplit cmp xs ys zs k →
      ((lexCompare cmp xs ys ≤ 0 → lexCompare cmp ys zs ≤ 0 → lexCompare cmp xs zs ≤ 0) ↔
        NoCircle cmp xs ys zs k) := by
    intro k hsplit
    obtain ⟨hxy, hyz, hxz⟩ := hsplit.lexCompare_eq h
    have hhere := hsplit.here
    have h1 := h.endCompare.trans xs[k]? ys[k]? zs[k]?
    have h2 : endCompare cmp xs[k]? ys[k]? = 0 → endCompare cmp xs[k]? zs[k]? = 0 →
        endCompare cmp ys[k]? zs[k]? = 0 := fun ha hb =>
      h.endCompare.trans _ _ _ (h.endCompare.symm _ _ ha) hb
    have h3 : endCompare cmp xs[k]? zs[k]? = 0 → endCompare cmp ys[k]? zs[k]? = 0 →
        endCompare cmp xs[k]? ys[k]? = 0 := fun ha hb =>
      h.endCompare.trans _ _ _ ha (h.endCompare.symm _ _ hb)
    simp only [NoCircle, exceeds_iff]
    generalize endCompare cmp xs[k]? ys[k]? = xy at *
    generalize endCompare cmp ys[k]? zs[k]? = yz at *
    generalize endCompare cmp xs[k]? zs[k]? = xz at *
    omega
  constructor
  · intro htrans k hsplit
    exact (hstep k hsplit).mp htrans
  · intro hno
    by_cases hall : ∀ k : Nat, endCompare cmp xs[k]? ys[k]? = 0 ∧ endCompare cmp ys[k]? zs[k]? = 0
    · intro _ _
      exact Int.le_of_eq
        (lexCompare_eq_zero fun k => h.endCompare.trans _ _ _ (hall k).1 (hall k).2)
    · obtain ⟨k, hbefore, hhere⟩ := exists_first hall
      exact (hstep k ⟨hbefore, hhere⟩).mpr (hno k ⟨hbefore, hhere⟩)

end Bklib.Lib
