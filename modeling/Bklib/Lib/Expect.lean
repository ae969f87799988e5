import Bklib.Lib.Run
import Mathlib.Data.List.Chain

/-!
# `Bklib.Lib.Expect`: a receiver that expects the next element

A receiver notes what it expects next when it takes an element, and takes an element only when it is
the expected one. The elements of a run are all taken exactly when each of them is what the one
before it made the receiver expect.
-/

set_option autoImplicit false

namespace Bklib.Lib

section
variable {σ ι α ν : Type*}

/-- The rules of a receiver: `elem` is the element of an input, `pos` its position, `next` the
position behind it, and `expect` what a state expects. -/
structure Receiver (step : σ → ι → σ) (elem : ι → Option α) (pos next : α → ν)
    (expect : σ → Option ν) : Prop where
  skip : ∀ s i, elem i = none → expect (step s i) = expect s
  take : ∀ s i a, elem i = some a → (∀ x ∈ expect s, pos a = x) → expect (step s i) = some (next a)

/-- The element of the input, if it has one, is the expected one, if one is expected. -/
def Expected (elem : ι → Option α) (pos : α → ν) (expect : σ → Option ν) (s : σ) (i : ι) : Prop :=
  ∀ a ∈ elem i, ∀ x ∈ expect s, pos a = x

/-- Each element is where the one before it ends, and the first one where `x` says. -/
def Consecutive (pos next : α → ν) (x : Option ν) (as : List α) : Prop :=
  (∀ a ∈ as.head?, ∀ y ∈ x, pos a = y) ∧ as.IsChain fun a b => pos b = next a

variable {step : σ → ι → σ} {elem : ι → Option α} {pos next : α → ν} {expect : σ → Option ν}

/-- One more element in front: it stands where it was expected, and the rest follow it. -/
theorem consecutive_cons (x : Option ν) (a : α) (as : List α) :
    Consecutive pos next x (a :: as) ↔
      (∀ y ∈ x, pos a = y) ∧ Consecutive pos next (some (next a)) as := by
  unfold Consecutive
  rw [List.isChain_cons, List.head?_cons]
  simp only [Option.mem_def, Option.some.injEq, forall_eq']

/-- The elements of a run are the expected ones exactly when they are consecutive. -/
theorem allSteps_expected_iff (h : Receiver step elem pos next expect) {is : List ι} :
    ∀ {s}, AllSteps (Expected elem pos expect) step s is ↔
      Consecutive pos next (expect s) (is.filterMap elem) := by
  induction is with
  | nil =>
      intro s
      simp [Consecutive]
  | cons i is ih =>
      intro s
      rw [allSteps_cons]
      cases helem : elem i with
      | none =>
          have hnone : Expected elem pos expect s i := by
            intro a ha
            rw [helem] at ha
            cases ha
          rw [List.filterMap_cons_none helem, ih, h.skip s i helem]
          exact and_iff_right hnone
      | some a =>
          have hsome : Expected elem pos expect s i ↔ ∀ x ∈ expect s, pos a = x := by
            unfold Expected
            rw [helem]
            simp only [Option.mem_def, Option.some.injEq, forall_eq']
          rw [List.filterMap_cons_some helem, consecutive_cons, hsome, ih]
          refine and_congr_right fun htake => ?_
          rw [h.take s i a helem htake]

/-- A condition on the elements that another one follows. -/
theorem isChain_left_iff {P : α → Prop} {as : List α} :
    (as.IsChain fun a _ => P a) ↔ ∀ a ∈ as.dropLast, P a := by
  induction as with
  | nil => simp
  | cons a as ih =>
      cases as with
      | nil => simp
      | cons b as =>
          rw [List.isChain_cons_cons, ih, List.dropLast_cons_cons, List.forall_mem_cons]

/-- Two relations that agree where a third one holds make the same of its chains chains. -/
theorem isChain_congr {R S T : α → α → Prop} (h : ∀ a b, R a b → (S a b ↔ T a b)) {as : List α}
    (hR : as.IsChain R) : as.IsChain S ↔ as.IsChain T := by
  induction hR with
  | nil => simp
  | singleton => simp
  | cons_cons hab _ ih => rw [List.isChain_cons_cons, List.isChain_cons_cons, ih, h _ _ hab]

end

end Bklib.Lib
