import Mathlib.Data.List.Basic

/-!
# `Bklib.Lib.Recent`: what has been used, latest first

`recent same uses` leaves out of a list of uses, latest first, what is the same as a later use. Its
first entries can be kept up to date without the others: `take_recent_cons` says what a use makes of
the first `n`, since at most one of them can be the same as what is used.
-/

set_option autoImplicit false

namespace Bklib.Lib

variable {α : Type*}

/-- What has been used, each in its latest use, latest first. The uses are listed latest first. -/
def recent (same : α → α → Bool) : List α → List α
  | []        => []
  | u :: uses => u :: (recent same uses).filter fun v => !same u v

/-- Where at most one element fails a test, the first `n` that pass it are among the first `n + 1`. -/
theorem take_filter_take {p : α → Bool} {l : List α}
    (h : l.Pairwise fun a b => p a = true ∨ p b = true) (n : Nat) :
    ((l.take (n + 1)).filter p).take n = (l.filter p).take n := by
  induction l generalizing n with
  | nil => rfl
  | cons a l ih =>
      obtain ⟨ha, hl⟩ := List.pairwise_cons.mp h
      by_cases hp : p a = true
      · rw [List.take_succ_cons, List.filter_cons_of_pos hp, List.filter_cons_of_pos hp]
        cases n with
        | zero   => rfl
        | succ n => rw [List.take_succ_cons, List.take_succ_cons, ih hl]
      · -- all that is behind `a` passes
        have hall : ∀ b ∈ l, p b = true := fun b hb => (ha b hb).resolve_left hp
        rw [List.take_succ_cons, List.filter_cons_of_neg hp, List.filter_cons_of_neg hp,
          List.filter_eq_self.mpr hall,
          List.filter_eq_self.mpr fun b hb => hall b (List.mem_of_mem_take hb), List.take_take,
          Nat.min_self]

section

variable {same : α → α → Bool} (hsymm : ∀ a b, same a b = true → same b a = true)
  (htrans : ∀ a b c, same a b = true → same b c = true → same a c = true)

/-- What is recent was used. -/
theorem mem_of_mem_recent {uses : List α} {v : α} (h : v ∈ recent same uses) : v ∈ uses := by
  induction uses with
  | nil => exact h
  | cons u uses ih =>
      rcases List.mem_cons.mp h with rfl | hmem
      · exact List.mem_cons_self
      · exact List.mem_cons_of_mem u (ih (List.mem_of_mem_filter hmem))

/-- No two entries are the same. -/
theorem pairwise_recent (uses : List α) :
    (recent same uses).Pairwise fun a b => same a b = false := by
  induction uses with
  | nil => exact List.Pairwise.nil
  | cons u uses ih =>
      refine List.pairwise_cons.mpr ⟨fun b hb => ?_, ih.filter _⟩
      simpa using (List.mem_filter.mp hb).2

include hsymm htrans in
/-- A use, and what it leaves of the first entries. -/
theorem take_recent_cons (u : α) (uses : List α) (n : Nat) :
    (recent same (u :: uses)).take (n + 1) =
      u :: (((recent same uses).take (n + 1)).filter fun v => !same u v).take n := by
  have hone : (recent same uses).Pairwise fun a b => (!same u a) = true ∨ (!same u b) = true := by
    refine (pairwise_recent uses).imp fun {a b} hab => ?_
    by_contra hboth
    rw [not_or, Bool.not_eq_true', Bool.not_eq_true', Bool.not_eq_false, Bool.not_eq_false] at hboth
    rw [htrans a u b (hsymm u a hboth.1) hboth.2] at hab
    exact Bool.noConfusion hab
  rw [recent, List.take_succ_cons, take_filter_take hone]

end

end Bklib.Lib
