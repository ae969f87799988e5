import Mathlib.Order.WellFounded

/-!
# `Bklib.Lib.Rounds`: a loop, round by round

A round of a loop either stops it with a result or makes a move to the next state. `Rounds` relates a
state to the moves that are made from there on and to the result. The rules say that a loop whose
moves go down in a well-founded relation ends, that a budget which the moves of a kind use up bounds
their number, and that an invariant of the moves holds where the loop stops.
-/

set_option autoImplicit false

namespace Bklib.Lib

/-- What a round does: it stops the loop, or makes a move of the kind `b`. -/
inductive Round (σ β ρ : Type*) where
  | stop (r : ρ)
  | move (b : β) (s : σ)

section
variable {σ β ρ : Type*} {round : σ → Round σ β ρ}

/-- The loop makes these moves from `s` on and then stops with `r`. -/
inductive Rounds (round : σ → Round σ β ρ) : σ → List β → ρ → Prop
  | stop {s : σ} {r : ρ} (h : round s = .stop r) : Rounds round s [] r
  | move {s s' : σ} {b : β} {bs : List β} {r : ρ} (h : round s = .move b s')
      (hrest : Rounds round s' bs r) : Rounds round s (b :: bs) r

/-- A loop whose moves go down ends. -/
theorem exists_rounds (round : σ → Round σ β ρ) {rel : σ → σ → Prop} (hwf : WellFounded rel)
    (hdown : ∀ s b s', round s = .move b s' → rel s' s) (s : σ) :
    ∃ bs r, Rounds round s bs r := by
  induction s using hwf.induction with
  | _ s ih =>
    cases hround : round s with
    | stop r => exact ⟨[], r, .stop hround⟩
    | move b s' =>
        obtain ⟨bs, r, hrest⟩ := ih s' (hdown s b s' hround)
        exact ⟨b :: bs, r, .move hround hrest⟩

/-- Moves of a kind that use up a budget are no more than the budget. -/
theorem Rounds.countP_le {s : σ} {bs : List β} {r : ρ} (h : Rounds round s bs r) (p : β → Bool)
    (budget : σ → Nat) (hmove : ∀ s b s', round s = .move b s' →
      budget s' + (if p b then 1 else 0) ≤ budget s) : bs.countP p ≤ budget s := by
  induction h with
  | stop => exact Nat.zero_le _
  | move hround _ ih =>
      have hle := hmove _ _ _ hround
      rw [List.countP_cons]
      omega

/-- What holds of the state before every round gives what holds of the result. -/
theorem Rounds.inv {s : σ} {bs : List β} {r : ρ} (h : Rounds round s bs r) {I : σ → Prop}
    {Q : ρ → Prop} (hmove : ∀ s b s', I s → round s = .move b s' → I s')
    (hstop : ∀ s r, I s → round s = .stop r → Q r) (hs : I s) : Q r := by
  induction h with
  | stop hround => exact hstop _ _ hs hround
  | move hround _ ih => exact ih (hmove _ _ _ hs hround)

/-- A function that goes on behind every move as it started gives the result of the rounds. -/
theorem Rounds.eq_of_unfold {s : σ} {bs : List β} {r : ρ} (h : Rounds round s bs r) {f : σ → ρ}
    (hstop : ∀ s r, round s = .stop r → f s = r)
    (hmove : ∀ s b s', round s = .move b s' → f s = f s') : f s = r := by
  induction h with
  | stop hround => exact hstop _ _ hround
  | move hround _ ih => exact (hmove _ _ _ hround).trans ih

end

end Bklib.Lib
