import Mathlib.Data.List.Induction

/-!
# `Bklib.Lib.Protocol`: the order in which things may be done

A protocol says, for each phase, which events may come next and which phase they lead to. `follow`
goes through a list of events as long as they are allowed. What the events say about the phase they
have led to is found with an invariant over the events so far (`follow_inv`), and an event that is
allowed in some phases only comes where one of them has been reached (`follow_split`).
-/

set_option autoImplicit false

namespace Bklib.Lib

variable {π ε : Type*}

/-- The phase behind the events, if the protocol allows them. -/
def follow (next : π → ε → Option π) : π → List ε → Option π
  | p, []      => some p
  | p, e :: es => (next p e).bind fun q => follow next q es

variable {next : π → ε → Option π} {p q : π}

@[simp] theorem follow_nil : follow next p [] = some p := rfl

/-- Events in a row are followed one part after the other. -/
theorem follow_append (es fs : List ε) :
    follow next p (es ++ fs) = (follow next p es).bind fun q => follow next q fs := by
  induction es generalizing p with
  | nil => rfl
  | cons e es ih =>
      rw [List.cons_append, follow, follow]
      cases next p e with
      | none => rfl
      | some q => exact ih

/-- One more event. -/
theorem follow_concat {es : List ε} {e : ε} {r : π} (h : follow next p es = some q)
    (he : next q e = some r) : follow next p (es ++ [e]) = some r := by
  rw [follow_append, h, Option.bind_some, follow, he]
  rfl

/-- The events before an event led to a phase in which it is allowed. -/
theorem follow_split {es fs : List ε} {e : ε} (h : follow next p (es ++ e :: fs) = some q) :
    ∃ r t, follow next p es = some r ∧ next r e = some t ∧ follow next t fs = some q := by
  rw [follow_append] at h
  obtain ⟨r, hr, h⟩ := Option.bind_eq_some_iff.mp h
  obtain ⟨t, ht, h⟩ := Option.bind_eq_some_iff.mp h
  exact ⟨r, t, hr, ht, h⟩

/-- The run rule: what holds of no events and the first phase, and is kept by every event that is
allowed, holds of the events and the phase they lead to. -/
theorem follow_inv {I : List ε → π → Prop} (hnil : I [] p)
    (hstep : ∀ es r e t, I es r → next r e = some t → I (es ++ [e]) t) (es : List ε) :
    ∀ {q}, follow next p es = some q → I es q := by
  induction es using List.reverseRecOn with
  | nil =>
      intro q h
      rw [← Option.some.inj h]
      exact hnil
  | append_singleton es e ih =>
      intro q h
      obtain ⟨r, t, hr, ht, hq⟩ := follow_split h
      rw [← Option.some.inj hq]
      exact hstep es r e t (ih hr) ht

/-- Each event comes where `P` holds of it. -/
def Meets (next : π → ε → Option π) (P : π → ε → Prop) : π → List ε → Prop
  | _, []      => True
  | p, e :: es => P p e ∧ ∀ q, next p e = some q → Meets next P q es

instance decidableMeets {P : π → ε → Prop} [∀ p e, Decidable (P p e)] :
    ∀ (p : π) (es : List ε), Decidable (Meets next P p es)
  | _, []      => .isTrue trivial
  | p, e :: es =>
      have : DecidablePred fun q => Meets next P q es := fun q => decidableMeets q es
      inferInstanceAs (Decidable (P p e ∧ ∀ q ∈ next p e, Meets next P q es))

end Bklib.Lib
