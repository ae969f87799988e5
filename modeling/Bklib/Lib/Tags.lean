import Mathlib.Data.List.Basic
import Mathlib.Logic.Function.Basic

/-!
# `Bklib.Lib.Tags`: requests that share tags

A party sends requests under tags and takes a tag back when the request is over. Replies carry the tag
only. `flight` lists the requests whose replies are still on their way, one entry for each reply, and
`pending` has the request that a tag stands for now. `Matched` says that no reply can be taken for the
reply to another request. It survives everything but one step: a tag that is given out while a reply
under it is on its way (`Matched.open`).
-/

set_option autoImplicit false

namespace Bklib.Lib

variable {τ ρ : Type*}

/-- The requests with replies on their way are the ones that their tags stand for, unless the tags are
free. -/
def Matched (tag : ρ → τ) (pending : τ → Option ρ) (flight : List ρ) : Prop :=
  ∀ r ∈ flight, ∀ r', pending (tag r) = some r' → r' = r

theorem matched_nil (tag : ρ → τ) (pending : τ → Option ρ) : Matched tag pending [] :=
  fun _ hr => absurd hr List.not_mem_nil

variable {tag : ρ → τ} {pending pending' : τ → Option ρ} {flight : List ρ}

/-- Tags that are taken back do no harm. -/
theorem Matched.close (h : Matched tag pending flight)
    (hsub : ∀ t r, pending' t = some r → pending t = some r) : Matched tag pending' flight :=
  fun r hr r' hr' => h r hr r' (hsub _ r' hr')

/-- Replies that arrive, or are lost, do no harm. -/
theorem Matched.arrive (h : Matched tag pending flight) (i : Nat) :
    Matched tag pending (flight.eraseIdx i) :=
  fun r hr => h r (List.mem_of_mem_eraseIdx hr)

/-- A tag that no reply on its way has can be given to a new request, with `n` replies. -/
theorem Matched.open (h : Matched tag pending flight) {new : ρ}
    (hfree : ∀ r ∈ flight, tag r ≠ tag new)
    (hnew : ∀ r, pending' (tag new) = some r → r = new)
    (hold : ∀ t r, t ≠ tag new → pending' t = some r → pending t = some r) (n : Nat) :
    Matched tag pending' (flight ++ List.replicate n new) := by
  intro r hr r' hr'
  rcases List.mem_append.mp hr with hmem | hmem
  · exact h r hmem r' (hold (tag r) r' (hfree r hmem) hr')
  · obtain rfl := List.eq_of_mem_replicate hmem
    exact hnew r' hr'

end Bklib.Lib
