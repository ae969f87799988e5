import Mathlib.Data.List.Basic

/-!
# `Bklib.Lib.Trace`: histories that grow at the end

A trace lists what happened, oldest first. `Allowed ok t` says that every entry of `t` was allowed
by the entries before it, and `since p t` is the part of `t` behind the last entry that meets `p`.
Both are computed from the end, one rule for each new entry.
-/

set_option autoImplicit false

namespace Bklib.Lib

variable {ε : Type*}

/-- `ok pre e` holds for every entry `e` of the trace and the entries `pre` before it. -/
def Allowed (ok : List ε → ε → Prop) (t : List ε) : Prop :=
  ∀ pre e post, t = pre ++ e :: post → ok pre e

theorem allowed_nil (ok : List ε → ε → Prop) : Allowed ok [] :=
  fun _ _ _ h => absurd h (by simp)

/-- A new entry is checked against the trace so far. -/
theorem Allowed.concat {ok : List ε → ε → Prop} {t : List ε} (h : Allowed ok t) {e : ε}
    (he : ok t e) : Allowed ok (t ++ [e]) := by
  intro pre e' post hsplit
  rcases List.eq_nil_or_concat post with rfl | ⟨post', last, rfl⟩
  · obtain ⟨rfl, hlast⟩ := List.append_inj' hsplit rfl
    rw [← List.singleton_inj.mp hlast]
    exact he
  · rw [List.concat_eq_append, ← List.cons_append, ← List.append_assoc] at hsplit
    exact h pre e' post' (List.append_inj' hsplit rfl).1

/-- The entries behind the last one that meets `p`. -/
def since (p : ε → Bool) (t : List ε) : List ε :=
  t.foldl (fun acc e => if p e then [] else acc ++ [e]) []

@[simp] theorem since_nil (p : ε → Bool) : since p [] = [] := rfl

theorem since_concat (p : ε → Bool) (t : List ε) (e : ε) :
    since p (t ++ [e]) = if p e then [] else since p t ++ [e] :=
  List.foldl_concat ..

@[simp] theorem since_concat_of_not {p : ε → Bool} (t : List ε) {e : ε} (he : p e = false) :
    since p (t ++ [e]) = since p t ++ [e] := by
  rw [since_concat, he]
  rfl

end Bklib.Lib
