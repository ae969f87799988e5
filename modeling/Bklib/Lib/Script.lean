import Mathlib.Data.List.Basic
import Mathlib.Data.Nat.Find

/-!
# `Bklib.Lib.Script`: calls made in order until one says stop

A script is the list of calls that a procedure makes when nothing stops it. Its call number `i`
stops it when `stop i`. `play stop cs` are the calls made of the script `cs`: a first part of the
script, in which at most the last call says stop (`play_cases`).
-/

set_option autoImplicit false

namespace Bklib.Lib

variable {α β : Type*}

/-- The calls made of a script, up to the first that says stop. -/
def play : (Nat → Bool) → List α → List α
  | _,    []      => []
  | stop, c :: cs => if stop 0 then [c] else c :: play (fun i => stop (i + 1)) cs

variable {stop : Nat → Bool}

@[simp] theorem play_nil : play stop ([] : List α) = [] := rfl

theorem play_cons_of_stop (h : stop 0 = true) (c : α) (cs : List α) :
    play stop (c :: cs) = [c] := by
  rw [play, if_pos h]

theorem play_cons_of_not (h : stop 0 = false) (c : α) (cs : List α) :
    play stop (c :: cs) = c :: play (fun i => stop (i + 1)) cs := by
  rw [play, h]
  rfl

/-- A script in two parts, the first of which is played in full and does not stop. -/
theorem play_append_of_run (cs : List α) (h : ∀ i, i < cs.length → stop i = false) (ds : List α) :
    play stop (cs ++ ds) = cs ++ play (fun i => stop (cs.length + i)) ds := by
  induction cs generalizing stop with
  | nil => simp
  | cons c cs ih =>
      have hshift : (fun i => stop ((c :: cs).length + i))
          = fun i => stop (cs.length + i + 1) := by
        funext i
        rw [List.length_cons, Nat.add_right_comm]
      rw [List.cons_append, play_cons_of_not (h 0 (by simp)), hshift]
      exact congrArg (c :: ·) (ih fun i hi => h (i + 1) (by simpa using hi))

/-- A script that no call stops. -/
theorem play_eq_self {cs : List α} (h : ∀ i, i < cs.length → stop i = false) :
    play stop cs = cs := by
  have hplay := play_append_of_run cs h []
  rwa [List.append_nil, play_nil, List.append_nil] at hplay

/-- A script that is stopped by its call number `i`. -/
theorem play_eq_take {i : Nat} {cs : List α} (hrun : ∀ j, j < i → stop j = false)
    (hstop : stop i = true) (hi : i < cs.length) : play stop cs = cs.take (i + 1) := by
  have hlen : (cs.take i).length = i := List.length_take_of_le (by omega)
  have hplay := play_append_of_run (cs.take i) (fun j hj => hrun j (by omega)) (cs.drop i)
  rw [List.take_append_drop, hlen, List.drop_eq_getElem_cons hi,
    play_cons_of_stop (by simpa using hstop)] at hplay
  rw [hplay, List.take_succ_eq_append_getElem hi]

/-- Every script is played in full or stopped by one of its calls. -/
theorem play_cases (stop : Nat → Bool) (cs : List α) :
    ((∀ i, i < cs.length → stop i = false) ∧ play stop cs = cs) ∨
      ∃ i, i < cs.length ∧ (∀ j, j < i → stop j = false) ∧ stop i = true ∧
        play stop cs = cs.take (i + 1) := by
  by_cases h : ∃ i, i < cs.length ∧ stop i = true
  · have hfirst := Nat.find_spec h
    have hrun : ∀ j, j < Nat.find h → stop j = false := by
      intro j hj
      have hno := Nat.find_min h hj
      rw [not_and, Bool.not_eq_true] at hno
      exact hno (by omega)
    exact Or.inr ⟨_, hfirst.1, hrun, hfirst.2, play_eq_take hrun hfirst.2 hfirst.1⟩
  · have hrun : ∀ i, i < cs.length → stop i = false := by
      intro i hi
      rw [Bool.eq_false_iff]
      exact fun hstop => h ⟨i, hi, hstop⟩
    exact Or.inl ⟨hrun, play_eq_self hrun⟩

end Bklib.Lib
