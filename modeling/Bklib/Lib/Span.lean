import Mathlib.Data.List.Basic

/-!
# `Bklib.Lib.Span`: what stands at a place of a list

`Span l a p` says that the list `p` stands in `l` from position `a` on. A cursor that reads `p` goes
along with `Span.head` and `Span.tail`; a store at another place keeps the span (`Span.set`), and one
right behind it makes it longer (`Span.snoc`).
-/

set_option autoImplicit false

namespace Bklib.Lib

variable {α : Type*} {l p q : List α} {a : Nat} {x : α}

/-- The elements of `p` stand in `l` from `a` on. -/
def Span (l : List α) (a : Nat) (p : List α) : Prop := ∀ i, i < p.length → l[a + i]? = p[i]?

namespace Span

theorem nil (l : List α) (a : Nat) : Span l a [] := fun _ hi => absurd hi (Nat.not_lt_zero _)

theorem of_drop (rest : List α) (h : l.drop a = p ++ rest) : Span l a p := by
  intro i hi
  rw [← List.getElem?_drop, h, List.getElem?_append_left hi]

theorem head (h : Span l a (x :: p)) : l[a]? = some x := h 0 (Nat.succ_pos _)

theorem tail (h : Span l a (x :: p)) : Span l (a + 1) p := by
  intro i hi
  rw [Nat.add_assoc, Nat.add_comm 1]
  exact h (i + 1) (Nat.succ_lt_succ hi)

/-- A span that starts with `p` has the rest behind it. -/
theorem append_right (h : Span l a (p ++ q)) : Span l (a + p.length) q := by
  induction p generalizing a with
  | nil => exact h
  | cons y p ih =>
      have hq := ih h.tail
      rwa [Nat.add_assoc, Nat.add_comm 1] at hq

theorem append_left (h : Span l a (p ++ q)) : Span l a p := by
  intro i hi
  rw [h i (by rw [List.length_append]; omega), List.getElem?_append_left hi]

/-- A span that is not empty lies inside. -/
theorem le_length (h : Span l a (p ++ [x])) : a + p.length < l.length :=
  (List.getElem?_eq_some_iff.mp h.append_right.head).1

/-- A store outside of the span. -/
theorem set (h : Span l a p) {d : Nat} (hd : d < a ∨ a + p.length ≤ d) (y : α) :
    Span (l.set d y) a p := by
  intro i hi
  rw [List.getElem?_set_ne (by omega)]
  exact h i hi

/-- A store right behind the span. -/
theorem snoc (h : Span l a p) (hlt : a + p.length < l.length) (y : α) :
    Span (l.set (a + p.length) y) a (p ++ [y]) := by
  intro i hi
  rw [List.length_append, List.length_singleton] at hi
  by_cases hlast : i = p.length
  · rw [hlast, List.getElem?_set_self hlt, List.getElem?_concat_length]
  · have hip : i < p.length := by omega
    rw [List.getElem?_append_left hip]
    exact h.set (Or.inr (Nat.le_refl _)) y i hip

/-- What stands at a place, read from there. -/
theorem take_drop (h : Span l a p) : (l.drop a).take p.length = p := by
  apply List.ext_getElem?
  intro i
  by_cases hi : i < p.length
  · rw [List.getElem?_take_of_lt hi, List.getElem?_drop, h i hi]
  · rw [List.getElem?_take_eq_none (by omega), List.getElem?_eq_none (by omega)]

end Span

end Bklib.Lib
