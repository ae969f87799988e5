import Mathlib.Data.List.Basic
import Mathlib.Data.List.Nodup

/-!
# `Bklib.Lib.DoublyLinked`: chains of links

`Seg next x l y` says that the links `next` lead from `x` along the nodes `l` to `y`, where `none` is
the null link. `DSeg` says it of the links in both directions: `b` is in front of the nodes, `x` the
first of them, `t` the last one and `y` behind them. A segment without nodes has what is in front as
its last and what is behind as its first.

A node goes in between two parts of a segment, or out, by setting the links next to it.
-/

set_option autoImplicit false

namespace Bklib.Lib

section
variable {α : Type*}

/-- The links lead from `x` along `l` to `y`. -/
def Seg (next : α → Option α) : Option α → List α → Option α → Prop
  | x, [],     y => x = y
  | x, a :: l, y => x = some a ∧ Seg next (next a) l y

/-- The links of both directions lead along `l`, from `b` in front of it to `y` behind it. -/
def DSeg (next prev : α → Option α) :
    Option α → Option α → List α → Option α → Option α → Prop
  | b, x, [],     t, y => x = y ∧ t = b
  | b, x, a :: l, t, y => x = some a ∧ prev a = b ∧ DSeg next prev (some a) (next a) l t y

variable {next prev next' prev' : α → Option α} {b x t y : Option α} {l l₁ l₂ : List α}

/-- A segment can be cut at any place, and two that meet are one. -/
theorem seg_append {next : α → Option α} {x y : Option α} {l₁ l₂ : List α} :
    Seg next x (l₁ ++ l₂) y ↔ ∃ z, Seg next x l₁ z ∧ Seg next z l₂ y := by
  induction l₁ generalizing x with
  | nil =>
      constructor
      · exact fun h => ⟨x, rfl, h⟩
      · rintro ⟨z, rfl, h⟩
        exact h
  | cons a l₁ ih =>
      show x = some a ∧ Seg next (next a) (l₁ ++ l₂) y ↔ _
      rw [ih]
      constructor
      · rintro ⟨hx, z, h₁, h₂⟩
        exact ⟨z, ⟨hx, h₁⟩, h₂⟩
      · rintro ⟨z, ⟨hx, h₁⟩, h₂⟩
        exact ⟨hx, z, h₁, h₂⟩

/-- The nodes that are reached before the null link are determined by the links. -/
theorem Seg.unique {l' : List α} (h : Seg next x l none) (h' : Seg next x l' none) : l = l' := by
  induction l generalizing x l' with
  | nil =>
      cases l' with
      | nil => rfl
      | cons a l' =>
          obtain rfl : x = none := h
          cases h'.1
  | cons a l ih =>
      cases l' with
      | nil =>
          obtain rfl : x = none := h'
          cases h.1
      | cons a' l' =>
          obtain rfl : a = a' := Option.some.inj (h.1.symm.trans h'.1)
          rw [ih h.2 h'.2]

/-- The same for a segment with its links back. -/
theorem dseg_append :
    DSeg next prev b x (l₁ ++ l₂) t y ↔
      ∃ m z, DSeg next prev b x l₁ m z ∧ DSeg next prev m z l₂ t y := by
  induction l₁ generalizing b x with
  | nil =>
      constructor
      · exact fun h => ⟨b, x, ⟨rfl, rfl⟩, h⟩
      · rintro ⟨m, z, ⟨rfl, rfl⟩, h⟩
        exact h
  | cons a l₁ ih =>
      show x = some a ∧ prev a = b ∧ DSeg next prev (some a) (next a) (l₁ ++ l₂) t y ↔ _
      rw [ih]
      constructor
      · rintro ⟨hx, hb, m, z, h₁, h₂⟩
        exact ⟨m, z, ⟨hx, hb, h₁⟩, h₂⟩
      · rintro ⟨m, z, ⟨hx, hb, h₁⟩, h₂⟩
        exact ⟨hx, hb, m, z, h₁, h₂⟩

/-- The links forwards. -/
theorem DSeg.seg_next (h : DSeg next prev b x l t y) : Seg next x l y := by
  induction l generalizing b x with
  | nil => exact h.1
  | cons a l ih => exact ⟨h.1, ih h.2.2⟩

/-- The links backwards. -/
theorem DSeg.seg_prev (h : DSeg next prev b x l t y) : Seg prev t l.reverse b := by
  induction l generalizing b x with
  | nil => exact h.2
  | cons a l ih =>
      rw [List.reverse_cons, seg_append]
      exact ⟨some a, ih h.2.2, rfl, h.2.1⟩

theorem DSeg.first_eq (h : DSeg next prev b x l t y) : x = l.head?.or y := by
  cases l with
  | nil => exact h.1
  | cons a l => exact h.1

/-- The link back behind a segment is its last node, or the one before the segment when it is empty.
-/
theorem DSeg.last_eq (h : DSeg next prev b x l t y) : t = l.getLast?.or b := by
  induction l generalizing b x with
  | nil => exact h.2
  | cons a l ih =>
      rw [ih h.2.2, List.getLast?_cons]
      cases l.getLast? <;> rfl

/-- The first node links to what is in front. -/
theorem DSeg.prev_first (h : DSeg next prev b x l t y) : ∀ c ∈ l.head?, prev c = b := by
  cases l with
  | nil => simp
  | cons a l => simpa using h.2.1

/-- The last node links to what is behind. -/
theorem DSeg.next_last (h : DSeg next prev b x l t y) : ∀ c ∈ l.getLast?, next c = y := by
  intro c hc
  obtain ⟨l₀, rfl⟩ := List.getLast?_eq_some_iff.mp hc
  obtain ⟨m, z, -, -, -, hy, -⟩ := dseg_append.mp h
  exact hy

/-- The last node of a part links to the next part. -/
theorem DSeg.next_between (h : DSeg next prev b x (l₁ ++ l₂) t y) :
    ∀ c ∈ l₁.getLast?, next c = l₂.head?.or y := by
  obtain ⟨m, z, h₁, h₂⟩ := dseg_append.mp h
  rw [← h₂.first_eq]
  exact h₁.next_last

/-- Other links that agree on the nodes. -/
theorem DSeg.congr (h : DSeg next prev b x l t y) (hnext : ∀ c ∈ l, next' c = next c)
    (hprev : ∀ c ∈ l, prev' c = prev c) : DSeg next' prev' b x l t y := by
  induction l generalizing b x with
  | nil => exact h
  | cons a l ih =>
      obtain ⟨hx, hb, hrest⟩ := h
      refine ⟨hx, (hprev a List.mem_cons_self).trans hb, ?_⟩
      rw [hnext a List.mem_cons_self]
      exact ih hrest (fun c hc => hnext c (List.mem_cons_of_mem a hc))
        (fun c hc => hprev c (List.mem_cons_of_mem a hc))

/-- Something else in front: the first node links back to it. -/
theorem DSeg.set_before (h : DSeg next prev b x l t y) {b' : Option α}
    (hfirst : ∀ c ∈ l.head?, prev' c = b') (hnext : ∀ c ∈ l, next' c = next c)
    (hprev : ∀ c ∈ l.tail, prev' c = prev c) :
    DSeg next' prev' b' x l (l.getLast?.or b') y := by
  cases l with
  | nil => exact ⟨h.1, rfl⟩
  | cons a l =>
      obtain ⟨hx, -, hrest⟩ := h
      have hlast : (a :: l).getLast?.or b' = t := by
        rw [hrest.last_eq, List.getLast?_cons]
        cases l.getLast? <;> rfl
      rw [hlast]
      refine ⟨hx, hfirst a rfl, ?_⟩
      rw [hnext a List.mem_cons_self]
      exact hrest.congr (fun c hc => hnext c (List.mem_cons_of_mem a hc)) hprev

/-- Something else behind: the last node links to it. -/
theorem DSeg.set_after (h : DSeg next prev b x l t y) {y' : Option α}
    (hlast : ∀ c ∈ l.getLast?, next' c = y') (hnext : ∀ c ∈ l.dropLast, next' c = next c)
    (hprev : ∀ c ∈ l, prev' c = prev c) :
    DSeg next' prev' b (l.head?.or y') l t y' := by
  induction l generalizing b x with
  | nil => exact ⟨rfl, h.2⟩
  | cons a l ih =>
      obtain ⟨hx, hb, hrest⟩ := h
      refine ⟨rfl, (hprev a List.mem_cons_self).trans hb, ?_⟩
      cases l with
      | nil =>
          rw [hlast a rfl]
          exact ⟨rfl, hrest.2⟩
      | cons c l =>
          have hnext' := hnext a List.mem_cons_self
          have hc := ih hrest hlast (fun d hd => hnext d (List.mem_cons_of_mem a hd))
            (fun d hd => hprev d (List.mem_cons_of_mem a hd))
          rw [hnext', hrest.first_eq]
          exact hc

/-- The last of different nodes is none of those before it, and the first none of those behind it. -/
theorem getLast?_ne_of_mem_dropLast (h : l.Nodup) {c : α} (hc : c ∈ l.dropLast) :
    l.getLast? ≠ some c := by
  intro hlast
  obtain ⟨l₀, rfl⟩ := List.getLast?_eq_some_iff.mp hlast
  rw [List.dropLast_concat] at hc
  exact (List.nodup_append.mp h).2.2 c hc c List.mem_cons_self rfl

theorem head?_ne_of_mem_tail (h : l.Nodup) {c : α} (hc : c ∈ l.tail) : l.head? ≠ some c := by
  intro hfirst
  obtain ⟨l₀, rfl⟩ := List.head?_eq_some_iff.mp hfirst
  exact (List.nodup_cons.mp h).1 hc

/-- A node between two parts of a segment. -/
theorem DSeg.insert (h : DSeg next prev b x (l₁ ++ l₂) t y) {a : α}
    (ha : next' a = l₂.head?.or y ∧ prev' a = l₁.getLast?.or b)
    (hlast : ∀ c ∈ l₁.getLast?, next' c = some a) (hfirst : ∀ c ∈ l₂.head?, prev' c = some a)
    (hnext₁ : ∀ c ∈ l₁.dropLast, next' c = next c) (hprev₁ : ∀ c ∈ l₁, prev' c = prev c)
    (hnext₂ : ∀ c ∈ l₂, next' c = next c) (hprev₂ : ∀ c ∈ l₂.tail, prev' c = prev c) :
    DSeg next' prev' b (l₁.head?.or (some a)) (l₁ ++ a :: l₂) (l₂.getLast?.or (some a)) y := by
  obtain ⟨m, z, h₁, h₂⟩ := dseg_append.mp h
  refine dseg_append.mpr ⟨m, some a, h₁.set_after hlast hnext₁ hprev₁, rfl, ?_, ?_⟩
  · rw [ha.2, h₁.last_eq]
  · rw [ha.1, ← h₂.first_eq]
    exact h₂.set_before hfirst hnext₂ hprev₂

/-- A node taken out of a segment. -/
theorem DSeg.remove {a : α} (h : DSeg next prev b x (l₁ ++ a :: l₂) t y)
    (hlast : ∀ c ∈ l₁.getLast?, next' c = next a) (hfirst : ∀ c ∈ l₂.head?, prev' c = prev a)
    (hnext₁ : ∀ c ∈ l₁.dropLast, next' c = next c) (hprev₁ : ∀ c ∈ l₁, prev' c = prev c)
    (hnext₂ : ∀ c ∈ l₂, next' c = next c) (hprev₂ : ∀ c ∈ l₂.tail, prev' c = prev c) :
    DSeg next' prev' b (l₁.head?.or (next a)) (l₁ ++ l₂) (l₂.getLast?.or (prev a)) y := by
  obtain ⟨m, z, h₁, -, hprev, h₂⟩ := dseg_append.mp h
  refine dseg_append.mpr ⟨m, next a, h₁.set_after hlast hnext₁ hprev₁, ?_⟩
  rw [hprev] at hfirst ⊢
  exact h₂.set_before hfirst hnext₂ hprev₂

end

end Bklib.Lib
