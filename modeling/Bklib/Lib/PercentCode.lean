import Mathlib.Data.List.Basic

/-!
# `Bklib.Lib.PercentCode`: escapes of two digits

In a percent coded text the character `pct` starts an escape, which two more characters complete;
`val` is what these stand for. `percentDecode` reads any text, and ends at an escape that is cut off.
`PercentSpells` is the same as a grammar (`percentSpells_iff`).

`PercentCode` is the code as it is written: some characters stand for themselves, and some escapes are
used. A text of it is decoded to what it was written for, whatever stands behind (`PercentCode.decode`).
-/

set_option autoImplicit false

namespace Bklib.Lib

variable {α : Type*}

section Decode

variable [DecidableEq α] (pct : α) (val : α → α → α)

/-- What a text stands for. -/
def percentDecode : List α → List α
  | []     => []
  | c :: t =>
      if c = pct then
        match t with
        | a :: b :: t => val a b :: percentDecode t
        | _           => []
      else c :: percentDecode t

/-- `s` is what a text spells. -/
inductive PercentSpells : List α → List α → Prop
  | nil : PercentSpells [] []
  | raw {c : α} {t s : List α} : c ≠ pct → PercentSpells t s → PercentSpells (c :: t) (c :: s)
  | escape {a b : α} {t s : List α} :
      PercentSpells t s → PercentSpells (pct :: a :: b :: t) (val a b :: s)
  | cut {t : List α} : t.length ≤ 1 → PercentSpells (pct :: t) []

variable {pct val}

@[simp] theorem percentDecode_nil : percentDecode pct val [] = [] := rfl

theorem percentDecode_raw {c : α} (hc : c ≠ pct) (t : List α) :
    percentDecode pct val (c :: t) = c :: percentDecode pct val t := by
  rw [percentDecode.eq_def]
  exact if_neg hc

theorem percentDecode_escape (a b : α) (t : List α) :
    percentDecode pct val (pct :: a :: b :: t) = val a b :: percentDecode pct val t := by
  rw [percentDecode, if_pos rfl]

/-- An escape with fewer than two characters behind it gives nothing. -/
theorem percentDecode_cut {t : List α} (ht : t.length ≤ 1) :
    percentDecode pct val (pct :: t) = [] := by
  rw [percentDecode.eq_def]
  match t, ht with
  | [], _  => exact if_pos rfl
  | [_], _ => exact if_pos rfl

/-- A text spells a string exactly when it decodes to it. -/
theorem percentSpells_iff {t s : List α} :
    PercentSpells pct val t s ↔ percentDecode pct val t = s := by
  constructor
  · intro h
    induction h with
    | nil                => rfl
    | raw hc _ ih        => rw [percentDecode_raw hc, ih]
    | @escape a b t s _ ih => rw [percentDecode_escape, ih]
    | cut ht             => exact percentDecode_cut ht
  · rintro rfl
    induction t using percentDecode.induct pct with
    | case1            => exact .nil
    | case2 a b t ih   => exact percentDecode_escape a b t ▸ .escape ih
    | case3 t hcut     =>
        have ht : t.length ≤ 1 := by
          match t, hcut with
          | [], _         => exact Nat.zero_le 1
          | [_], _        => exact Nat.le_refl 1
          | a :: b :: t, hcut => exact absurd rfl (hcut a b t)
        exact percentDecode_cut ht ▸ .cut ht
    | case4 c t hc ih  => exact percentDecode_raw hc t ▸ .raw hc ih

/-- Decoding makes no text longer. -/
theorem length_percentDecode_le (t : List α) :
    (percentDecode pct val t).length ≤ t.length := by
  have h : PercentSpells pct val t (percentDecode pct val t) := percentSpells_iff.mpr rfl
  generalize percentDecode pct val t = s at h
  induction h with
  | nil         => exact Nat.le_refl 0
  | raw _ _ ih  => exact Nat.succ_le_succ ih
  | escape _ ih => exact Nat.succ_le_succ (Nat.le_add_right_of_le (Nat.le_add_right_of_le ih))
  | cut _       => exact Nat.zero_le _

end Decode

/-- `t` is a text written for `s`: the characters of `raw` stand for themselves, and `esc a b c` says
that `a` and `b` may be written for `c`. -/
inductive PercentCode (pct : α) (raw : α → Prop) (esc : α → α → α → Prop) : List α → List α → Prop
  | nil : PercentCode pct raw esc [] []
  | raw {c : α} {t s : List α} :
      raw c → PercentCode pct raw esc t s → PercentCode pct raw esc (c :: t) (c :: s)
  | escape {a b c : α} {t s : List α} :
      esc a b c → PercentCode pct raw esc t s → PercentCode pct raw esc (pct :: a :: b :: t) (c :: s)

namespace PercentCode

variable {pct : α} {raw : α → Prop} {esc : α → α → α → Prop} {t s : List α}

/-- A code that the decoder agrees with is undone by it. -/
theorem decode [DecidableEq α] {val : α → α → α} (h : PercentCode pct raw esc t s)
    (hraw : ∀ c, raw c → c ≠ pct) (hesc : ∀ a b c, esc a b c → val a b = c) (rest : List α) :
    percentDecode pct val (t ++ rest) = s ++ percentDecode pct val rest := by
  induction h with
  | nil => rfl
  | @raw c t s hc _ ih =>
      rw [List.cons_append, percentDecode_raw (hraw c hc), ih, List.cons_append]
  | @escape a b c t s hc _ ih =>
      rw [List.cons_append, List.cons_append, List.cons_append, percentDecode_escape, ih,
        hesc a b c hc, List.cons_append]

/-- What holds of the characters that are written holds of the text. -/
theorem forall_mem {P : α → Prop} (h : PercentCode pct raw esc t s) (hpct : P pct)
    (hraw : ∀ c, raw c → P c) (hesc : ∀ a b c, esc a b c → P a ∧ P b) : ∀ c ∈ t, P c := by
  induction h with
  | nil => exact fun c hc => absurd hc (by simp)
  | @raw c t s hc _ ih =>
      intro d hd
      rcases List.mem_cons.mp hd with rfl | hd
      · exact hraw d hc
      · exact ih d hd
  | @escape a b c t s hc _ ih =>
      intro d hd
      simp only [List.mem_cons] at hd
      rcases hd with rfl | rfl | rfl | hd
      · exact hpct
      · exact (hesc d b c hc).1
      · exact (hesc a d c hc).2
      · exact ih d hd

/-- What holds of the characters that a text is written for. -/
theorem forall_mem_written {P : α → Prop} (h : PercentCode pct raw esc t s) (hraw : ∀ c, raw c → P c)
    (hesc : ∀ a b c, esc a b c → P c) : ∀ c ∈ s, P c := by
  induction h with
  | nil => exact fun c hc => absurd hc (by simp)
  | @raw c t s hc _ ih =>
      intro d hd
      rcases List.mem_cons.mp hd with rfl | hd
      · exact hraw d hc
      · exact ih d hd
  | @escape a b c t s hc _ ih =>
      intro d hd
      rcases List.mem_cons.mp hd with rfl | hd
      · exact hesc a b d hc
      · exact ih d hd

/-- A string is no longer than its spelling. -/
theorem length_le (h : PercentCode pct raw esc t s) : s.length ≤ t.length := by
  induction h with
  | nil         => exact Nat.le_refl 0
  | raw _ _ ih  => exact Nat.succ_le_succ ih
  | escape _ _ ih =>
      simp only [List.length_cons]
      omega

/-- A text that is as long as what it was written for has no escape in it. -/
theorem eq_of_length (h : PercentCode pct raw esc t s) (hlen : s.length = t.length) : t = s := by
  induction h with
  | nil        => rfl
  | raw _ _ ih => rw [ih (Nat.succ.inj hlen)]
  | escape _ h =>
      have hle := h.length_le
      simp only [List.length_cons] at hlen
      omega

theorem eq_nil_iff (h : PercentCode pct raw esc t s) : t = [] ↔ s = [] := by
  cases h <;> simp

end PercentCode

end Bklib.Lib
