import Mathlib.Data.List.TakeWhile
import Mathlib.Data.Nat.Digits.Lemmas
import Bklib.Model.Libc

/-!
# `Bklib.Proofs.Strtoul`: how far `strtoul` reads

`strtoul` skips space first, whatever its length, and then reads up to a character that is no digit.
So a space that stands behind a token ends it (`strtoul_append_space`), unless the token is all
space; then the number is looked for behind it (`strtoul_spaces_append`). A number printed in decimal
is read back (`strtoul_decimal`).
-/

set_option autoImplicit false

namespace Bklib

/-! ## Spaces are not digits -/

theorem isspace_iff {c : UInt8} :
    isspace c = true ↔ c.toNat = 32 ∨ 9 ≤ c.toNat ∧ c.toNat ≤ 13 := by
  simp [isspace, UInt8.le_iff_toNat_le, ← UInt8.toNat_inj]

theorem isdigit_iff {c : UInt8} : isdigit c = true ↔ 48 ≤ c.toNat ∧ c.toNat ≤ 57 := by
  simp [isdigit, UInt8.le_iff_toNat_le]

theorem isalpha_iff {c : UInt8} :
    isalpha c = true ↔ 65 ≤ c.toNat ∧ c.toNat ≤ 90 ∨ 97 ≤ c.toNat ∧ c.toNat ≤ 122 := by
  simp [isalpha, UInt8.le_iff_toNat_le]

theorem digitVal_of_isspace {c : UInt8} (h : isspace c = true) : digitVal c = 36 := by
  rw [isspace_iff] at h
  rw [digitVal, if_neg (by rw [isdigit_iff]; omega), if_neg (by rw [isalpha_iff]; omega)]

theorem tolower_of_not_upper {c : UInt8} (h : ¬ (65 ≤ c.toNat ∧ c.toNat ≤ 90)) : tolower c = c := by
  rw [tolower, if_neg]
  simp only [UInt8.le_iff_toNat_le]
  exact h

theorem tolower_of_isspace {c : UInt8} (h : isspace c = true) : tolower c = c := by
  rw [isspace_iff] at h
  exact tolower_of_not_upper (by omega)

theorem isspace_ne {c d : UInt8} (h : isspace c = true) (hd : isspace d = false) : c ≠ d := by
  rintro rfl
  rw [h] at hd
  exact absurd hd (by simp)

theorem takeWhile_append_stop {p : UInt8 → Bool} {t : UInt8} (ht : p t = false)
    (l r : List UInt8) : (l ++ t :: r).takeWhile p = l.takeWhile p := by
  induction l with
  | nil => simp [ht]
  | cons c l ih => simp only [List.cons_append, List.takeWhile_cons, ih]

/-! ## A space ends a number -/

/-- The base is at most sixteen, and its prefix inside the text. -/
theorem strtoulBase_le (s : List UInt8) : (strtoulBase s).1 ≤ 16 ∧ (strtoulBase s).2 ≤ s.length := by
  unfold strtoulBase
  split
  next h =>
    refine ⟨Nat.le_refl _, ?_⟩
    obtain ⟨_, _, hhex⟩ := h
    have : s.drop 2 ≠ [] := fun h0 => by simp [h0] at hhex
    have := List.length_pos_iff.mpr this
    rw [List.length_drop] at this
    dsimp only
    omega
  · split <;> simp

/-- A space behind the text changes no base. -/
theorem strtoulBase_append_space {t : UInt8} (ht : isspace t = true) (s r : List UInt8) :
    strtoulBase (s ++ t :: r) = strtoulBase s := by
  have h48 : t ≠ 48 := isspace_ne ht (by decide)
  have h120 : t ≠ 120 := isspace_ne ht (by decide)
  unfold strtoulBase
  -- at most three characters are looked at
  cases s with
  | nil => simp [h48]
  | cons a s =>
      cases s with
      | nil => simp [tolower_of_isspace ht, h120]
      | cons b s =>
          cases s with
          | nil => simp [digitVal_of_isspace ht]
          | cons c s => simp

/-- A space behind the text changes no digits. -/
theorem strtoulDigits_append_space {t : UInt8} (ht : isspace t = true) (s r : List UInt8) :
    strtoulDigits (s ++ t :: r) = strtoulDigits s := by
  have hbase := strtoulBase_le s
  have hstop : decide (digitVal t < (strtoulBase s).1) = false := by
    rw [digitVal_of_isspace ht, decide_eq_false_iff_not]
    omega
  simp only [strtoulDigits, strtoulBase_append_space ht]
  rw [List.drop_append_of_le_length hbase.2,
    takeWhile_append_stop (p := fun c => decide (digitVal c < (strtoulBase s).1)) hstop]

/-- A space behind the text changes no sign. -/
theorem strtoulSigned_append_space {t : UInt8} (ht : isspace t = true) (s r : List UInt8)
    (hs : s ≠ []) : strtoulSigned (s ++ t :: r) = strtoulSigned s := by
  have hhead : (s ++ t :: r).head? = s.head? := List.head?_append_of_ne_nil s hs
  have hlen : 0 < s.length := List.length_pos_iff.mpr hs
  simp only [strtoulSigned, hhead]
  rw [List.drop_append_of_le_length (by split <;> omega), strtoulDigits_append_space ht]

/-- A token that is not all space ends at the space behind it. -/
theorem strtoul_append_space {a : List UInt8} {t : UInt8} (ha : ∃ c ∈ a, isspace c = false)
    (ht : isspace t = true) (r : List UInt8) : strtoul (a ++ t :: r) = strtoul a := by
  have hne : a.dropWhile isspace ≠ [] := by
    obtain ⟨c, hc, hsp⟩ := ha
    intro hnil
    rw [List.dropWhile_eq_nil_iff] at hnil
    rw [hnil c hc] at hsp
    exact absurd hsp (by simp)
  have htake : (a ++ t :: r).takeWhile isspace = a.takeWhile isspace := by
    rw [List.takeWhile_append, if_neg]
    intro hlen
    refine hne (List.dropWhile_eq_nil_iff.mpr (List.takeWhile_eq_self_iff.mp ?_))
    exact (List.takeWhile_prefix _).eq_of_length hlen
  have hdrop : (a ++ t :: r).dropWhile isspace = a.dropWhile isspace ++ t :: r := by
    rw [List.dropWhile_append, if_neg (by simpa using hne)]
  rw [strtoul, strtoul, htake, hdrop, strtoulSigned_append_space ht _ _ hne]

/-- A token that is all space says nothing of the number: it is looked for behind the token. -/
theorem strtoul_spaces_append (sp : List UInt8) (hsp : ∀ c ∈ sp, isspace c = true)
    {c : UInt8} (hc : isspace c = false) (s : List UInt8) :
    strtoul (sp ++ c :: s)
      = (strtoulSigned (c :: s)).elim (0, 0) fun r => (r.1, sp.length + r.2) := by
  have htake : (sp ++ c :: s).takeWhile isspace = sp := by
    rw [takeWhile_append_stop hc, List.takeWhile_eq_self_iff.mpr hsp]
  have hdrop : (sp ++ c :: s).dropWhile isspace = c :: s := by
    rw [List.dropWhile_append, List.dropWhile_eq_nil_iff.mpr hsp]
    simp [hc]
  rw [strtoul, htake, hdrop]
  cases strtoulSigned (c :: s) <;> rfl

/-! ## Decimal numbers -/

/-- A number in decimal. -/
def decimal (n : Nat) : List UInt8 :=
  if n = 0 then [48] else (Nat.digits 10 n).reverse.map fun d => UInt8.ofNat (d + 48)

theorem toNat_digit {d : Nat} (h : d < 10) : (UInt8.ofNat (d + 48)).toNat = d + 48 :=
  UInt8.toNat_ofNat_of_lt' (show d + 48 < 256 by omega)

/-- A decimal is digits. -/
theorem isdigit_of_mem_decimal {n : Nat} {c : UInt8} (h : c ∈ decimal n) : isdigit c = true := by
  unfold decimal at h
  split at h
  · rw [List.mem_singleton] at h
    subst h
    decide
  · obtain ⟨d, hd, rfl⟩ := List.mem_map.mp h
    have hlt := Nat.digits_lt_base (by omega : 1 < 10) (List.mem_reverse.mp hd)
    rw [isdigit_iff, toNat_digit hlt]
    omega

/-- A decimal is not empty. -/
theorem decimal_ne_nil (n : Nat) : decimal n ≠ [] := by
  unfold decimal
  split
  · simp
  next h =>
    rw [Ne, List.map_eq_nil_iff, List.reverse_eq_nil_iff]
    exact Nat.digits_ne_nil_iff_ne_zero.mpr h

theorem digitVal_digit {d : Nat} (h : d < 10) : digitVal (UInt8.ofNat (d + 48)) = d := by
  rw [digitVal, if_pos (by rw [isdigit_iff, toNat_digit h]; omega), toNat_digit h]
  omega

/-- The digits of `decimal n` spell `n`. -/
theorem digitsVal_decimal (n : Nat) : digitsVal 10 (decimal n) = n := by
  unfold decimal
  split
  next h => rw [h]; rfl
  · have hdigits : ∀ ds : List Nat, (∀ d ∈ ds, d < 10) →
        digitsVal 10 (ds.reverse.map fun d => UInt8.ofNat (d + 48)) = Nat.ofDigits 10 ds := by
      intro ds hds
      induction ds with
      | nil => rfl
      | cons d ds ih =>
          have hd := digitVal_digit (hds d (by simp))
          have hrest := ih fun e he => hds e (List.mem_cons_of_mem _ he)
          simp only [digitsVal] at hrest ⊢
          rw [List.reverse_cons, List.map_append, List.foldl_append, hrest, Nat.ofDigits_cons]
          simp only [List.map_cons, List.map_nil, List.foldl_cons, List.foldl_nil, hd]
          omega
    rw [hdigits _ fun d hd => Nat.digits_lt_base (by omega) hd, Nat.ofDigits_digits]

/-- A decimal of a number but zero starts with no zero. -/
theorem head_decimal_ne {n : Nat} (hn : n ≠ 0) : (decimal n).head? ≠ some 48 := by
  rw [decimal, if_neg hn, List.head?_map, List.head?_reverse,
    List.getLast?_eq_some_getLast (Nat.digits_ne_nil_iff_ne_zero.mpr hn), Option.map_some]
  intro h
  rw [Option.some.injEq, ← UInt8.toNat_inj,
    toNat_digit (Nat.digits_lt_base (by omega) (List.getLast_mem _))] at h
  have := Nat.getLast_digit_ne_zero 10 hn
  have : (48 : UInt8).toNat = 48 := rfl
  omega

/-- The digits of a decimal give its number. -/
theorem strtoulDigits_decimal (n : Nat) :
    strtoulDigits (decimal n) = some (n, (decimal n).length) := by
  by_cases hn : n = 0
  · subst hn
    decide
  · have hbase : strtoulBase (decimal n) = (10, 0) := by
      rw [strtoulBase, if_neg fun h => head_decimal_ne hn h.1, if_neg (head_decimal_ne hn)]
    have hdigits : ((decimal n).drop 0).takeWhile (fun c => decide (digitVal c < 10)) = decimal n := by
      rw [List.drop_zero, List.takeWhile_eq_self_iff]
      intro c hc
      have h := isdigit_of_mem_decimal hc
      rw [decide_eq_true_iff, digitVal, if_pos h]
      rw [isdigit_iff] at h
      omega
    simp only [strtoulDigits, hbase, hdigits, if_neg (decimal_ne_nil n), digitsVal_decimal,
      Nat.zero_add]

/-- In front of a digit there is neither space nor sign. -/
theorem strtoul_eq_digits {d : List UInt8} (hne : d ≠ []) (hd : ∀ c ∈ d, isdigit c = true) :
    strtoul d = (strtoulDigits d).elim (0, 0) fun r => (min r.1 ulongMax, r.2) := by
  obtain ⟨c, ds, rfl⟩ := List.exists_cons_of_ne_nil hne
  have hdigit : isdigit c = true := hd c (by simp)
  have hspace : isspace c = false := by
    rw [isdigit_iff] at hdigit
    rw [Bool.eq_false_iff, Ne, isspace_iff]
    omega
  have h45 : c ≠ 45 := by
    rintro rfl
    exact absurd hdigit (by decide)
  have h43 : c ≠ 43 := by
    rintro rfl
    exact absurd hdigit (by decide)
  have hsigned : strtoulSigned (c :: ds)
      = (strtoulDigits (c :: ds)).map fun r => (min r.1 ulongMax, r.2) := by
    simp only [strtoulSigned, List.head?_cons, Option.some_beq_some, beq_iff_eq, h45, h43,
      Bool.or_eq_true, or_self, if_false, List.drop_zero, Nat.zero_add]
    refine congrArg (fun f => Option.map f (strtoulDigits (c :: ds))) (funext fun r => ?_)
    rw [Nat.min_def]
    split <;> split <;> simp only [Prod.mk.injEq, and_true] <;> omega
  have h := strtoul_spaces_append [] (by simp) hspace ds
  rw [List.nil_append, hsigned] at h
  rw [h]
  cases strtoulDigits (c :: ds) <;> simp

/-- `strtoul` reads a decimal number back, up to `ULONG_MAX`. -/
theorem strtoul_decimal (n : Nat) :
    strtoul (decimal n) = (min n ulongMax, (decimal n).length) := by
  rw [strtoul_eq_digits (decimal_ne_nil n) fun c hc => isdigit_of_mem_decimal hc,
    strtoulDigits_decimal]
  rfl

/-! ## Signs -/

/-- The number at the start of a string: whether there is a minus sign, and what the digits behind it
spell. It is 0 where there are none. -/
def strtoulNumber (s : List UInt8) : Bool × Nat :=
  let t := s.dropWhile isspace
  let neg := t.head? == some 45
  let sign := if neg || t.head? == some 43 then 1 else 0
  (neg, ((strtoulDigits (t.drop sign)).map Prod.fst).getD 0)

/-- `strtoul` takes a negative number from `2 ^ 64`. -/
theorem strtoul_number {s : List UInt8} {neg : Bool} {m : Nat} (h : strtoulNumber s = (neg, m)) :
    (strtoul s).1
      = if ulongMax < m then ulongMax else if neg then (2 ^ 64 - m) % 2 ^ 64 else m := by
  obtain ⟨rfl, rfl⟩ := Prod.mk.inj h
  rw [strtoul, strtoulSigned]
  cases strtoulDigits ((s.dropWhile isspace).drop
      (if (s.dropWhile isspace).head? == some 45 || (s.dropWhile isspace).head? == some 43
        then 1 else 0)) with
  | none => simp
  | some r => rfl

/-! ## Digits in decimal and in octal -/

section Digits

variable {d e : List UInt8} {c : UInt8} {base base' : Nat}

theorem digitsVal_concat (base : Nat) (d : List UInt8) (c : UInt8) :
    digitsVal base (d ++ [c]) = digitsVal base d * base + digitVal c := by
  simp [digitsVal]

/-- A larger base makes more of the same digits. -/
theorem digitsVal_le_of_base_le (h : base ≤ base') (d : List UInt8) :
    digitsVal base d ≤ digitsVal base' d := by
  induction d using List.reverseRecOn with
  | nil => exact Nat.le_refl _
  | append_singleton d c ih =>
      rw [digitsVal_concat, digitsVal_concat]
      exact Nat.add_le_add_right (Nat.mul_le_mul ih h) _

/-- Each digit is at most the number. -/
theorem digitVal_le_digitsVal (hbase : 0 < base) (hc : c ∈ d) : digitVal c ≤ digitsVal base d := by
  induction d using List.reverseRecOn with
  | nil => exact absurd hc (by simp)
  | append_singleton d b ih =>
      rw [digitsVal_concat]
      rcases List.mem_append.mp hc with hc | hc
      · calc digitVal c ≤ digitsVal base d := ih hc
          _ ≤ digitsVal base d * base := Nat.le_mul_of_pos_right _ hbase
          _ ≤ _ := Nat.le_add_right _ _
      · rw [List.mem_singleton.mp hc]
        exact Nat.le_add_left _ _

/-- Digits in front of others spell no more than all of them. -/
theorem digitsVal_le_append (hbase : 0 < base) (d e : List UInt8) :
    digitsVal base d ≤ digitsVal base (d ++ e) := by
  induction e using List.reverseRecOn with
  | nil => rw [List.append_nil]
  | append_singleton e c ih =>
      rw [← List.append_assoc, digitsVal_concat]
      calc digitsVal base d ≤ digitsVal base (d ++ e) := ih
        _ ≤ digitsVal base (d ++ e) * base := Nat.le_mul_of_pos_right _ hbase
        _ ≤ _ := Nat.le_add_right _ _

/-- They spell as much only where that is nothing, or where there are no others. -/
theorem digitsVal_append_eq (hbase : 1 < base) (h : digitsVal base d = digitsVal base (d ++ e)) :
    digitsVal base (d ++ e) = 0 ∨ e = [] := by
  rcases List.eq_nil_or_concat e with rfl | ⟨e, c, rfl⟩
  · exact Or.inr rfl
  · refine Or.inl ?_
    rw [List.concat_eq_append, ← List.append_assoc, digitsVal_concat] at h ⊢
    have hle := digitsVal_le_append (by omega : 0 < base) d e
    have hmul : digitsVal base (d ++ e) * 2 ≤ digitsVal base (d ++ e) * base :=
      Nat.mul_le_mul_left _ hbase
    omega

/-- Octal digits spell the same in decimal exactly where they spell less than 8. -/
theorem digitsVal_octal_iff (hd : ∀ c ∈ d, digitVal c < 8) :
    digitsVal 8 d = digitsVal 10 d ↔ digitsVal 10 d < 8 := by
  rcases List.eq_nil_or_concat d with rfl | ⟨d, c, rfl⟩
  · decide
  · rw [List.concat_eq_append] at hd ⊢
    have hc : digitVal c < 8 := hd c (by simp)
    have hle := digitsVal_le_of_base_le (by omega : 8 ≤ 10) d
    rw [digitsVal_concat, digitsVal_concat]
    omega

end Digits

/-! ## Strings of digits -/

/-- A string of digits that starts with 0 is read in octal, up to a digit that is not. -/
theorem strtoul_digits {d : List UInt8} (hne : d ≠ []) (hd : ∀ c ∈ d, isdigit c = true)
    (hfits : digitsVal 10 d ≤ ulongMax) :
    (strtoul d).1 = if d.head? = some 48 then digitsVal 8 (d.takeWhile (digitVal · < 8))
      else digitsVal 10 d := by
  have hdigit : ∀ c ∈ d, digitVal c < 10 := by
    intro c hc
    have h := hd c hc
    rw [digitVal, if_pos h]
    rw [isdigit_iff] at h
    omega
  -- there is no `x` behind a digit
  have hbase : strtoulBase d = if d.head? = some 48 then (8, 0) else (10, 0) := by
    rw [strtoulBase, if_neg]
    rintro ⟨_, hx, _⟩
    obtain ⟨x, hmem, hlower⟩ := Option.map_eq_some_iff.mp hx
    have hdx := hd x (List.drop_subset 1 d (List.mem_of_mem_head? hmem))
    rw [isdigit_iff] at hdx
    rw [tolower_of_not_upper (by omega)] at hlower
    subst hlower
    exact absurd hdx (by decide)
  obtain ⟨c, ds, rfl⟩ := List.exists_cons_of_ne_nil hne
  rw [strtoul_eq_digits hne hd]
  by_cases h48 : (c :: ds).head? = some 48
  · have hne8 : (c :: ds).takeWhile (digitVal · < 8) ≠ [] := by
      obtain rfl : c = 48 := by simpa using h48
      rw [List.takeWhile_cons_of_pos (by decide)]
      simp
    have hle : digitsVal 8 ((c :: ds).takeWhile (digitVal · < 8)) ≤ ulongMax := by
      have h1 := digitsVal_le_of_base_le (by omega : 8 ≤ 10) ((c :: ds).takeWhile (digitVal · < 8))
      have h2 := digitsVal_le_append (by omega : 0 < 10) ((c :: ds).takeWhile (digitVal · < 8))
        ((c :: ds).dropWhile (digitVal · < 8))
      rw [List.takeWhile_append_dropWhile] at h2
      omega
    simp only [strtoulDigits, hbase, if_pos h48, List.drop_zero, if_neg hne8, Option.elim_some]
    exact Nat.min_eq_left hle
  · have hall : (c :: ds).takeWhile (digitVal · < 10) = c :: ds := by
      rw [List.takeWhile_eq_self_iff]
      exact fun b hb => by simpa using hdigit b hb
    simp only [strtoulDigits, hbase, if_neg h48, List.drop_zero, hall, if_neg hne, Option.elim_some]
    exact Nat.min_eq_left hfits

/-- `strtoul` makes no more of digits than they spell in decimal, and it makes less of them exactly
where they start with 0 and spell 8 or more. -/
theorem strtoul_digits_iff {d : List UInt8} (hne : d ≠ []) (hd : ∀ c ∈ d, isdigit c = true)
    (hfits : digitsVal 10 d ≤ ulongMax) :
    (strtoul d).1 ≤ digitsVal 10 d ∧
      ((strtoul d).1 = digitsVal 10 d ↔ d.head? ≠ some 48 ∨ digitsVal 10 d < 8) := by
  rw [strtoul_digits hne hd hfits]
  by_cases h48 : d.head? = some 48
  · rw [if_pos h48]
    have hsplit := List.takeWhile_append_dropWhile (p := (digitVal · < 8)) (l := d)
    have hoctal : ∀ c ∈ d.takeWhile (digitVal · < 8), digitVal c < 8 := fun c hc => by
      simpa using List.mem_takeWhile_imp hc
    have hle := digitsVal_le_of_base_le (by omega : 8 ≤ 10) (d.takeWhile (digitVal · < 8))
    -- the digits in front of the first 8 or 9 spell less in octal
    have hprefix := digitsVal_le_append (by omega : 0 < 10) (d.takeWhile (digitVal · < 8))
      (d.dropWhile (digitVal · < 8))
    rw [hsplit] at hprefix
    refine ⟨hle.trans hprefix, ?_⟩
    rw [or_iff_right (by simpa using h48)]
    constructor
    · intro h
      have hsame : digitsVal 10 (d.takeWhile (digitVal · < 8))
          = digitsVal 10 (d.takeWhile (digitVal · < 8) ++ d.dropWhile (digitVal · < 8)) := by
        rw [hsplit]
        omega
      rcases digitsVal_append_eq (by omega) hsame with hzero | hnil
      · rw [hsplit] at hzero
        omega
      · rw [hnil, List.append_nil] at hsplit
        rw [hsplit] at h hoctal
        exact (digitsVal_octal_iff hoctal).mp h
    · intro h
      -- a number below 8 has no digit from 8 on
      have hall : d.takeWhile (digitVal · < 8) = d := by
        rw [List.takeWhile_eq_self_iff]
        intro c hc
        have := digitVal_le_digitsVal (by omega : 0 < 10) hc
        simpa using (by omega : digitVal c < 8)
      rw [hall] at hoctal ⊢
      exact (digitsVal_octal_iff hoctal).mpr h
  · rw [if_neg h48]
    exact ⟨Nat.le_refl _, iff_of_true rfl (Or.inl h48)⟩

end Bklib
