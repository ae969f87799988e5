import Mathlib.Data.List.DropRight
import Bklib.Proofs.HttpText

/-!
# `Bklib.Proofs.HttpLength`: what becomes of a `Content-Length`

The number of a `Content-Length` field should be the length of the content, and `total_len` the sum
of the two lengths (`HttpLengthTaken`). The value goes through `http_strdup`, which drops a value of
one character, and through `strtoul` with base 0, which reads a value that starts with 0 in octal,
takes a minus sign, and knows no number too large. `HttpLengthPlain` says which texts come through
(`httpHeaderParse_length_iff`).

The field is found in the text of the header, by `httpHead`, and not in what the parser stored.
-/

set_option autoImplicit false

namespace Bklib

open Bklib.Lib

/-! ## Statement -/

/-- What `http_keyval_get` takes for the name of the field. -/
def isContentLength (name : List UInt8) : Bool :=
  (httpStrdup name).any (strcasecmpEq · (bytes "content-length"))

/-- The text of the first `Content-Length` field. -/
def httpContentLength (buf : List UInt8) : Option (List UInt8) :=
  ((httpHead buf).fields.find? fun f => isContentLength f.1).map Prod.snd

/-- The value of a field: its text without the white space around it. -/
def httpValue (text : List UInt8) : List UInt8 := (text.dropWhile isspace).rdropWhile isspace

/-- A decimal number that an `int` holds. -/
structure HttpDecimal (v : List UInt8) : Prop where
  ne : v ≠ []
  digits : ∀ c ∈ v, isdigit c = true
  small : digitsVal 10 v < 2 ^ 31

/-- A decimal number is taken for what it is, and the lengths add up. -/
structure HttpLengthTaken (h : HttpHeader) (text : List UInt8) : Prop where
  value : HttpDecimal (httpValue text) → h.contentLen = digitsVal 10 (httpValue text)
  total : h.totalLen = h.headerLen + h.contentLen
  headerLen_le : h.headerLen ≤ h.totalLen

/-- A number that `strtoul` reads leaves room for `n` below `2 ^ 64`. With a minus sign it is taken
from `2 ^ 64`, so it has to be more than `n`, or 0. -/
def RoomBeside (n : Nat) (number : Bool × Nat) : Prop :=
  if number.1 = true ∧ number.2 ≠ 0 then n < number.2 ∧ number.2 < 2 ^ 64
  else n + number.2 < 2 ^ 64

/-- The condition on a header of `n` bytes and the text of its `Content-Length`. A decimal number
other than 0 has two digits or more, does not start with 0 unless it is less than 8, and is in the
part of the text that the `int` for its length leaves. -/
structure HttpLengthPlain (n : Nat) (text : List UInt8) : Prop where
  value : HttpDecimal (httpValue text) → digitsVal 10 (httpValue text) ≠ 0 →
    2 ≤ (httpValue text).length ∧
      ((httpValue text).head? ≠ some 48 ∨ digitsVal 10 (httpValue text) < 8) ∧
      ((text.takeWhile isspace).length + (httpValue text).length : Int) ≤ natToInt32 text.length
  room : RoomBeside n (strtoulNumber ((httpStrdup text).getD []))

/-! ## The copy of a decimal number -/

section Copy

variable {text v : List UInt8}

/-- Digits are copied whole, but for a single one. -/
theorem httpStrdupCut_digits (hv : ∀ c ∈ v, isdigit c = true) :
    httpStrdupCut v = if v.length < 2 then [] else v := by
  by_cases hlen : v.length < 2
  · rw [if_pos hlen]
    rcases httpStrdupCut_spec v with hnil | ⟨h2, _⟩
    · exact hnil
    · have := (httpStrdupCut_isPrefix v).length_le
      omega
  · rw [if_neg hlen]
    exact httpStrdupCut_eq_self (by omega) fun c hc => isspace_digit (hv c (List.mem_of_getLast? hc))

/-- Digits hold no return and no zero. -/
theorem digits_ne (hv : ∀ c ∈ v, isdigit c = true) : v.filter (· ≠ 13) = v ∧ 0 ∉ v := by
  constructor
  · rw [List.filter_eq_self]
    intro c hc
    have hdigit := hv c hc
    rw [decide_eq_true_iff]
    rintro rfl
    exact absurd hdigit (by decide)
  · exact fun h0 => absurd (hv 0 h0) (by decide)

/-- A text is the space in front of its value, the value, and the space behind it. -/
theorem httpValue_split (text : List UInt8) :
    ∃ trail, text = text.takeWhile isspace ++ (httpValue text ++ trail) ∧
      ∀ c ∈ trail, isspace c = true := by
  refine ⟨(text.dropWhile isspace).rtakeWhile isspace, ?_, fun c hc => ?_⟩
  · rw [httpValue, List.rdropWhile_append_rtakeWhile, List.takeWhile_append_dropWhile]
  · exact List.mem_rtakeWhile_imp hc

/-- How many characters of the value the `int` for the length of the text reaches. -/
def httpReach (text : List UInt8) : Nat :=
  (natToInt32 text.length).toNat - (text.takeWhile isspace).length

/-- What is left of the first `k` characters of a text without the space in front: the digits that
are reached, and then space. Where none of the digits is reached, nothing is left. -/
theorem dropWhile_take_digits {lead trail : List UInt8} (hlead : ∀ c ∈ lead, isspace c = true)
    (htrail : ∀ c ∈ trail, isspace c = true) (hne : v ≠ []) (hv : ∀ c ∈ v, isdigit c = true)
    (k : Nat) :
    ∃ sp, ((lead ++ (v ++ trail)).take k).dropWhile isspace = v.take (k - lead.length) ++ sp ∧
      (∀ c ∈ sp, isspace c = true) ∧ (v.take (k - lead.length) = [] → sp = []) := by
  have hempty : v.take (k - lead.length) = [] → trail.take (k - lead.length - v.length) = [] := by
    intro hnil
    have hzero := (List.take_eq_nil_iff.mp hnil).resolve_right hne
    rw [hzero, Nat.zero_sub, List.take_zero]
  refine ⟨_, ?_, fun c hc => htrail c (List.take_subset _ _ hc), hempty⟩
  rw [List.take_append, List.take_append,
    List.dropWhile_append_of_pos fun c hc => hlead c (List.take_subset _ _ hc)]
  cases hd : v.take (k - lead.length) with
  | nil => rw [hempty hd]; rfl
  | cons c d =>
      have hc : isspace c = false :=
        isspace_digit (hv c (List.take_subset (k - lead.length) v (by rw [hd]; simp)))
      rw [List.cons_append, List.dropWhile_cons_of_neg (by simp [hc])]

/-- What is copied of a text whose value is decimal: the digits that are reached, where they are two
or more. -/
theorem httpStrdup_decimal (hv : HttpDecimal (httpValue text)) (hlen : 0 ≤ natToInt32 text.length) :
    httpStrdup text = some (if ((httpValue text).take (httpReach text)).length < 2 then []
      else (httpValue text).take (httpReach text)) := by
  obtain ⟨trail, hsplit, htrail⟩ := httpValue_split text
  obtain ⟨sp, hdrop, hsp, hempty⟩ := dropWhile_take_digits
    (fun c hc => List.mem_takeWhile_imp hc) htrail hv.ne hv.digits (natToInt32 text.length).toNat
  rw [← hsplit] at hdrop
  change _ = (httpValue text).take (httpReach text) ++ sp at hdrop
  change (httpValue text).take (httpReach text) = [] → sp = [] at hempty
  have hdigits : ∀ c ∈ (httpValue text).take (httpReach text), isdigit c = true := fun c hc =>
    hv.digits c (List.take_subset _ _ hc)
  -- the blanks behind the digits are cut off, and so is a single digit
  have hcut : httpStrdupCut ((httpValue text).take (httpReach text) ++ sp)
      = httpStrdupCut ((httpValue text).take (httpReach text)) := by
    by_cases hnil : (httpValue text).take (httpReach text) = []
    · rw [hempty hnil, List.append_nil]
    · exact httpStrdupCut_append hnil hsp
  unfold httpStrdup
  dsimp only
  rw [if_neg (by omega), hdrop, hcut, httpStrdupCut_digits hdigits]
  split
  · rfl
  · rw [(digits_ne hdigits).1, cstr_eq_self (digits_ne hdigits).2]

end Copy

/-! ## The number -/

section Number

variable {text : List UInt8}

/-- What `strtoul` finds in the copy of a value. -/
def httpNumber (text : List UInt8) : Nat := (httpStrdup text).elim 0 fun p => (strtoul p).1

/-- The number of a field is read from its copied value. -/
theorem httpNumber_eq (text : List UInt8) :
    httpNumber text = (strtoul ((httpStrdup text).getD [])).1 := by
  rw [httpNumber]
  cases httpStrdup text with
  | none => decide
  | some p => rfl

/-- A decimal number comes through where all its digits are reached and are read in decimal. -/
theorem httpNumber_decimal_iff (hv : HttpDecimal (httpValue text)) :
    httpNumber text = digitsVal 10 (httpValue text) ↔
      (digitsVal 10 (httpValue text) ≠ 0 →
        2 ≤ (httpValue text).length ∧
          ((httpValue text).head? ≠ some 48 ∨ digitsVal 10 (httpValue text) < 8) ∧
          ((text.takeWhile isspace).length + (httpValue text).length : Int)
            ≤ natToInt32 text.length) := by
  by_cases hlen : 0 ≤ natToInt32 text.length
  · rw [httpNumber, httpStrdup_decimal hv hlen, Option.elim_some]
    generalize hd : (httpValue text).take (httpReach text) = d
    have hdigits : ∀ c ∈ d, isdigit c = true := fun c hc =>
      hv.digits c (List.take_subset _ _ (hd ▸ hc))
    have hsplit : d ++ (httpValue text).drop (httpReach text) = httpValue text := by
      rw [← hd, List.take_append_drop]
    have hle := digitsVal_le_append (by omega : 0 < 10) d ((httpValue text).drop (httpReach text))
    rw [hsplit] at hle
    have hsmall := hv.small
    have hpos := List.length_pos_iff.mpr hv.ne
    have hreach : (httpValue text).length ≤ httpReach text ↔
        ((text.takeWhile isspace).length + (httpValue text).length : Int)
          ≤ natToInt32 text.length := by
      rw [httpReach]
      omega
    have hfits : digitsVal 10 d ≤ ulongMax := by
      rw [ulongMax]
      omega
    by_cases hshort : d.length < 2
    · -- the copy is empty, and so is the number
      rw [if_pos hshort, show (strtoul []).1 = 0 by decide]
      refine ⟨fun h hne => absurd h.symm hne, fun h => ?_⟩
      by_contra hne
      obtain ⟨h2, _, h3⟩ := h fun h0 => hne h0.symm
      rw [← hd, List.length_take] at hshort
      have := hreach.mpr h3
      omega
    · obtain ⟨hstr, hiff⟩ := strtoul_digits_iff (by rintro rfl; simp at hshort) hdigits hfits
      rw [if_neg hshort]
      constructor
      · intro h hne
        -- nothing of the value is lost, or the number would be less
        have hsame : digitsVal 10 d = digitsVal 10 (d ++ (httpValue text).drop (httpReach text)) := by
          rw [hsplit]
          omega
        have hnil := (digitsVal_append_eq (by omega) hsame).resolve_left (by rwa [hsplit])
        rw [hnil, List.append_nil] at hsplit
        rw [hsplit] at h hiff hshort
        exact ⟨by omega, hiff.mp h, hreach.mp (List.drop_eq_nil_iff.mp hnil)⟩
      · intro h
        by_cases hne : digitsVal 10 (httpValue text) = 0
        · omega
        · obtain ⟨_, hoctal, h3⟩ := h hne
          rw [List.drop_eq_nil_of_le (hreach.mpr h3), List.append_nil] at hsplit
          rw [hsplit] at hiff ⊢
          exact hiff.mpr hoctal
  · have hnone : httpStrdup text = none := by
      unfold httpStrdup
      dsimp only
      rw [if_pos (by omega)]
    rw [httpNumber, hnone, Option.elim_none]
    constructor
    · exact fun h hne => absurd h.symm hne
    · intro h
      by_contra hne
      have := (h fun h0 => hne h0.symm).2.2
      omega

/-- The sum with the length of the header stays below `2 ^ 64` exactly where there is room for it. -/
theorem httpNumber_room_iff {n : Nat} (hn : 0 < n) (text : List UInt8) :
    n + httpNumber text < 2 ^ 64 ↔ RoomBeside n (strtoulNumber ((httpStrdup text).getD [])) := by
  obtain ⟨⟨neg, m⟩, hnumber⟩ : ∃ r, strtoulNumber ((httpStrdup text).getD []) = r := ⟨_, rfl⟩
  rw [httpNumber_eq, strtoul_number hnumber, hnumber, RoomBeside, ulongMax]
  cases neg with
  | false =>
      simp only [Bool.false_eq_true, false_and, if_false]
      split <;> omega
  | true =>
      by_cases hm : m = 0
      · subst hm
        simp
      · simp only [hm, ne_eq, not_false_eq_true, and_self, if_true]
        split
        · omega
        · rw [Nat.mod_eq_of_lt (by omega)]
          omega

end Number

/-! ## The look-up -/

/-- What is found under a name is the copy of the first text with that name. -/
theorem httpKeyvalGet_stored {key : List UInt8} {p : Option (List UInt8)}
    {field : List UInt8 × List UInt8} (fields : List (List UInt8 × List UInt8))
    (hget : httpKeyvalGet (fields.map httpStored) key = some p)
    (hfind : fields.find? (fun f => (httpStrdup f.1).any (strcasecmpEq · key)) = some field) :
    p = httpStrdup field.2 := by
  induction fields with
  | nil => exact absurd hfind (by simp)
  | cons f fields ih =>
      rw [List.map_cons, httpKeyvalGet] at hget
      rw [List.find?_cons] at hfind
      cases hk : httpStrdup f.1 with
      | none => simp [httpStored, hk] at hget
      | some k =>
          simp only [httpStored, hk, Option.any_some] at hget hfind
          cases hkey : strcasecmpEq k key with
          | true =>
              rw [hkey] at hget hfind
              obtain rfl : f = field := by simpa using hfind
              simpa using hget.symm
          | false =>
              rw [hkey] at hget hfind
              exact ih (by simpa [httpStored] using hget) hfind

/-- The lengths of an accepted header, in terms of its text. -/
theorem httpHeaderParse_lengths {http h : HttpHeader} {buf text : List UInt8} {len : Nat}
    (hparse : httpHeaderParse http buf len = some (h, 1))
    (hfield : httpContentLength buf = some text) :
    h.headerLen = (httpHead buf).length ∧ h.contentLen = httpNumber text ∧
      h.totalLen = (h.headerLen + h.contentLen) % 2 ^ 64 := by
  obtain ⟨hheaders, hlen⟩ := httpHeaderParse_text hparse
  obtain ⟨t, hends, hfinish⟩ := httpHeaderParse_ends hparse
  refine ⟨hlen, ?_⟩
  obtain ⟨field, hfind, rfl⟩ := Option.map_eq_some_iff.mp hfield
  -- the scan has ended, so that the fields are looked up
  rw [httpFinish, hends.fault, hends.state] at hfinish
  simp only [Bool.false_eq_true, if_false, reduceCtorEq, ne_eq, not_true_eq_false,
    Option.bind_eq_bind, Option.bind_eq_some_iff, Option.some.injEq, Prod.mk.injEq] at hfinish
  obtain ⟨p, hget, _, _, rfl, _⟩ := hfinish
  rw [show t.http.headers = (httpHead buf).fields.map httpStored from hheaders] at hget
  rw [httpKeyvalGet_stored _ hget hfind]
  refine ⟨?_, rfl⟩
  rw [httpNumber]
  cases httpStrdup field.2 <;> rfl

/-! ## The claim -/

/-- A text of lines is not empty. -/
theorem httpText_length_pos {lines : List (List UInt8)} (h : lines ≠ []) :
    0 < (httpText lines).length := by
  obtain ⟨line, lines, rfl⟩ := List.exists_cons_of_ne_nil h
  rw [httpText]
  split
  · exact Nat.succ_pos _
  · dsimp only
    split <;> exact Nat.add_pos_left (Nat.succ_pos _) _

theorem httpHead_length_pos (buf : List UInt8) : 0 < (httpHead buf).length :=
  Nat.add_pos_right _ (httpText_length_pos (List.splitOn_ne_nil 10 _))

/-- A `Content-Length` is taken as it is written, and the lengths add up, exactly under the
condition. -/
theorem httpHeaderParse_length_iff {http h : HttpHeader} {buf text : List UInt8} {len : Nat}
    (hparse : httpHeaderParse http buf len = some (h, 1))
    (hfield : httpContentLength buf = some text) :
    HttpLengthTaken h text ↔ HttpLengthPlain (httpHead buf).length text := by
  obtain ⟨hheader, hcontent, htotal⟩ := httpHeaderParse_lengths hparse hfield
  have hroom := httpNumber_room_iff (httpHead_length_pos buf) text
  have hsum : h.totalLen = h.headerLen + h.contentLen ↔ h.headerLen + h.contentLen < 2 ^ 64 := by
    rw [htotal]
    omega
  -- the sum wraps exactly where the length does not fit
  rw [← hheader, ← hcontent] at hroom
  constructor
  · intro ⟨hvalue, hadd, _⟩
    refine ⟨fun hv => ?_, ?_⟩
    · exact (httpNumber_decimal_iff hv).mp (hcontent.symm.trans (hvalue hv))
    · rw [← hheader]
      exact hroom.mp (hsum.mp hadd)
  · intro ⟨hvalue, hfits⟩
    rw [← hheader] at hfits
    have hadd := hsum.mpr (hroom.mpr hfits)
    refine ⟨fun hv => ?_, hadd, by omega⟩
    rw [hcontent]
    exact (httpNumber_decimal_iff hv).mpr (hvalue hv)

/-- A number of two digits. -/
theorem httpHeaderParse_length_two : ∃ h,
    httpHeaderParse default (bytes "GET / HTTP/1.0\nContent-Length: 42\n\n") 35 = some (h, 1) ∧
      HttpLengthTaken h (bytes "42\n") := by
  obtain ⟨⟨h, i⟩, hparse⟩ : ∃ r,
      httpHeaderParse default (bytes "GET / HTTP/1.0\nContent-Length: 42\n\n") 35 = some r :=
    Option.isSome_iff_exists.mp (by decide)
  obtain rfl : i = 1 := by
    have hone : (httpHeaderParse default (bytes "GET / HTTP/1.0\nContent-Length: 42\n\n") 35).map
        Prod.snd = some 1 := by decide
    rw [hparse] at hone
    exact Option.some.inj hone
  refine ⟨h, hparse, (httpHeaderParse_length_iff hparse (by decide)).mpr ⟨fun _ _ => ?_, ?_⟩⟩
  · decide
  · unfold RoomBeside
    decide

/-- A number of one digit is lost. -/
theorem httpHeaderParse_length_one :
    ¬ ∀ (http h : HttpHeader) (buf text : List UInt8) (len : Nat),
      httpHeaderParse http buf len = some (h, 1) → httpContentLength buf = some text →
        HttpLengthTaken h text := by
  intro hall
  obtain ⟨⟨h, i⟩, hparse⟩ : ∃ r,
      httpHeaderParse default (bytes "GET / HTTP/1.0\nContent-Length: 5\n\n") 34 = some r :=
    Option.isSome_iff_exists.mp (by decide)
  have hvalue : (httpHeaderParse default (bytes "GET / HTTP/1.0\nContent-Length: 5\n\n") 34).map
      (fun r => (r.2, r.1.contentLen)) = some (1, 0) := by decide
  rw [hparse, Option.map_some, Option.some.injEq, Prod.mk.injEq] at hvalue
  obtain ⟨rfl, hcontent⟩ : i = 1 ∧ h.contentLen = 0 := hvalue
  have htaken := hall default h _ (bytes "5\n") 34 hparse (by decide)
  have hfive : h.contentLen = digitsVal 10 (httpValue (bytes "5\n")) :=
    htaken.value ⟨by decide +kernel, by decide +kernel, by decide +kernel⟩
  rw [hcontent] at hfive
  exact absurd hfive (by decide)

end Bklib
