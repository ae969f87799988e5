import Bklib.Lib.PercentCode
import Bklib.Lib.Span
import Bklib.Model.HttpCgi
import Bklib.Proofs.Strtoul

/-!
# `Bklib.Proofs.HttpCgi`: the percent code of `http_cgi_enc` and `http_cgi_dec`

The decoder is `percentDecode` with a bound (`httpCgiDec_eq`), and two digits stand for the character
with that code (`httpCgiHexVal_hex`).

The encoder's loop runs while `dst > dst_end`, which no destination with room fulfils. It returns the
destination as it was, so that the text that is decoded then is one that stood there before:
`httpCgiEnc_roundTrip_iff`.
-/

set_option autoImplicit false

namespace Bklib

open Lib

/-! ### The decoder -/

/-- Room for one more character. -/
theorem room_succ {dstLen : Int} {out : List UInt8} (h : (out.length : Int) < dstLen) (ch : UInt8) :
    (dstLen - out.length).toNat = (dstLen - (out ++ [ch]).length).toNat + 1 := by
  rw [List.length_append, List.length_singleton]
  omega

/-- The loop decodes as long as there is room. -/
theorem httpCgiDecLoop_eq (dstLen : Int) (out src : List UInt8) :
    httpCgiDecLoop dstLen out src =
      out ++ (percentDecode 37 httpCgiHexVal src).take (dstLen - out.length).toNat := by
  induction out, src using httpCgiDecLoop.induct dstLen with
  | case1 out => simp [httpCgiDecLoop]
  | case2 out hroom a b src ih =>
      rw [httpCgiDecLoop, if_pos hroom, if_pos rfl, ih, percentDecode_escape,
        room_succ hroom (httpCgiHexVal a b)]
      simp
  | case3 out src hroom hcut =>
      -- the escape is cut off, so that both sides end here
      have hlen : src.length ≤ 1 := by
        match src, hcut with
        | [], _             => exact Nat.zero_le 1
        | [_], _            => exact Nat.le_refl 1
        | a :: b :: _, hcut => exact absurd rfl (hcut a b _)
      rw [percentDecode_cut hlen, httpCgiDecLoop.eq_def]
      simp [hroom]
  | case4 out ch src hroom hch ih =>
      rw [httpCgiDecLoop.eq_def]
      simp only [if_pos hroom, if_neg hch, ih, percentDecode_raw hch, room_succ hroom ch]
      simp
  | case5 out ch src hroom =>
      rw [httpCgiDecLoop.eq_def]
      -- without room, nothing is taken from what is decoded
      have hfull : (dstLen - out.length).toNat = 0 := by omega
      simp [hroom, hfull]

/-- The result is 0, without a terminator, for a text that fills the destination. -/
theorem httpCgiDec_eq (src : List UInt8) (dstLen : Int) :
    httpCgiDec src dstLen =
      let s := percentDecode 37 httpCgiHexVal src
      if (s.length : Int) < dstLen then (s ++ [0], (s.length : Int)) else (s.take dstLen.toNat, 0) := by
  have hloop := httpCgiDecLoop_eq dstLen [] src
  simp only [List.nil_append, List.length_nil, Nat.cast_zero, Int.sub_zero] at hloop
  simp only [httpCgiDec, hloop]
  generalize percentDecode 37 httpCgiHexVal src = s
  by_cases hroom : (s.length : Int) < dstLen
  · rw [List.take_of_length_le (by omega), if_neg (by omega), if_pos hroom]
  · rw [if_neg hroom, if_pos]
    rw [List.length_take]
    omega

/-- What holds of the 256 bytes. -/
theorem forall_byte {P : UInt8 → Prop} (h : ∀ i : Fin 256, P (UInt8.ofNat i.val)) (c : UInt8) : P c :=
  UInt8.ofNat_toNat (x := c) ▸ h ⟨c.toNat, c.toNat_lt⟩

/-- The digits of base 16 are letters and digits. -/
theorem isxdigit_char {c : UInt8} : isxdigit c = true →
    isalnum c = true ∧ isspace c = false ∧ c ≠ 0 ∧ c ≠ 43 ∧ c ≠ 45 :=
  forall_byte (P := fun c => isxdigit c = true →
    isalnum c = true ∧ isspace c = false ∧ c ≠ 0 ∧ c ≠ 43 ∧ c ≠ 45) (by decide +kernel) c

/-- Two digits of base 16 are read as a number. -/
theorem strtoul16_hex {a b : UInt8} (ha : isxdigit a = true) (hb : isxdigit b = true) :
    strtoul16 [a, b] = (16 * digitVal a + digitVal b, 2) := by
  obtain ⟨-, hspace, -, hplus, hminus⟩ := isxdigit_char ha
  have hdrop : [a, b].dropWhile isspace = [a, b] := by simp [hspace]
  have htake : [a, b].takeWhile isspace = [] := by simp [hspace]
  have hbase : (strtoulBase [a, b]).1 ≠ 16 := by
    -- nothing stands behind the two digits, so they are no prefix
    unfold strtoulBase
    simp only [List.drop_succ_cons, List.drop_zero, List.head?_nil, Option.any_none,
      Bool.false_eq_true, and_false, if_false]
    split <;> decide
  have hdigits : [a, b].takeWhile isxdigit = [a, b] := by simp [ha, hb]
  have hval : digitsVal 16 [a, b] = 16 * digitVal a + digitVal b := by
    simp only [digitsVal, List.foldl_cons, List.foldl_nil]
    omega
  have hlt : digitVal a < 16 ∧ digitVal b < 16 :=
    ⟨by simpa [isxdigit] using ha, by simpa [isxdigit] using hb⟩
  have hmax : ¬ulongMax < 16 * digitVal a + digitVal b := by
    unfold ulongMax
    omega
  simp only [strtoul16, hdrop, htake, List.head?_cons, Option.some_beq_some,
    beq_eq_false_iff_ne.mpr hminus, beq_eq_false_iff_ne.mpr hplus, Bool.or_self, Bool.false_eq_true,
    if_false, List.drop_zero, hbase, hdigits, hval, if_neg hmax, reduceCtorEq, List.length_nil,
    List.length_cons]

/-- The byte that two digits stand for. -/
theorem httpCgiHexVal_hex {a b : UInt8} (ha : isxdigit a = true) (hb : isxdigit b = true) :
    httpCgiHexVal a b = UInt8.ofNat (16 * digitVal a + digitVal b) := by
  obtain ⟨-, -, ha0, -, -⟩ := isxdigit_char ha
  obtain ⟨-, -, hb0, -, -⟩ := isxdigit_char hb
  have hcstr : cstr [a, b] = [a, b] := cstr_eq_self (by simp [ha0.symm, hb0.symm])
  have hlt : digitVal a < 16 ∧ digitVal b < 16 :=
    ⟨by simpa [isxdigit] using ha, by simpa [isxdigit] using hb⟩
  rw [httpCgiHexVal, hcstr, strtoul16_hex ha hb, Nat.mod_eq_of_lt (by omega)]

/-! ### The encoder -/

/-- With room for anything, nothing is written. -/
theorem httpCgiEnc_eq (src : List UInt8) {dstLen : Int} (hroom : 0 < dstLen) :
    httpCgiEnc src dstLen = ([], true) := by
  have hloop : httpCgiEncLoop dstLen [] src = [] := by
    cases src with
    | nil         => rfl
    | cons ch src => exact if_neg (by simpa using Int.le_of_lt hroom)
  simp only [httpCgiEnc, hloop, List.length_nil, Nat.cast_zero, hroom, decide_true]

/-- The characters of an encoded text. -/
def httpCgiChar (ch : UInt8) : Bool := httpCgiPlain ch || ch == 37

/-- The destination after bytes were written from its start on. -/
def overwrite (dst out : List UInt8) : List UInt8 := out ++ dst.drop out.length

/-- `s` was encoded into `dst`: there is a terminated text of `httpCgiChar`s there now, and decoding
it gives `s` and its length in every destination with room. -/
def CgiRoundTrip (s dst : List UInt8) (dstLen : Int) : Prop :=
  (httpCgiEnc s dstLen).2 = true ∧
  ∃ text, Span (overwrite dst (httpCgiEnc s dstLen).1) 0 (text ++ [0]) ∧
    (∀ ch ∈ text, httpCgiChar ch = true) ∧
    ∀ n : Int, s.length < n → httpCgiDec text n = (s ++ [0], (s.length : Int))

/-- Decoding gives a string in every room that holds it exactly when the text spells it. -/
theorem httpCgiDec_eq_iff {text s : List UInt8} :
    (∀ n : Int, s.length < n → httpCgiDec text n = (s ++ [0], (s.length : Int))) ↔
      PercentSpells 37 httpCgiHexVal text s := by
  rw [percentSpells_iff]
  simp only [httpCgiDec_eq]
  generalize percentDecode 37 httpCgiHexVal text = t
  constructor
  · intro h
    -- room for both decides between the two results
    have hboth := h (s.length + t.length + 1) (by omega)
    rw [if_pos (by omega)] at hboth
    exact List.append_cancel_right (congrArg Prod.fst hboth)
  · rintro rfl n hn
    exact if_pos hn

/-- The encoder has done its work if and only if it was done before: the destination holds a text that
spells `s` already. -/
theorem httpCgiEnc_roundTrip_iff (s dst : List UInt8) (dstLen : Int)
    (hroom : 3 * s.length + 1 ≤ dstLen) :
    CgiRoundTrip s dst dstLen ↔
      ∃ text, Span dst 0 (text ++ [0]) ∧ (∀ ch ∈ text, httpCgiChar ch = true) ∧
        PercentSpells 37 httpCgiHexVal text s := by
  unfold CgiRoundTrip
  rw [httpCgiEnc_eq s (by omega)]
  simp only [true_and, httpCgiDec_eq_iff]
  rfl

/-- A destination that held the text before. -/
theorem httpCgiEnc_roundTrip_before :
    CgiRoundTrip [255, 97] (bytes "%ffa" ++ [0, 1, 2, 3]) 7 :=
  (httpCgiEnc_roundTrip_iff [255, 97] (bytes "%ffa" ++ [0, 1, 2, 3]) 7 (by decide)).mpr
    ⟨bytes "%ffa", Span.of_drop [1, 2, 3] (by decide), by decide +kernel,
      percentSpells_iff.mpr (by decide)⟩

/-- A destination without a NUL is not terminated by the encoder. -/
theorem httpCgiEnc_unterminated : ¬CgiRoundTrip [97] [1, 1, 1, 1] 4 := by
  rintro ⟨-, text, hspan, -⟩
  have hdst : overwrite [1, 1, 1, 1] (httpCgiEnc [97] 4).1 = [1, 1, 1, 1] := by decide
  rw [hdst] at hspan
  exact absurd (List.mem_of_getElem? hspan.append_right.head) (by decide)

end Bklib
