import Bklib.Proofs.CryptbkPack

/-!
# `Bklib.Proofs.CryptbkDec`: what `cryptbk_pack` writes while it decodes

The readers of OpenSSL write nothing, and neither do the parts of `cryptbk_pack` that decode. The step
behind them terminates a string `if there's room`. By then `buf` is behind what was taken and `len` is
what is left, so that the NUL goes to twice the distance, into input that was not read yet.

`decTaken` says how much the selected objects take of an input, from the answers of the readers alone.

* `packParts_tracks`: the parts take just that, and leave the memory as it was.
* `cryptbkPack_dec_mem_iff`: when the memory is left as it was.
* `cryptbkPack_dec_writes`: a decoder that writes into the object behind the one it takes.
-/

set_option autoImplicit false

namespace Bklib

open Lib

/-! ### What the objects take -/

/-- An object in DER that was asked for: what is behind it. -/
def derRest (calls : PackCalls) (input : List UInt8) : Option (List UInt8) :=
  if input ≠ [] ∧ (calls.d2i input).1.isSome then some (input.drop (calls.d2i input).2.toNat)
  else none

/-- An object in PEM: the text behind it. -/
def pemRest (calls : PackCalls) (text : List UInt8) : Option (List UInt8) :=
  if (calls.pemRead text).1.isSome then some (calls.pemRead text).2 else none

/-- A session key in binary: what is behind its two bytes of length and its own bytes. -/
def seskeyRest : List UInt8 → Option (List UInt8)
  | a :: b :: rest =>
      let size := htons (le16 a b)
      if 0 < size ∧ size ≤ rest.length then some (rest.drop size) else none
  | _ => none

/-- A session key in PEM: the text behind it. -/
def seskeyPemRest (ssl : PackSsl) (text : List UInt8) : Option (List UInt8) :=
  match (ssl.pemReadBio text).1 with
  | none     => none
  | some pem => if strcasecmpEq pem.name seskeyPemName then some (ssl.pemReadBio text).2 else none

/-- One kind of object: what is behind it, in the form that the mode asks for. Without a form,
`plain` says whether the part comes to its end. -/
def formRest (mode : PackMode) (pem der : List UInt8 → Option (List UInt8)) (plain : Bool)
    (input : List UInt8) : Option (List UInt8) :=
  if mode.text then pem input
  else if mode.binary then der input
  else if plain then some input else none

/-- A kind of object that may be selected or not. -/
def selectedRest (sel : Bool) (f : List UInt8 → Option (List UInt8)) (input : List UInt8) :
    Option (List UInt8) :=
  if sel then f input else some input

section Spec

variable (ssl : PackSsl) (pass : Option (List UInt8)) (mode : PackMode)

/-- What is behind the selected objects, if all of them are there. -/
def objectsRest (input : List UInt8) : Option (List UInt8) :=
  (((selectedRest mode.pubkey (formRest mode (pemRest ssl.x509) (derRest ssl.x509) true) input).bind
    (selectedRest mode.req (formRest mode (pemRest ssl.x509Req) (derRest ssl.x509Req) false))).bind
    (selectedRest mode.privkey (formRest mode (pemRest (ssl.privateKey pass))
      (derRest (ssl.privateKey pass)) true))).bind
    (selectedRest mode.seskey (formRest mode (seskeyPemRest ssl) seskeyRest true))

/-- How far `rest` is into the input. Of a text all is taken, unless `BIO_tell` says how much. -/
def bytesTaken (input rest : List UInt8) : Int :=
  if mode.text = false then (input.length : Int) - rest.length
  else if ssl.bioTell input rest = 0 then input.length
  else ssl.bioTell input rest

/-- How much the selected objects take of an input, if all of them are there. -/
def decTaken (input : List UInt8) : Option Int :=
  (objectsRest ssl pass mode input).map (bytesTaken ssl mode input)

end Spec

/-- The readers for one kind of object take 0 to `len` bytes. -/
def PackCalls.Bounded (calls : PackCalls) : Prop :=
  ∀ input, 0 ≤ (calls.d2i input).2 ∧ (calls.d2i input).2 ≤ input.length

/-- What is promised of OpenSSL: no reader goes back, and none goes behind the input. -/
structure PackSsl.Bounded (ssl : PackSsl) (pass : Option (List UInt8)) : Prop where
  x509       : ssl.x509.Bounded
  x509Req    : ssl.x509Req.Bounded
  privateKey : (ssl.privateKey pass).Bounded
  bioTell    : ∀ text rest, 0 ≤ ssl.bioTell text rest ∧ ssl.bioTell text rest ≤ text.length

/-! ### A part takes what its object takes -/

/-- The decoder between two parts, with `rest` still to be read and the memory as it was. -/
structure DecAt (mode : PackMode) (mem : Int → UInt8) (total : Int) (rest : List UInt8)
    (st : PackSt) : Prop where
  same   : st.mem = mem
  len    : 0 ≤ st.len
  total  : st.buf + st.len = total
  text   : mode.text = true → st.buf = 0 ∧ st.bio = rest
  binary : mode.text = false → rest = readAt mem st.buf st.len.toNat

/-- A result agrees with what is behind the objects: both have an end, or neither has. -/
def DecTracks (mode : PackMode) (mem : Int → UInt8) (total : Int) (r : PackSt × Bool) :
    Option (List UInt8) → Prop
  | some rest => r.2 = true ∧ DecAt mode mem total rest r.1
  | none      => r.2 = false ∧ r.1.mem = mem

section Parts

variable {ssl : PackSsl} {pass : Option (List UInt8)} {mode : PackMode} {mem : Int → UInt8}
  {total : Int} {rest : List UInt8} {st : PackSt}

/-- A part behind another is tracked when each of them is. -/
theorem DecTracks.andThen {r : PackSt × Bool} {x : Option (List UInt8)}
    {part : PackSt → PackSt × Bool} {f : List UInt8 → Option (List UInt8)}
    (h : DecTracks mode mem total r x)
    (hpart : ∀ {rest st}, DecAt mode mem total rest st →
      DecTracks mode mem total (part st) (f rest)) :
    DecTracks mode mem total (packThen r part) (x.bind f) := by
  cases x with
  | none =>
      unfold packThen
      rw [h.1]
      exact h
  | some rest =>
      unfold packThen
      rw [h.1]
      exact hpart h.2

/-- The record does not matter. -/
theorem DecAt.setCert (h : DecAt mode mem total rest st) (cert : CryptbkRec) :
    DecAt mode mem total rest { st with cert } :=
  ⟨h.same, h.len, h.total, h.text, h.binary⟩

/-- In a text, only the BIO moves. -/
theorem DecAt.setBio (h : DecAt mode mem total rest st) (htext : mode.text = true)
    (cert : CryptbkRec) (rest' : List UInt8) :
    DecAt mode mem total rest' { st with cert, bio := rest' } where
  same     := h.same
  len      := h.len
  total    := h.total
  text _   := ⟨(h.text htext).1, rfl⟩
  binary h := absurd (h.symm.trans htext) Bool.false_ne_true

/-- In binary, `buf` and `len` move. -/
theorem DecAt.advance (h : DecAt mode mem total rest st) (htext : mode.text = false) {i : Int}
    (hi : 0 ≤ i) (hle : i ≤ st.len) :
    DecAt mode mem total (rest.drop i.toNat) (st.advance i) where
  same     := h.same
  len      := show 0 ≤ st.len - i by omega
  total    := show st.buf + i + (st.len - i) = total by
    have := h.total
    omega
  text h   := absurd (htext.symm.trans h) Bool.false_ne_true
  binary _ := by
    have hsize : st.len.toNat - i.toNat = (st.len - i).toNat := by omega
    have hpos : st.buf + (i.toNat : Int) = st.buf + i := by omega
    rw [h.binary htext, drop_readAt mem st.buf (by omega), hsize, hpos]
    rfl

theorem DecAt.length_rest (h : DecAt mode mem total rest st) (htext : mode.text = false) :
    (rest.length : Int) = st.len := by
  have hlen := h.len
  rw [h.binary htext, length_readAt]
  omega

/-- What the readers for DER are given. -/
theorem DecAt.input (h : DecAt mode mem total rest st) (htext : mode.text = false) :
    readAt st.mem st.buf st.len.toNat = rest := by rw [h.same, h.binary htext]

theorem DecAt.rest_ne_nil (h : DecAt mode mem total rest st) (htext : mode.text = false) :
    rest ≠ [] ↔ 0 < st.len := by
  rw [← h.length_rest htext, ← List.length_pos_iff]
  omega

/-- Reading a part of a text is tracked by what the reader takes. -/
theorem pemRead_tracks (h : DecAt mode mem total rest st) (htext : mode.text = true)
    (calls : PackCalls) (cert : CryptbkRec) :
    DecTracks mode mem total
      ({ st with cert, bio := (calls.pemRead rest).2 }, (calls.pemRead rest).1.isSome)
      (pemRest calls rest) := by
  unfold pemRest
  cases (calls.pemRead rest).1 with
  | none   => exact ⟨rfl, h.same⟩
  | some x => exact ⟨rfl, h.setBio htext _ _⟩

/-- The state behind an object in DER. -/
theorem DecAt.d2i (h : DecAt mode mem total rest st) (htext : mode.text = false)
    {calls : PackCalls} (hcalls : calls.Bounded) (cert : CryptbkRec) :
    DecAt mode mem total (rest.drop (calls.d2i rest).2.toNat)
      ({ st with cert }.advance (calls.d2i rest).2) := by
  obtain ⟨hpos, hle⟩ := hcalls rest
  rw [h.length_rest htext] at hle
  exact (h.setCert cert).advance htext hpos hle

/-- An object in DER is only looked for where bytes are left. -/
theorem derRest_tracks {calls : PackCalls} (h : DecAt mode mem total rest st)
    (htext : mode.text = false) {found : PackSt × Bool} {short : PackSt} (hshort : short.mem = mem)
    (hfound : DecTracks mode mem total found
      (if (calls.d2i rest).1.isSome then some (rest.drop (calls.d2i rest).2.toNat) else none)) :
    DecTracks mode mem total (if 0 < st.len then found else (short, false))
      (derRest calls rest) := by
  simp only [derRest, h.rest_ne_nil htext]
  by_cases hlen : 0 < st.len
  · simpa only [hlen, true_and, if_true] using hfound
  · simp only [hlen, false_and, if_false]
    exact ⟨rfl, hshort⟩

/-- A certificate or a private key. -/
theorem packDecObj_tracks {calls : PackCalls} (hcalls : calls.Bounded) (f : KeyField)
    (h : DecAt mode mem total rest st) :
    DecTracks mode mem total (packDecObj calls f mode st)
      (formRest mode (pemRest calls) (derRest calls) true rest) := by
  unfold packDecObj formRest
  cases htext : mode.text with
  | true =>
      simp only [if_true, (h.text htext).2]
      exact pemRead_tracks h htext calls _
  | false =>
      cases mode.binary with
      | false => exact ⟨rfl, h.setCert _⟩
      | true =>
          simp only [Bool.false_eq_true, if_false, if_true, h.input htext]
          refine derRest_tracks h htext h.same ?_
          cases (calls.d2i rest).1 with
          | none   => exact ⟨rfl, h.same⟩
          | some x => exact ⟨rfl, h.d2i htext hcalls _⟩

/-- A request. It has to be there without a form, too. -/
theorem packDecReq_tracks {calls : PackCalls} (hcalls : calls.Bounded)
    (h : DecAt mode mem total rest st) :
    DecTracks mode mem total (packDecReq calls mode st)
      (formRest mode (pemRest calls) (derRest calls) false rest) := by
  unfold packDecReq formRest
  cases htext : mode.text with
  | true =>
      simp only [if_true, (h.text htext).2]
      exact pemRead_tracks h htext calls _
  | false =>
      cases mode.binary with
      | false => exact ⟨rfl, h.same⟩
      | true =>
          simp only [Bool.false_eq_true, if_false, if_true, h.input htext]
          refine derRest_tracks h htext h.same ?_
          cases (calls.d2i rest).1 with
          | none   => exact ⟨rfl, h.same⟩
          | some x => exact ⟨rfl, h.d2i htext hcalls _⟩

/-- A session key. -/
theorem packDecSeskey_tracks (h : DecAt mode mem total rest st) :
    DecTracks mode mem total (packDecSeskey ssl mode st)
      (formRest mode (seskeyPemRest ssl) seskeyRest true rest) := by
  unfold packDecSeskey formRest
  cases htext : mode.text with
  | true =>
      simp only [if_true, (h.text htext).2, seskeyPemRest]
      cases (ssl.pemReadBio rest).1 with
      | none     => exact ⟨rfl, h.same⟩
      | some pem =>
          dsimp only
          split
          · exact ⟨rfl, h.setBio htext _ _⟩
          · exact ⟨rfl, h.same⟩
  | false =>
      cases mode.binary with
      | false => exact ⟨rfl, h.setCert _⟩
      | true =>
          have hpos := h.len
          have hlen := h.length_rest htext
          have hrest := h.binary htext
          simp only [Bool.false_eq_true, if_false, if_true]
          by_cases htwo : 2 ≤ st.len
          · -- the two bytes of the length, and what is behind them
            obtain ⟨k, hk⟩ : ∃ k, st.len.toNat = k + 2 := ⟨st.len.toNat - 2, by omega⟩
            have htail := (h.setCert { st.cert with seskey := none }).advance htext (i := 2)
              (by decide) htwo
            have hsize : get16 st.mem st.buf = le16 (mem st.buf) (mem (st.buf + 1)) := by
              rw [h.same, get16]
            have hfits (size : Nat) : (size : Int) ≤ st.len - 2 ↔ size ≤ k := by omega
            rw [hk, readAt_succ, readAt_succ] at hrest
            rw [hrest] at htail ⊢
            simp only [htwo, or_true, if_true, PackSt.advance, hsize, hfits, seskeyRest,
              length_readAt]
            split
            next hroom => exact ⟨rfl, (htail.setCert _).advance htext (Int.natCast_nonneg _)
              ((hfits _).mpr hroom.2)⟩
            next       => exact ⟨rfl, h.same⟩
          · have hshort : seskeyRest rest = none := by
              unfold seskeyRest
              split
              next => simp only [List.length_cons] at hlen; omega
              next => rfl
            simp only [htwo, or_false, show ¬st.len < 0 by omega, if_false, hshort]
            exact ⟨rfl, h.same⟩

/-- A part that may be selected or not. -/
theorem selected_tracks {sel : Bool} {part : PackSt → PackSt × Bool}
    {f : List UInt8 → Option (List UInt8)} (h : DecAt mode mem total rest st)
    (hpart : DecTracks mode mem total (part st) (f rest)) :
    DecTracks mode mem total (if sel = false then (st, true) else part st)
      (selectedRest sel f rest) := by
  unfold selectedRest
  cases sel with
  | false => exact ⟨rfl, h⟩
  | true  => exact hpart

/-- The parts that read an object, one after another. -/
theorem packObjects_tracks (hssl : ssl.Bounded pass) (hdec : mode.dec = true)
    (h : DecAt mode mem total rest st) :
    DecTracks mode mem total
      (packThen (packThen (packThen (packPubkey ssl mode st) (packReq ssl mode))
        (packPrivkey ssl pass mode)) (packSeskey ssl mode))
      (objectsRest ssl pass mode rest) := by
  refine (((?_ : DecTracks mode mem total (packPubkey ssl mode st) _).andThen ?_).andThen
    ?_).andThen ?_
  · unfold packPubkey
    rw [if_pos hdec]
    exact selected_tracks h (packDecObj_tracks hssl.x509 .cert h)
  · intro rest st h
    unfold packReq
    rw [if_pos hdec]
    exact selected_tracks h (packDecReq_tracks hssl.x509Req h)
  · intro rest st h
    unfold packPrivkey
    rw [if_pos hdec]
    exact selected_tracks h (packDecObj_tracks hssl.privateKey .pkey h)
  · intro rest st h
    unfold packSeskey
    rw [if_pos hdec]
    exact selected_tracks h (packDecSeskey_tracks h)

end Parts

/-! ### `cryptbk_pack` with `CRYPTBK_MODE_DEC` -/

section Pack

variable (ssl : PackSsl) (pass : Option (List UInt8)) (mode : PackMode) (cert : CryptbkRec)
  (buf : PemBuf) (len : Int)

/-- The input: `len` bytes of the buffer, or the string in it. -/
def decInput : List UInt8 := readAt buf.mem 0 (pemLen buf len).toNat

theorem pemLen_nonneg : 0 ≤ pemLen buf len := by
  unfold pemLen
  split <;> omega

theorem length_decInput : ((decInput buf len).length : Int) = pemLen buf len := by
  rw [decInput, length_readAt, Int.toNat_of_nonneg (pemLen_nonneg buf len)]

variable {ssl pass mode}

/-- How a decoder ends that has taken `n` bytes, or misses an object. The memory is as it was. -/
def DecEnds (mem : Int → UInt8) (total : Int) (r : PackSt × Bool) : Option Int → Prop
  | some n => r.2 = true ∧ r.1.mem = mem ∧ r.1.buf = n ∧ r.1.len = total - n
  | none   => r.2 = false ∧ r.1.mem = mem

/-- The last part counts what was taken. -/
theorem packText_tracks (hdec : mode.dec = true) {r : PackSt × Bool} {x : Option (List UInt8)}
    (h : DecTracks mode buf.mem (pemLen buf len) r x) :
    DecEnds buf.mem (pemLen buf len) (packThen r (packText ssl (decInput buf len) mode))
      (x.map (bytesTaken ssl mode (decInput buf len))) := by
  cases x with
  | none =>
      rw [packThen, if_neg (Bool.eq_false_iff.mp h.1)]
      exact h
  | some rest =>
      obtain ⟨hdone, hat⟩ := h
      have htotal := hat.total
      have hinput := length_decInput buf len
      rw [packThen, if_pos hdone, packText, Option.map_some, bytesTaken]
      cases htext : mode.text with
      | false =>
          -- a DER decoder has counted on its own
          have hleft := hat.length_rest htext
          simp only [if_true]
          exact ⟨rfl, hat.same, by dsimp only; omega, by dsimp only; omega⟩
      | true =>
          -- a PEM decoder counts what is left in its BIO
          obtain ⟨hbuf, hbio⟩ := hat.text htext
          simp only [Bool.true_eq_false, if_false, if_pos hdec, hbio]
          refine ⟨rfl, hat.same, ?_, ?_⟩
          · show r.1.buf + _ = _
            split <;> omega
          · show r.1.len - _ = _
            split <;> omega

/-- The parts of a decoder come to their end as far as the objects do, and take what these take. -/
theorem packParts_tracks (hssl : ssl.Bounded pass) (hdec : mode.dec = true) :
    DecEnds buf.mem (pemLen buf len)
      (packParts ssl pass mode ⟨cert, buf.mem, 0, pemLen buf len, decInput buf len⟩)
      (decTaken ssl pass mode (decInput buf len)) := by
  have hstart : DecAt mode buf.mem (pemLen buf len) (decInput buf len)
      ⟨cert, buf.mem, 0, pemLen buf len, decInput buf len⟩ :=
    ⟨rfl, pemLen_nonneg buf len, Int.zero_add _, fun _ => ⟨rfl, rfl⟩, fun _ => rfl⟩
  exact packText_tracks buf len hdec (packObjects_tracks hssl hdec hstart)

/-- A decoder leaves the memory as it was unless there are more bytes behind what it takes than in
what it takes, and the byte at twice the distance is another than the NUL. -/
theorem cryptbkPack_dec_mem_iff (ssl : PackSsl) (cert : CryptbkRec) (buf : PemBuf) (len : Int)
    (pass : Option (List UInt8)) (mode : PackMode) (hssl : ssl.Bounded pass)
    (hdec : mode.dec = true) :
    (cryptbkPack ssl cert buf len pass mode).buf.mem = buf.mem ↔
      ∀ n, decTaken ssl pass mode (decInput buf len) = some n →
        n ≤ 0 ∨ pemLen buf len ≤ 2 * n ∨ buf.mem (2 * n) = 0 := by
  have hends := packParts_tracks cert buf len hssl hdec
  have hmode : ¬(mode.dec = false ∧ mode.enc = false) := by simp [hdec]
  rw [cryptbkPack, if_neg hmode]
  simp only [if_pos hdec]
  rw [← decInput]
  generalize packParts ssl pass mode _ = r at hends ⊢
  cases htaken : decTaken ssl pass mode (decInput buf len) with
  | none =>
      rw [htaken] at hends
      obtain ⟨hfail, hmem⟩ := hends
      simp [hfail, hmem]
  | some n =>
      rw [htaken] at hends
      obtain ⟨hdone, hmem, hbuf, hlen⟩ := hends
      simp only [if_pos hdone, Option.some.injEq, forall_eq', packNul, hdec, true_or, true_and, hbuf,
        hlen, hmem]
      have hroom : 0 < n ∧ n < pemLen buf len - n ↔ ¬(n ≤ 0 ∨ pemLen buf len ≤ 2 * n) := by omega
      rw [← or_assoc]
      -- `buf` has been moved on by `n`, so that the NUL at `buf[n]` is at `2 * n`
      by_cases hfull : n ≤ 0 ∨ pemLen buf len ≤ 2 * n
      · rw [if_neg (fun h => hroom.mp h hfull)]
        exact iff_of_true rfl (Or.inl hfull)
      · rw [if_pos (hroom.mpr hfull), ← Int.two_mul, or_iff_right hfull]
        rw [writeAt_eq_self_iff, List.length_singleton, readAt_succ, readAt_zero, List.singleton_inj]

end Pack

theorem abcSsl_bounded (pass : Option (List UInt8)) : abcSsl.Bounded pass where
  x509 _       := ⟨Int.le_refl 0, Int.natCast_nonneg _⟩
  x509Req _    := ⟨Int.le_refl 0, Int.natCast_nonneg _⟩
  privateKey _ := ⟨Int.le_refl 0, Int.natCast_nonneg _⟩
  bioTell _ _  := ⟨Int.le_refl 0, Int.natCast_nonneg _⟩

/-- A session key of one byte, and what stands behind it. -/
def keyAndRest (rest : List UInt8) : PemBuf := ⟨writeAt (fun _ => 9) 0 ([0, 1, 65] ++ rest), 100⟩

/-- A key that fills the input is decoded without a write. -/
theorem cryptbkPack_dec_keeps :
    (cryptbkPack abcSsl {} (keyAndRest []) 3 none (seskeyDec false)).buf.mem =
      (keyAndRest []).mem :=
  have htaken : decTaken abcSsl none (seskeyDec false) (decInput (keyAndRest []) 3) = some 3 := by
    decide
  (cryptbkPack_dec_mem_iff abcSsl {} (keyAndRest []) 3 none (seskeyDec false) (abcSsl_bounded none)
    rfl).mpr (by
      rw [htaken]
      rintro n ⟨⟩
      exact Or.inr (Or.inl (by decide)))

/-- The fourth of five bytes that stand behind the key is overwritten. -/
theorem cryptbkPack_dec_writes :
    abcSsl.Bounded none ∧ (keyAndRest [66, 67, 68, 69, 70]).mem 6 = 69 ∧
    (cryptbkPack abcSsl {} (keyAndRest [66, 67, 68, 69, 70]) 8 none (seskeyDec false)).buf.mem 6 =
      0 :=
  ⟨abcSsl_bounded none, by decide, by decide⟩

end Bklib
