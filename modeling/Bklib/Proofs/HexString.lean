import Bklib.Model.Cryptbk
import Bklib.Model.Snprintf

/-!
# `Bklib.Proofs.HexString`: bytes become their hexadecimal text in place

`hex_string` goes through its buffer backwards. When byte `i` is at hand, the bytes before it are still
there, and its two digits go to `2 * i` and `2 * i + 1`, behind all of them. Only the digits of byte 0
are stored over the byte itself, and the higher one, which is stored there, comes last.

* `hexString_exact`: the buffer holds the text and a NUL.
* `cryptbkMd5_text`: what the MD5 mode of `cryptbk_crypt` gives as text.
* `cryptbkMd5_text_verified_iff`: and which texts it accepts, so that it accepts its own
  (`cryptbkMd5_text_roundTrip`).
-/

set_option autoImplicit false

namespace Bklib

open Lib

/-- Each byte as `%02x` prints it. -/
def hexText (bs : List UInt8) : List UInt8 := bs.flatMap fmt02x

theorem hexText_append (bs bs' : List UInt8) : hexText (bs ++ bs') = hexText bs ++ hexText bs' :=
  List.flatMap_append

/-! ## The digits of a `char` -/

/-- `(c >> k) & 0xf`. A `char` from 128 on is negative, and so is what `>>` makes of it. -/
def charNibble (c : UInt8) (k : Nat) : Nat := ((charToInt c >>> k) % 16).toNat

theorem charNibble_zero (c : UInt8) : charNibble c 0 = c.toNat % 16 := by
  have hc := c.toNat_lt
  rw [charNibble, Int.shiftRight_eq_div_pow, charToInt]
  split <;> omega

/-- The sign only fills bits above the mask. -/
theorem charNibble_four (c : UInt8) : charNibble c 4 = c.toNat / 16 := by
  have hc := c.toNat_lt
  rw [charNibble, Int.shiftRight_eq_div_pow, charToInt]
  split <;> omega

theorem hexChar_eq_digitChar : ∀ d < 16, hexChar d = (Nat.digitChar d).toNat.toUInt8 := by
  decide +kernel

theorem fmt02x_eq (c : UInt8) : fmt02x c = [hexChar (charNibble c 4), hexChar (charNibble c 0)] := by
  have hc := c.toNat_lt
  rw [charNibble_four, charNibble_zero, hexChar_eq_digitChar _ (by omega),
    hexChar_eq_digitChar _ (by omega)]
  rfl

theorem hexChar_ne_zero : ∀ d < 16, hexChar d ≠ 0 := by
  decide +kernel

/-- The text ends at the NUL that is put behind it. -/
theorem nul_notMem_hexText (bs : List UInt8) : 0 ∉ hexText bs := by
  intro h0
  obtain ⟨c, -, hmem⟩ := List.mem_flatMap.mp h0
  have hc := c.toNat_lt
  rw [fmt02x_eq, charNibble_four, charNibble_zero, List.mem_pair] at hmem
  rcases hmem with h | h
  · exact hexChar_ne_zero _ (by omega) h.symm
  · exact hexChar_ne_zero _ (by omega) h.symm

/-! ## The loop -/

/-- One round, on byte `i`. -/
theorem hexLoop_succ (i : Nat) (dst : Int → UInt8) :
    hexLoop (i + 1) dst =
      let dst' := writeAt dst (2 * i + 1) [hexChar (charNibble (dst i) 0)]
      hexLoop i (writeAt dst' (2 * i) [hexChar (charNibble (dst' i) 4)]) := by
  simp only [charNibble_zero, charNibble_four]
  rfl

/-- A round stores the text of byte `i`, which is read before anything is stored over it. -/
theorem hexLoop_succ_eq (i : Nat) (dst : Int → UInt8) :
    hexLoop (i + 1) dst = hexLoop i (writeAt dst (2 * i) (fmt02x (dst i))) := by
  have hread : writeAt dst (2 * i + 1) [hexChar (charNibble (dst i) 0)] i = dst i :=
    writeAt_of_lt dst _ (by omega)
  -- the lower digit is stored first, but the two do not meet
  have hswap : writeAt (writeAt dst (2 * i + 1) [hexChar (charNibble (dst i) 0)]) (2 * i)
      [hexChar (charNibble (dst i) 4)] = writeAt dst (2 * i) (fmt02x (dst i)) := by
    rw [fmt02x_eq]
    exact (writeAt_comm dst _ _ (Or.inr (Int.le_refl _))).trans
      (writeAt_append dst (2 * i) [hexChar (charNibble (dst i) 4)]
        [hexChar (charNibble (dst i) 0)]).symm
  rw [hexLoop_succ]
  dsimp only
  rw [hread, hswap]

/-- The loop over the first `n` bytes. It needs no more than these, and stores to the `2 * n` bytes of
their text only. -/
theorem hexLoop_spec (n : Nat) :
    ∀ dst : Int → UInt8, readAt (hexLoop n dst) 0 (2 * n) = hexText (readAt dst 0 n) ∧
      ∀ a : Int, a < 0 ∨ 2 * n ≤ a → hexLoop n dst a = dst a := by
  induction n with
  | zero => exact fun dst => ⟨rfl, fun _ _ => rfl⟩
  | succ i ih =>
      intro dst
      obtain ⟨hread, hout⟩ := ih (writeAt dst (2 * i) (fmt02x (dst i)))
      have hlen : (fmt02x (dst i)).length = 2 := rfl
      -- the bytes before byte `i` are still there
      have hbefore : readAt (writeAt dst (2 * i) (fmt02x (dst i))) 0 i = readAt dst 0 i :=
        readAt_writeAt_disjoint dst _ (Or.inl (by omega))
      -- and what is stored for it is behind what the rest of the loop stores to
      have hdigits : readAt (hexLoop (i + 1) dst) (0 + (2 * i : Nat)) 2 = fmt02x (dst i) := by
        have hkeep : readAt (hexLoop (i + 1) dst) (0 + (2 * i : Nat)) 2 =
            readAt (writeAt dst (2 * i) (fmt02x (dst i))) (2 * i) 2 := by
          refine readAt_congr fun k _ => ?_
          rw [hexLoop_succ_eq, hout _ (Or.inr (by omega)), Nat.cast_mul, Int.zero_add]
          rfl
        rw [hkeep]
        exact readAt_writeAt dst (2 * i) (fmt02x (dst i))
      constructor
      · rw [Nat.mul_succ, readAt_add, hdigits, hexLoop_succ_eq, hread, hbefore, readAt_add,
          hexText_append]
        simp [hexText, readAt]
      · intro a ha
        rw [hexLoop_succ_eq, hout a (by omega)]
        rcases ha with hlo | hhi
        · exact writeAt_of_lt dst _ (by omega)
        · exact writeAt_of_ge dst _ (by omega)

/-! ## `hex_string` -/

section

variable (dst : Int → UInt8) {dstlen : Int} {n : Nat} (hroom : 2 * n + 1 ≤ dstlen)

include hroom

theorem hexString_run :
    hexString dst dstlen n = ⟨hexLoop n (writeAt dst (2 * n) [0]), 2 * n + 1⟩ :=
  if_neg (by omega)

/-- The text, and the NUL, which is stored before any byte is read, and behind all of them. -/
theorem hexString_text :
    readAt (hexString dst dstlen n).dst 0 (2 * n + 1) = hexText (readAt dst 0 n) ++ [0] := by
  obtain ⟨hread, hout⟩ := hexLoop_spec n (writeAt dst (2 * n) [0])
  have hsrc : readAt (writeAt dst (2 * n) [0]) 0 n = readAt dst 0 n :=
    readAt_writeAt_disjoint dst _ (Or.inl (by omega))
  have hnul : hexLoop n (writeAt dst (2 * n) [0]) (2 * n) = 0 := by
    rw [hout _ (Or.inr (Int.le_refl _))]
    exact writeAt_add dst (2 * n) [0] 0 (by decide)
  rw [hexString_run dst hroom, readAt_add, hread, hsrc, readAt_succ, readAt_zero, Nat.cast_mul,
    Int.zero_add]
  exact congrArg (_ ++ [·]) hnul

/-- Nothing is stored outside the text and its terminator. -/
theorem hexString_outside {a : Int} (ha : a < 0 ∨ 2 * n + 1 ≤ a) :
    (hexString dst dstlen n).dst a = dst a := by
  have hout := (hexLoop_spec n (writeAt dst (2 * n) [0])).2 a (by omega)
  rw [hexString_run dst hroom]
  refine hout.trans ?_
  rcases ha with hlo | hhi
  · exact writeAt_of_lt dst _ (by omega)
  · exact writeAt_of_ge dst _ (by rw [List.length_singleton]; omega)

/-- `hex_string` returns the size of the text with its NUL, and that is what the buffer holds then: the
text of the bytes that were in front. Nothing else changes. -/
theorem hexString_exact :
    (hexString dst dstlen n).err = 2 * n + 1 ∧
      readAt (hexString dst dstlen n).dst 0 (2 * n + 1) = hexText (readAt dst 0 n) ++ [0] ∧
      ∀ a : Int, a < 0 ∨ 2 * n + 1 ≤ a → (hexString dst dstlen n).dst a = dst a := by
  refine ⟨?_, hexString_text dst hroom, fun a => hexString_outside dst hroom⟩
  rw [hexString_run dst hroom]

end

/-- Two bytes, of which one is negative as a `char`, in a buffer of five. -/
theorem hexString_exact_two :
    (hexString (fun a => if a = 0 then 127 else 224) 5 2).err = 2 * (2 : Nat) + 1 ∧
      readAt (hexString (fun a => if a = 0 then 127 else 224) 5 2).dst 0 (2 * 2 + 1) =
        hexText (readAt (fun a => if a = 0 then 127 else 224) 0 2) ++ [0] ∧
      ∀ a : Int, a < 0 ∨ 2 * (2 : Nat) + 1 ≤ a →
        (hexString (fun a => if a = 0 then 127 else 224) 5 2).dst a = if a = 0 then 127 else 224 :=
  hexString_exact (fun a => if a = 0 then 127 else 224) (by decide)

/-! ## Digests as text -/

section

variable (env : CryptEnv) (src : List UInt8) (srclen : Int) (dst : Int → UInt8) {dstlen : Int}

/-- The digest of the source. -/
def md5Of (env : CryptEnv) (src : List UInt8) (srclen : Int) : List UInt8 :=
  (env.ssl.md5 (src.take srclen.toNat)).val

theorem length_md5Of : (md5Of env src srclen).length = 16 :=
  (env.ssl.md5 (src.take srclen.toNat)).property

/-- What stands in front after a digest has been stored. -/
theorem readAt_writeAt_md5Of (m : Int → UInt8) :
    readAt (writeAt m 0 (md5Of env src srclen)) 0 16 = md5Of env src srclen := by
  have hread := readAt_writeAt m 0 (md5Of env src srclen)
  rwa [length_md5Of] at hread

/-- The text of a digest takes 33 bytes. -/
theorem cryptbkMd5_text (hroom : 33 ≤ dstlen) :
    (cryptbkMd5 env src srclen dst dstlen { enc := true, md5 := true, text := true }).err = 33 ∧
      readAt (cryptbkMd5 env src srclen dst dstlen { enc := true, md5 := true, text := true }).dst
        0 33 = hexText (md5Of env src srclen) ++ [0] := by
  have hnot : ¬dstlen < 16 := by omega
  have hrun : cryptbkMd5 env src srclen dst dstlen { enc := true, md5 := true, text := true } =
      hexString (writeAt dst 0 (md5Of env src srclen)) dstlen 16 := by
    simp only [cryptbkMd5, if_neg hnot, if_true, md5Of]
  have hfits : 2 * (16 : Nat) + 1 ≤ dstlen := by omega
  have htext := hexString_text (writeAt dst 0 (md5Of env src srclen)) hfits
  rw [readAt_writeAt_md5Of] at htext
  rw [hrun]
  refine ⟨?_, htext⟩
  rw [hexString_run _ hfits]
  rfl

/-- It is compared with a string without regard to case. -/
theorem cryptbkMd5_text_verified_iff (hroom : 16 ≤ dstlen) :
    (cryptbkMd5 env src srclen dst dstlen { dec := true, md5 := true, text := true }).err = 0 ↔
      strcasecmpEq (hexText (md5Of env src srclen)) (cstr (readAt dst 0 33)) = true := by
  have hnot : ¬dstlen < 16 := by omega
  have htext : readAt (hexLoop 16 (writeAt env.junk 0 (md5Of env src srclen))) 0 32 =
      hexText (md5Of env src srclen) := by
    rw [(hexLoop_spec 16 _).1, readAt_writeAt_md5Of]
  rw [← htext]
  simp only [cryptbkMd5, if_neg hnot, Bool.false_eq_true, if_false, if_true, md5Of]
  split
  · next h => exact iff_of_true rfl h
  · next h => exact iff_of_false (by decide) h

/-- The text of a digest is accepted for the same source. -/
theorem cryptbkMd5_text_roundTrip (hroom : 33 ≤ dstlen) :
    (cryptbkMd5 env src srclen
      (cryptbkMd5 env src srclen dst dstlen { enc := true, md5 := true, text := true }).dst dstlen
      { dec := true, md5 := true, text := true }).err = 0 := by
  rw [cryptbkMd5_text_verified_iff _ _ _ _ (by omega), (cryptbkMd5_text env src srclen dst hroom).2]
  have hcstr := cstr_append_nul (nul_notMem_hexText (md5Of env src srclen)) []
  rw [List.append_nil] at hcstr
  rw [hcstr]
  exact decide_eq_true rfl

end

end Bklib
