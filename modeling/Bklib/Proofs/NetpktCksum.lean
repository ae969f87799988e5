import Bklib.Lib.OnesComplement
import Bklib.Model.NetpktMem

/-!
# `Bklib.Proofs.NetpktCksum`: what the checksums of a packet are

Both checksums are `65535 - onesRep 65535 n` of a sum `n` of words, and so is the incremental one:
it brings the complement of the old words and the new words into the sum the old checksum stands
for. The sum of a segment splits into the two addresses and the rest.
-/

set_option autoImplicit false

namespace Bklib

open Bklib.Lib

variable (mem : Int → UInt8)

/-! ## Sums of words -/

/-- The sum of the two words of an address. -/
def halves (x : UInt32) : Nat := x.toNat % 65536 + x.toNat / 65536

theorem halves_le (x : UInt32) : halves x ≤ 131070 := by
  have hx := x.toNat_lt
  unfold halves
  omega

/-- Complementing an address complements its words. -/
theorem halves_not (x : UInt32) : halves (~~~x) = 131070 - halves x := by
  have hx := x.toNat_lt
  have hnot : (~~~x).toNat = 2 ^ 32 - 1 - x.toNat := by
    rw [UInt32.toNat_not]
    rfl
  unfold halves
  omega

/-- The two halves of a word are the two short words it is read from. -/
theorem halves_get32 (a : Int) : halves (get32 mem a) = get16 mem a + get16 mem (a + 2) := by
  have hlo := get16_lt mem a
  have hhi := get16_lt mem (a + 2)
  have h : (get32 mem a).toNat = get16 mem a + 65536 * get16 mem (a + 2) := by
    unfold get32
    rw [UInt32.toNat_ofNat', Nat.mod_eq_of_lt (by omega)]
  unfold halves
  omega

theorem netpktCksumIn_bytes16 {v : Nat} (hv : v < 65536) (rest : List UInt8) :
    netpktCksumIn (bytes16 v ++ rest) = v + netpktCksumIn rest := by
  show le16 _ _ + netpktCksumIn rest = _
  rw [le16_ofNat hv]

theorem netpktCksumIn_bytes32 (x : UInt32) (rest : List UInt8) :
    netpktCksumIn (bytes32 x ++ rest) = halves x + netpktCksumIn rest := by
  have hx := x.toNat_lt
  rw [bytes32, List.append_assoc, netpktCksumIn_bytes16 (by omega), netpktCksumIn_bytes16 (by omega),
    halves, Nat.add_assoc]

/-- The sum over a long word and the rest, as the loop takes it. -/
theorem netpktCksumIn_readAt_four (a : Int) (n : Nat) :
    netpktCksumIn (readAt mem a (n + 4))
      = halves (get32 mem a) + netpktCksumIn (readAt mem (a + 4) n) := by
  rw [readAt_succ, readAt_succ, readAt_succ, readAt_succ, halves_get32]
  show le16 _ _ + (le16 _ _ + netpktCksumIn _) = _
  simp only [get16, Int.add_assoc, ← Nat.add_assoc]
  rfl

/-- The addresses of an IP header, as the pseudo header sums them. -/
theorem netpktCksumIn_addrs (ip : Int) :
    netpktCksumIn (readAt mem (ip + 12) 8) =
      halves (get32 mem (ip + 12)) + halves (get32 mem (ip + 16)) := by
  rw [netpktCksumIn_readAt_four mem (ip + 12) 4, netpktCksumIn_readAt_four mem (ip + 12 + 4) 0,
    show ip + 12 + 4 = ip + 16 by omega]
  rfl

/-- A sum of words is at most that many times 65535. -/
theorem netpktCksumIn_le (bs : List UInt8) : netpktCksumIn bs ≤ 65535 * ((bs.length + 1) / 2) := by
  induction bs using netpktCksumIn.induct with
  | case1 b0 b1 rest ih =>
      have hw := le16_lt b0 b1
      have hlen : ((b0 :: b1 :: rest).length + 1) / 2 = (rest.length + 1) / 2 + 1 := by
        simp only [List.length_cons]
        omega
      rw [netpktCksumIn, hlen]
      omega
  | case2 b =>
      have hb := b.toNat_lt
      simp only [netpktCksumIn, htons, List.length_singleton]
      omega
  | case3 => simp [netpktCksumIn]

/-- The part of the sum of a segment that the addresses are not in. -/
def netpktCksumRest (mem : Int → UInt8) (ip hdr : Int) : Nat :=
  let len : Int := ipLen mem ip - ipHl mem ip * 4
  netpktCksumIn (readAt mem hdr len.toNat) + htons (ipP mem ip) + htons (len % 65536).toNat

theorem netpktCksumSum_eq (ip hdr : Int) :
    netpktCksumSum mem ip hdr = netpktCksumRest mem ip hdr +
      (halves (get32 mem (ip + 12)) + halves (get32 mem (ip + 16))) := by
  simp only [netpktCksumSum, netpktCksumRest, netpktCksumIn_addrs]
  omega

/-- The whole sum fits in 32 bits. -/
theorem netpktCksumSum_lt (ip hdr : Int) : netpktCksumSum mem ip hdr < 65536 * 65536 := by
  have hlen : ipLen mem ip < 65536 := htons_lt _
  have hseg := netpktCksumIn_le (readAt mem hdr (ipLen mem ip - ipHl mem ip * 4 : Int).toNat)
  have hsrc := halves_le (get32 mem (ip + 12))
  have hdst := halves_le (get32 mem (ip + 16))
  have hp := htons_lt (ipP mem ip)
  have hl := htons_lt ((ipLen mem ip - ipHl mem ip * 4 : Int) % 65536).toNat
  rw [length_readAt] at hseg
  rw [netpktCksumSum_eq]
  simp only [netpktCksumRest]
  omega

/-- A packet of a known protocol has a sum that is not empty. -/
theorem netpktCksumSum_pos (ip hdr : Int) (hp : 0 < ipP mem ip) : 0 < netpktCksumSum mem ip hdr := by
  have hlt : ipP mem ip < 256 := (mem (ip + 9)).toNat_lt
  have hp' : 0 < htons (ipP mem ip) := by
    unfold htons
    omega
  simp only [netpktCksumSum]
  omega

/-! ## Folding -/

theorem netpktCksumInFinal_eq {n : Nat} (hn : n < 65536 * 65536) :
    netpktCksumInFinal n = 65535 - onesRep 65535 n := by
  have hcarry : endCarry 65535 n ≤ 2 * 65535 := endCarry_le_two_mul hn
  rw [← endCarry_endCarry (by omega) hn, ← add_carry_mod hcarry]
  rfl

theorem netpktCksumInFinal_lt (n : Nat) : netpktCksumInFinal n < 65536 := by
  simp only [netpktCksumInFinal]
  omega

/-- The complement of a word is what it lacks of 65535. -/
theorem xor_ffff {c : Nat} (hc : c < 65536) : c ^^^ 0xFFFF = 65535 - c := by
  have h : c ^^^ (2 ^ 16 - 1) = 2 ^ 16 - 1 - c := by
    apply Nat.eq_of_testBit_eq
    intro i
    rw [Nat.testBit_xor, Nat.testBit_two_pow_sub_one, show 2 ^ 16 - 1 - c = 2 ^ 16 - (c + 1) by omega,
      Nat.testBit_two_pow_sub_succ hc]
    by_cases hi : i < 16
    · simp [hi]
    · have hpow : 2 ^ 16 ≤ 2 ^ i := Nat.pow_le_pow_right (by omega) (by omega)
      have hlt : c < 2 ^ i := Nat.lt_of_lt_of_le hc hpow
      simp [hi, Nat.testBit_lt_two_pow hlt]
  exact h

/-- The adjusted checksum is the complement of the sum with the old words taken out and the new put
in. -/
theorem netpktAdjustCksum_eq {c : Nat} (hc : c < 65536) (old new : UInt32) :
    netpktAdjustCksum c old new =
      65535 - onesRep 65535 (65535 - c + (131070 - halves old) + halves new) := by
  have hdiff : netpktCksumIn (bytes32 (~~~old) ++ bytes32 new) = 131070 - halves old + halves new := by
    rw [netpktCksumIn_bytes32, halves_not, ← List.append_nil (bytes32 new), netpktCksumIn_bytes32]
    rfl
  have hnew := halves_le new
  have hn : 65535 - c + (131070 - halves old) + halves new < 65536 * 65536 := by omega
  have hle := onesRep_le (m := 65535) (by omega) (65535 - c + (131070 - halves old) + halves new)
  simp only [netpktAdjustCksum]
  rw [hdiff, xor_ffff hc, ← Nat.add_assoc]
  rw [← endCarry_endCarry (by omega) hn] at hle ⊢
  simp only [endCarry] at hle ⊢
  omega

/-- The incremental checksum is the checksum of the sum with the old words taken out. -/
theorem netpktAdjustCksum_onesRep (n : Nat) (old new : UInt32) :
    netpktAdjustCksum (65535 - onesRep 65535 n) old new =
      65535 - onesRep 65535 (n + (131070 - halves old) + halves new) := by
  have hle := onesRep_le (m := 65535) (by omega) n
  rw [netpktAdjustCksum_eq (by omega), Nat.sub_sub_self hle, Nat.add_assoc,
    onesRep_add_left (by omega), ← Nat.add_assoc]

end Bklib
