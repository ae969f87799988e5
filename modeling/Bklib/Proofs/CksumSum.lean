import Bklib.Model.NetpktCksum
import Bklib.Proofs.NetpktCksum

/-!
# `Bklib.Proofs.CksumSum`: no sum of a checksum overflows

The checksum of a segment is that of its pseudo header and its bytes, as one sequence of 16-bit words
(`segmentBytes`). The code adds these words up in an `int` and folds the sum twice.

* `netpktCksumTcpInt_eq`, `netpktCksumUdpInt_eq`: the checksums in `int`s are those of natural numbers.
* `netpktCksum_exact`: the sum of any segment of up to 65515 bytes is below `2 ^ 31`, and what is made
  of it is the complement of the one's complement sum, in which each carry goes back in at once.
-/

set_option autoImplicit false

namespace Bklib

open Bklib.Lib

/-! ## The words of a segment -/

/-- A word as the network has it, with its high byte first. -/
def be16 (b0 b1 : UInt8) : Nat := 256 * b0.toNat + b1.toNat

/-- The words of some bytes, two by two. An odd one at the end has a zero behind it. -/
def words16 (word : UInt8 → UInt8 → Nat) : List UInt8 → List Nat
  | b0 :: b1 :: rest => word b0 b1 :: words16 word rest
  | [b]              => [word b 0]
  | []               => []

/-- The pseudo header: the addresses, the protocol behind a zero, and the length of the segment. -/
def pseudoHdr (mem : Int → UInt8) (ip : Int) : List UInt8 :=
  let len := (segmentLen mem ip).toNat
  readAt mem (ip + 12) 8 ++ [0, mem (ip + 9), UInt8.ofNat (len / 256), UInt8.ofNat len]

/-- What a checksum is over: the pseudo header and the segment at `hdr`. -/
def segmentBytes (mem : Int → UInt8) (ip hdr : Int) : List UInt8 :=
  pseudoHdr mem ip ++ readAt mem hdr (segmentLen mem ip).toNat

/-- The words of two pieces, the first of even length, are the words of the one and then of the
other. -/
theorem words16_append {word : UInt8 → UInt8 → Nat} {bs : List UInt8} (h : bs.length % 2 = 0)
    (bs' : List UInt8) : words16 word (bs ++ bs') = words16 word bs ++ words16 word bs' := by
  induction bs using netpktCksumIn.induct with
  | case1 b0 b1 rest ih =>
      have hrest : rest.length % 2 = 0 := by
        simp only [List.length_cons] at h
        omega
      exact congrArg (word b0 b1 :: ·) (ih hrest)
  | case2 b => exact absurd h (by simp)
  | case3 => rfl

/-- Every word of a text is a word. -/
theorem words16_le {word : UInt8 → UInt8 → Nat} (hword : ∀ b0 b1, word b0 b1 ≤ 65535)
    (bs : List UInt8) : ∀ w ∈ words16 word bs, w ≤ 65535 := by
  induction bs using netpktCksumIn.induct with
  | case1 b0 b1 rest ih => exact List.forall_mem_cons.mpr ⟨hword b0 b1, ih⟩
  | case2 b => exact List.forall_mem_singleton.mpr (hword b 0)
  | case3 => exact fun w hw => absurd hw List.not_mem_nil

theorem le16_le (b0 b1 : UInt8) : le16 b0 b1 ≤ 65535 := Nat.le_of_lt_succ (le16_lt b0 b1)

theorem be16_le (b0 b1 : UInt8) : be16 b0 b1 ≤ 65535 := by
  have h0 := b0.toNat_lt
  have h1 := b1.toNat_lt
  unfold be16
  omega

/-- The sum of the loop is the sum of the words. -/
theorem netpktCksumIn_eq_sum (bs : List UInt8) : netpktCksumIn bs = (words16 le16 bs).sum := by
  induction bs using netpktCksumIn.induct with
  | case1 b0 b1 rest ih => rw [netpktCksumIn, words16, List.sum_cons, ih]
  | case2 b =>
      have hb := b.toNat_lt
      show htons (b.toNat * 256) = le16 b 0 + 0
      simp only [htons, le16, UInt8.toNat_zero]
      omega
  | case3 => rfl

theorem segmentLen_lt (mem : Int → UInt8) (ip : Int) : segmentLen mem ip < 65536 := by
  have hlen : ipLen mem ip < 65536 := htons_lt _
  unfold segmentLen
  omega

theorem netpktCksumSum_segment (mem : Int → UInt8) (ip hdr : Int) :
    netpktCksumSum mem ip hdr = netpktCksumIn (readAt mem hdr (segmentLen mem ip).toNat) +
      netpktCksumIn (readAt mem (ip + 12) 8) + htons (ipP mem ip) +
      htons (segmentLen mem ip % 65536).toNat := rfl

/-- The words of a segment add up to what both functions add up. -/
theorem sum_segmentBytes {mem : Int → UInt8} {ip : Int} (hdr : Int) (hlo : 0 ≤ segmentLen mem ip) :
    (words16 le16 (segmentBytes mem ip hdr)).sum = netpktCksumSum mem ip hdr := by
  have hlt := segmentLen_lt mem ip
  have heven : (pseudoHdr mem ip).length % 2 = 0 := by simp [pseudoHdr]
  have hproto : le16 0 (mem (ip + 9)) = htons (ipP mem ip) := by
    have hp := (mem (ip + 9)).toNat_lt
    simp only [le16, htons, ipP, UInt8.toNat_zero]
    omega
  have hlen : le16 (UInt8.ofNat ((segmentLen mem ip).toNat / 256))
      (UInt8.ofNat (segmentLen mem ip).toNat) = htons (segmentLen mem ip % 65536).toNat := by
    simp only [le16, htons, UInt8.toNat_ofNat']
    omega
  have hpseudo : (words16 le16 (pseudoHdr mem ip)).sum =
      netpktCksumIn (readAt mem (ip + 12) 8) +
        (htons (ipP mem ip) + htons (segmentLen mem ip % 65536).toNat) := by
    rw [pseudoHdr, words16_append (by simp), List.sum_append, ← netpktCksumIn_eq_sum, ← hproto, ← hlen]
    rfl
  rw [segmentBytes, words16_append heven, List.sum_append, hpseudo, ← netpktCksumIn_eq_sum,
    netpktCksumSum_segment]
  omega

/-! ## No overflow -/

/-- An odd byte is a word of its own, negative as a `short` or not. -/
theorem htonsOfShort_eq (x : Int) : htonsOfShort x = htons (x % 65536).toNat := by
  have hcut : toInt16 x % 65536 = x % 65536 := by
    rw [toInt16, Int.bmod_eq_emod]
    split <;> omega
  rw [htonsOfShort, hcut]

/-- The loop is exact as long as the whole sum is an `int`: no word is negative, so no sum before the
last one is larger. -/
theorem netpktCksumInLoop_eq (bs : List UInt8) :
    ∀ sum : Nat, sum + netpktCksumIn bs < 2 ^ 31 →
      netpktCksumInLoop bs sum = some ((sum + netpktCksumIn bs : Nat) : Int) := by
  induction bs using netpktCksumIn.induct with
  | case1 b0 b1 rest ih =>
      intro sum hlt
      rw [netpktCksumIn] at hlt ⊢
      rw [netpktCksumInLoop, intAdd_natCast (by omega), Option.bind_some, ih _ (by omega),
        Nat.add_assoc]
  | case2 b =>
      intro sum hlt
      have hb := b.toNat_lt
      rw [netpktCksumIn] at hlt ⊢
      have hbyte : ((b.toNat : Int) * 256 % 65536).toNat = b.toNat * 256 := by omega
      rw [netpktCksumInLoop, htonsOfShort_eq, hbyte, intAdd_natCast hlt]
  | case3 => exact fun sum _ => rfl

theorem netpktCksumInInt_eq (bs : List UInt8) (h : netpktCksumIn bs < 2 ^ 31) :
    netpktCksumInInt bs = some (netpktCksumIn bs : Int) := by
  have hloop := netpktCksumInLoop_eq bs 0 (by omega)
  rwa [Nat.zero_add] at hloop

theorem shiftRight_natCast (k : Nat) : (k : Int) >>> (16 : Nat) = ((k / 65536 : Nat) : Int) := by
  rw [Int.shiftRight_eq_div_pow]
  omega

/-- `~k & 0xffff`. -/
theorem not_natCast_emod (k : Nat) : ~~~(k : Int) % 65536 = ((65535 - k % 65536 : Nat) : Int) := by
  show Int.negSucc k % 65536 = _
  omega

/-- The two folds of a sum that is not negative. -/
theorem netpktCksumInFinalInt_eq {n : Nat} (hn : n < 2 ^ 31) :
    netpktCksumInFinalInt n = some (netpktCksumInFinal n : Int) := by
  have hmask : (n : Int) % 65536 = ((n % 65536 : Nat) : Int) := by omega
  have hfirst : n / 65536 + n % 65536 < 2 ^ 31 := by omega
  have hsecond : n / 65536 + n % 65536 + (n / 65536 + n % 65536) / 65536 < 2 ^ 31 := by omega
  show (intAdd ((n : Int) >>> (16 : Nat)) ((n : Int) % 65536)).bind (fun sum =>
    (intAdd sum (sum >>> (16 : Nat))).bind fun sum => some (~~~sum % 65536)) = _
  rw [shiftRight_natCast, hmask, intAdd_natCast hfirst, Option.bind_some, shiftRight_natCast,
    intAdd_natCast hsecond, Option.bind_some, not_natCast_emod]
  rfl

section

variable {mem : Int → UInt8} {ip : Int}

/-- With a segment of up to 65515 bytes, the sum is an `int`. -/
theorem netpktCksumSum_lt_int (hdr : Int) (hhi : segmentLen mem ip ≤ 65515) :
    netpktCksumSum mem ip hdr < 2 ^ 31 := by
  -- 32758 words for the segment, and six for the pseudo header
  have hseg := netpktCksumIn_le (readAt mem hdr (segmentLen mem ip).toNat)
  have haddrs := netpktCksumIn_le (readAt mem (ip + 12) 8)
  have hp := htons_lt (ipP mem ip)
  have hl := htons_lt (segmentLen mem ip % 65536).toNat
  rw [length_readAt] at hseg haddrs
  rw [netpktCksumSum_segment]
  omega

/-- Both functions come to the exact sum, in different orders. -/
theorem netpktCksumTcpSum_eq {tcp : Int} (h : netpktCksumSum mem ip tcp < 2 ^ 31) :
    netpktCksumTcpSum mem ip tcp = some (netpktCksumSum mem ip tcp : Int) := by
  rw [netpktCksumSum_segment] at h ⊢
  have hseg := netpktCksumInInt_eq (readAt mem tcp (segmentLen mem ip).toNat) (by omega)
  have haddrs := netpktCksumInInt_eq (readAt mem (ip + 12) 8) (by omega)
  simp only [netpktCksumTcpSum, Option.bind_eq_bind]
  rw [hseg, Option.bind_some, intAdd_zero (by omega), Option.bind_some, haddrs, Option.bind_some,
    intAdd_zero (by omega), Option.bind_some, intAdd_natCast (by omega), Option.bind_some,
    htonsOfShort_eq, intAdd_natCast (by omega), Option.bind_some, intAdd_natCast (by omega),
    ← Nat.add_assoc, ← Nat.add_assoc]

/-- The sum over a UDP packet has a result where it stays an int. -/
theorem netpktCksumUdpSum_eq {udp : Int} (h : netpktCksumSum mem ip udp < 2 ^ 31) :
    netpktCksumUdpSum mem ip udp = some (netpktCksumSum mem ip udp : Int) := by
  rw [netpktCksumSum_segment] at h ⊢
  have hseg := netpktCksumInInt_eq (readAt mem udp (segmentLen mem ip).toNat) (by omega)
  have haddrs := netpktCksumInInt_eq (readAt mem (ip + 12) 8) (by omega)
  simp only [netpktCksumUdpSum, Option.bind_eq_bind]
  rw [hseg, Option.bind_some, intAdd_zero (by omega), Option.bind_some, haddrs, Option.bind_some,
    intAdd_natCast (by omega), Option.bind_some, intAdd_natCast (by omega), Option.bind_some,
    htonsOfShort_eq, intAdd_natCast (by omega)]

end

/-- The checksums in `int`s are those of natural numbers. -/
theorem netpktCksumTcpInt_eq {pkt : NetpktMem} {ip tcp : Int} (hip : pkt.pktIp = some ip)
    (htcp : pkt.pktTcp = some tcp)
    (hhi : segmentLen (put16 pkt.mem (tcpCheckAt tcp) 0) ip ≤ 65515) :
    netpktCksumTcpInt pkt = some (netpktCksumTcp pkt : Int) := by
  have hlt := netpktCksumSum_lt_int tcp hhi
  simp only [netpktCksumTcpInt, netpktCksumTcp, hip, htcp]
  rw [netpktCksumTcpSum_eq hlt, Option.bind_some, netpktCksumInFinalInt_eq hlt]

/-- The checksum of a segment within the bound is computed with no overflow. -/
theorem netpktCksumUdpInt_eq {pkt : NetpktMem} {ip udp : Int} (hip : pkt.pktIp = some ip)
    (hudp : pkt.pktUdp = some udp)
    (hhi : segmentLen (put16 pkt.mem (udpCheckAt udp) 0) ip ≤ 65515) :
    netpktCksumUdpInt pkt = some (netpktCksumUdp pkt : Int) := by
  have hlt := netpktCksumSum_lt_int udp hhi
  simp only [netpktCksumUdpInt, netpktCksumUdp, hip, hudp]
  rw [netpktCksumUdpSum_eq hlt, Option.bind_some, netpktCksumInFinalInt_eq hlt]

/-! ## The order of bytes -/

/-- The words in the other order of bytes are 256 times as large, modulo 65535. -/
theorem sum_words16_be (bs : List UInt8) :
    (words16 be16 bs).sum % 65535 = 256 * (words16 le16 bs).sum % 65535 ∧
      ((words16 be16 bs).sum = 0 ↔ (words16 le16 bs).sum = 0) := by
  have hword : ∀ b0 b1, be16 b0 b1 % 65535 = 256 * le16 b0 b1 % 65535 ∧
      (be16 b0 b1 = 0 ↔ le16 b0 b1 = 0) := by
    intro b0 b1
    unfold be16 le16
    omega
  induction bs using netpktCksumIn.induct with
  | case1 b0 b1 rest ih =>
      obtain ⟨hmod, hzero⟩ := hword b0 b1
      rw [words16, words16, List.sum_cons, List.sum_cons, Nat.mul_add, Nat.add_eq_zero_iff,
        Nat.add_eq_zero_iff, hzero, ih.2]
      exact ⟨Nat.ModEq.add hmod ih.1, Iff.rfl⟩
  | case2 b =>
      have hlast := hword b 0
      simp only [words16, List.sum_singleton]
      exact hlast
  | case3 => exact ⟨rfl, Iff.rfl⟩

/-- To let two bytes change places is to multiply by 256. -/
theorem htons_mod {r : Nat} (hr : r ≤ 65535) : htons r % 65535 = 256 * r % 65535 := by
  have hsplit : 256 * r = htons r + 65535 * (r / 256) := by
    unfold htons
    omega
  rw [hsplit, Nat.add_mul_mod_self_left]

/-- The bytes of a complement are the complements of the bytes. -/
theorem htons_sub {r : Nat} (hr : r ≤ 65535) : htons (65535 - r) = 65535 - htons r := by
  have hhigh : (65535 - r) / 256 = 255 - r / 256 := by omega
  have hlow : (65535 - r) % 256 = 255 - r % 256 := by omega
  unfold htons
  rw [hhigh, hlow]
  omega

theorem htons_eq_zero {r : Nat} (hr : r ≤ 65535) : htons r = 0 ↔ r = 0 := by
  unfold htons
  omega

/-- So it does not matter in which order the bytes of the words are taken: a checksum that is stored as
it is has the bytes that the network expects. -/
theorem htons_cksum (bs : List UInt8) :
    htons (65535 - onesSum 65535 (words16 le16 bs)) = 65535 - onesSum 65535 (words16 be16 bs) := by
  have hle := onesRep_le (m := 65535) (by omega) (words16 le16 bs).sum
  obtain ⟨hmod, hzero⟩ := sum_words16_be bs
  have hrep := onesRep_mod 65535 (words16 le16 bs).sum
  have hswap : htons (onesRep 65535 (words16 le16 bs).sum) = onesRep 65535 (words16 be16 bs).sum := by
    refine eq_onesRep (Nat.le_of_lt_succ (htons_lt _)) ?_ ?_
    · rw [htons_mod hle, hmod]
      exact Nat.ModEq.mul_left 256 hrep
    · -- 0 and 65535 are one number modulo 65535, but only a sum of zeros has 0
      rw [htons_eq_zero hle, hzero]
      exact onesRep_eq_zero
  rw [onesSum_eq (by omega) (words16_le le16_le bs), onesSum_eq (by omega) (words16_le be16_le bs),
    htons_sub hle, hswap]

/-! ## The checksum of a segment -/

/-- For any segment of up to 65515 bytes, the sums of `netpkt_cksum_tcp` and `netpkt_cksum_udp` are
below `2 ^ 31`, and `netpkt_cksum_in_final` makes the complement of the one's complement sum of all
words out of them, in the order of the machine and, by the bytes that are stored, in that of the
network. -/
theorem netpktCksum_exact (mem : Int → UInt8) (ip hdr : Int) (hlo : 0 ≤ segmentLen mem ip)
    (hhi : segmentLen mem ip ≤ 65515) :
    ∃ n c : Nat, n < 2 ^ 31 ∧ netpktCksumTcpSum mem ip hdr = some (n : Int) ∧
      netpktCksumUdpSum mem ip hdr = some (n : Int) ∧ netpktCksumInFinalInt n = some (c : Int) ∧
      c = 65535 - onesSum 65535 (words16 le16 (segmentBytes mem ip hdr)) ∧
      htons c = 65535 - onesSum 65535 (words16 be16 (segmentBytes mem ip hdr)) := by
  have hlt := netpktCksumSum_lt_int hdr hhi
  have hfinal : netpktCksumInFinal (netpktCksumSum mem ip hdr) =
      65535 - onesSum 65535 (words16 le16 (segmentBytes mem ip hdr)) := by
    rw [netpktCksumInFinal_eq (by omega), onesSum_eq (by omega) (words16_le le16_le _),
      sum_segmentBytes hdr hlo]
  refine ⟨_, _, hlt, netpktCksumTcpSum_eq hlt, netpktCksumUdpSum_eq hlt, netpktCksumInFinalInt_eq hlt,
    hfinal, ?_⟩
  rw [hfinal]
  exact htons_cksum _

/-- An IP header, and three bytes behind it. -/
def oddSegment : Int → UInt8 := fun a =>
  [69, 0, 0, 23, 0, 0, 0, 0, 64, 17, 0, 0, 10, 0, 0, 1, 10, 0, 0, 2, 255, 255, 200].getD a.toNat 0

theorem netpktCksum_exact_odd :
    ∃ n c : Nat, n < 2 ^ 31 ∧ netpktCksumTcpSum oddSegment 0 20 = some (n : Int) ∧
      netpktCksumUdpSum oddSegment 0 20 = some (n : Int) ∧ netpktCksumInFinalInt n = some (c : Int) ∧
      c = 65535 - onesSum 65535 (words16 le16 (segmentBytes oddSegment 0 20)) ∧
      htons c = 65535 - onesSum 65535 (words16 be16 (segmentBytes oddSegment 0 20)) :=
  netpktCksum_exact oddSegment 0 20 (by decide) (by decide)

end Bklib
