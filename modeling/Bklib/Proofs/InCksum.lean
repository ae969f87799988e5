import Bklib.Proofs.NetpktAdjust

/-!
# `Bklib.Proofs.InCksum`: the two checks of an IP header

`in_cksum` sums the header with its checksum in it and `netpkt_cksum_ip` without. Both sums are over
the same other words, and they differ on the checksum that is all ones: `in_cksum` takes it for a
zero, and `netpkt_cksum_ip` never gives it.

* `inCksum_eq_zero_iff`: which checksums `in_cksum` accepts.
* `inCksum_agrees_iff`: the headers on which it agrees with `netpkt_cksum_ip`.
-/

set_option autoImplicit false

namespace Bklib

open Bklib.Lib

variable (mem : Int → UInt8)

/-! ## Sums of words -/

/-- The sum of the `n` words from `a` on. -/
def wordSum (a : Int) (n : Nat) : Nat := ((List.range n).map fun k : Nat => get16 mem (a + 2 * k)).sum

/-- A sum is its first word and the rest. -/
theorem wordSum_succ (a : Int) (n : Nat) :
    wordSum mem a (n + 1) = get16 mem a + wordSum mem (a + 2) n := by
  have hshift : ∀ k : Nat, a + 2 * (k + 1 : Nat) = a + 2 + 2 * k := fun k => by omega
  unfold wordSum
  rw [List.range_succ_eq_map, List.map_cons, List.sum_cons, List.map_map]
  simp only [Function.comp_def, Nat.succ_eq_add_one, hshift, Nat.cast_zero, Int.mul_zero,
    Int.add_zero]

/-- A sum can be cut at any word. -/
theorem wordSum_add (a : Int) (n k : Nat) :
    wordSum mem a (n + k) = wordSum mem a n + wordSum mem (a + 2 * n) k := by
  induction n generalizing a with
  | zero => simp [wordSum]
  | succ n ih =>
      have hshift : a + 2 + 2 * (n : Int) = a + 2 * (n + 1 : Nat) := by omega
      rw [Nat.succ_add, wordSum_succ, ih, wordSum_succ, hshift, Nat.add_assoc]

/-- A sum looks at its own words only. -/
theorem wordSum_congr {mem mem' : Int → UInt8} {a : Int} {n : Nat}
    (h : ∀ i, a ≤ i → i < a + 2 * n → mem i = mem' i) : wordSum mem a n = wordSum mem' a n := by
  unfold wordSum
  refine congrArg List.sum (List.map_congr_left fun k hk => ?_)
  have hlt := List.mem_range.mp hk
  rw [get16, get16, h _ (by omega) (by omega), h _ (by omega) (by omega)]

/-- A sum of `n` words is at most `n` times 65535. -/
theorem wordSum_le (a : Int) (n : Nat) : wordSum mem a n ≤ 65535 * n := by
  induction n generalizing a with
  | zero => simp [wordSum]
  | succ n ih =>
      have hword := get16_lt mem a
      have hrest := ih (a + 2)
      rw [wordSum_succ]
      omega

theorem inCksumSum_eq (count : Nat) (sp : Int) (sum : Nat) :
    inCksumSum mem count sp sum = sum + wordSum mem sp count := by
  induction count generalizing sp sum with
  | zero => simp [inCksumSum, wordSum]
  | succ count ih => rw [inCksumSum, ih, wordSum_succ, Nat.add_assoc]

/-- The loop of the checksum over whole words is the sum of the words. -/
theorem netpktCksumIn_even (a : Int) (n : Nat) :
    netpktCksumIn (readAt mem a (n * 2)) = wordSum mem a n := by
  induction n generalizing a with
  | zero => rfl
  | succ n ih =>
      rw [Nat.succ_mul, readAt_succ, readAt_succ, netpktCksumIn, wordSum_succ,
        show a + 1 + 1 = a + 2 by omega, ih]
      rfl

/-! ## Folding -/

/-- The loop folds until the sum is within 16 bits. -/
theorem inCksumFold_eq (n : Nat) : inCksumFold n = onesRep 65535 n := by
  induction n using inCksumFold.induct with
  | case1 n hbig ih =>
      rw [inCksumFold, if_pos hbig, ih, Nat.add_comm]
      exact onesRep_endCarry (by omega) n
  | case2 n hsmall =>
      rw [inCksumFold, if_neg hsmall]
      exact eq_onesRep (by omega) rfl Iff.rfl

/-! ## The two checks -/

/-- The sum of the words of the header that are not the checksum. -/
def ipHdrOthers (ip : Int) : Nat := wordSum mem ip 5 + wordSum mem (ip + 12) (ipHl mem ip * 2 - 6)

variable {mem} {ip : Int}

/-- The sum over the header is that over the other words and the checksum. -/
theorem wordSum_ipHdr (hhl : 5 ≤ ipHl mem ip) :
    wordSum mem ip (ipHl mem ip * 2) = ipHdrOthers mem ip + get16 mem (ip + 10) := by
  have hone : wordSum mem (ip + 10) 1 = get16 mem (ip + 10) := by
    rw [wordSum_succ]
    rfl
  calc wordSum mem ip (ipHl mem ip * 2)
      = wordSum mem ip (5 + (1 + (ipHl mem ip * 2 - 6))) := by congr 1; omega
    _ = wordSum mem ip 5 + (get16 mem (ip + 10) + wordSum mem (ip + 12) (ipHl mem ip * 2 - 6)) := by
      rw [wordSum_add mem ip 5, show ip + 2 * (5 : Nat) = ip + 10 by omega, wordSum_add mem _ 1,
        hone, show ip + 10 + 2 * (1 : Nat) = ip + 12 by omega]
    _ = ipHdrOthers mem ip + get16 mem (ip + 10) := by
      unfold ipHdrOthers
      omega

/-- The other words are still there when the checksum is 0. -/
theorem ipHdrOthers_put16 (v : Nat) : ipHdrOthers (put16 mem (ip + 10) v) ip = ipHdrOthers mem ip := by
  have hhl : ipHl (put16 mem (ip + 10) v) ip = ipHl mem ip := by
    rw [ipHl, put16_of_outside mem v (by omega), ipHl]
  unfold ipHdrOthers
  rw [hhl, wordSum_congr fun i _ _ => put16_of_outside mem v (by omega),
    wordSum_congr fun i _ _ => put16_of_outside mem v (by omega)]

/-- The first word has the length of the header, so the sum is not 0. -/
theorem ipHdrOthers_pos (hhl : 5 ≤ ipHl mem ip) : 0 < ipHdrOthers mem ip := by
  have hfirst : 0 < get16 mem ip := by
    unfold ipHl at hhl
    unfold get16 le16
    omega
  unfold ipHdrOthers
  rw [wordSum_succ]
  omega

/-- `netpkt_cksum_ip` sums the other words. -/
theorem netpktCksumIp_eq {pkt : NetpktMem} (hip : pkt.pktIp = some ip) (hhl : 5 ≤ ipHl pkt.mem ip) :
    netpktCksumIp pkt = 65535 - onesRep 65535 (ipHdrOthers pkt.mem ip) := by
  have hhl' : ipHl (put16 pkt.mem (ip + 10) 0) ip = ipHl pkt.mem ip := by
    rw [ipHl, put16_of_outside pkt.mem 0 (by omega), ipHl]
  have hsum : netpktCksumIn (readAt (put16 pkt.mem (ip + 10) 0) ip (ipHl pkt.mem ip * 4))
      = ipHdrOthers pkt.mem ip := by
    rw [show ipHl pkt.mem ip * 4 = ipHl pkt.mem ip * 2 * 2 by omega, netpktCksumIn_even, ← hhl',
      wordSum_ipHdr (by rw [hhl']; exact hhl), ipHdrOthers_put16, get16_put16 _ _ (by omega),
      Nat.add_zero]
  have hlt : ipHdrOthers pkt.mem ip < 65536 * 65536 := by
    have hhl16 : ipHl pkt.mem ip < 16 := Nat.mod_lt _ (by omega)
    have hhead := wordSum_le pkt.mem ip 5
    have htail := wordSum_le pkt.mem (ip + 12) (ipHl pkt.mem ip * 2 - 6)
    unfold ipHdrOthers
    omega
  simp only [netpktCksumIp, hip]
  rw [hhl', hsum, netpktCksumInFinal_eq hlt]

/-- `in_cksum` sums them with the checksum. -/
theorem inCksum_eq_zero_iff (hhl : 5 ≤ ipHl mem ip) :
    inCksum mem ip = 0 ↔ (onesRep 65535 (ipHdrOthers mem ip) + get16 mem (ip + 10)) % 65535 = 0 := by
  have hpos := ipHdrOthers_pos hhl
  have hle := onesRep_le (m := 65535) (by omega) (ipHdrOthers mem ip + get16 mem (ip + 10))
  have htop : inCksum mem ip = 0 ↔
      onesRep 65535 (ipHdrOthers mem ip + get16 mem (ip + 10)) = 65535 := by
    rw [inCksum, inCksumFold_eq, inCksumSum_eq, Nat.zero_add, wordSum_ipHdr hhl]
    omega
  rw [htop, onesRep_eq_top (by omega), Nat.add_mod (onesRep _ _), onesRep_mod, ← Nat.add_mod]
  exact and_iff_right (by omega)

/-- The checks agree on a header exactly when its checksum is not all ones, or the other words do not
sum up to a multiple of 65535. -/
theorem inCksum_agrees_iff {pkt : NetpktMem} (hip : pkt.pktIp = some ip)
    (hhl : 5 ≤ ipHl pkt.mem ip) :
    (inCksum pkt.mem ip = 0 ↔ get16 pkt.mem (ip + 10) = netpktCksumIp pkt) ↔
      ¬(get16 pkt.mem (ip + 10) = 65535 ∧ ipHdrOthers pkt.mem ip % 65535 = 0) := by
  have hpos := ipHdrOthers_pos hhl
  have hsum := get16_lt pkt.mem (ip + 10)
  have htop : onesRep 65535 (ipHdrOthers pkt.mem ip) = 65535 ↔ ipHdrOthers pkt.mem ip % 65535 = 0 := by
    rw [onesRep_eq_top (by omega)]
    exact and_iff_right (by omega)
  have hrep : onesRep 65535 (ipHdrOthers pkt.mem ip) ≠ 0 := fun h => by
    rw [onesRep_eq_zero] at h
    omega
  have hle := onesRep_le (m := 65535) (by omega) (ipHdrOthers pkt.mem ip)
  rw [inCksum_eq_zero_iff hhl, netpktCksumIp_eq hip hhl, ← htop]
  omega

/-- On a header with the checksum that belongs to it both checks succeed. -/
theorem inCksum_agrees_udpSample :
    inCksum udpSample.mem 0 = 0 ↔ get16 udpSample.mem (0 + 10) = netpktCksumIp udpSample :=
  (inCksum_agrees_iff rfl (by decide)).mpr (by decide)

/-- A header whose checksum is all ones, behind which the words sum up to all ones. -/
def onesSample : NetpktMem :=
  ipPacket [69, 0, 0, 20, 0, 0, 0, 0, 64, 6, 255, 255, 122, 229, 0, 0, 0, 0, 0, 0]

/-- `in_cksum` accepts it and `netpkt_cksum_ip` does not give that checksum. -/
theorem inCksum_onesSample :
    onesSample.pktIp = some 0 ∧ 5 ≤ ipHl onesSample.mem 0 ∧ inCksum onesSample.mem 0 = 0 ∧
      get16 onesSample.mem (0 + 10) ≠ netpktCksumIp onesSample := by
  refine ⟨rfl, by decide, ?_, by decide⟩
  rw [inCksum_eq_zero_iff (by decide)]
  decide

end Bklib
