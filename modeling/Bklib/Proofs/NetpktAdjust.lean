import Bklib.Proofs.NetpktCksum

/-!
# `Bklib.Proofs.NetpktAdjust`: new addresses in a packet with a checksum

`netpkt_adjust_ip_src_dst` brings the new addresses into the stored checksum;
`netpkt_cksum_set` sums the whole segment again. Behind an IP header of five words or more both
find the same sum, so for TCP they store the same bytes. For UDP the two ways differ in how they
write a zero, and before the end of a shorter IP header the fields that are rewritten and the
datagram that is summed overlap.
-/

set_option autoImplicit false

namespace Bklib

open Bklib.Lib

/-! ## Packets -/

/-- A TCP packet as `netpkt_parse_ip` leaves it. -/
structure TcpPacket (pkt : NetpktMem) (ip tcp : Int) : Prop where
  pktIp : pkt.pktIp = some ip
  pktTcp : pkt.pktTcp = some tcp
  pktUdp : pkt.pktUdp = none
  proto : ipP pkt.mem ip = ipprotoTcp
  behind : tcp = ip + ipHl pkt.mem ip * 4

/-- A UDP packet as `netpkt_parse_ip` leaves it. -/
structure UdpPacket (pkt : NetpktMem) (ip udp : Int) : Prop where
  pktIp : pkt.pktIp = some ip
  pktTcp : pkt.pktTcp = none
  pktUdp : pkt.pktUdp = some udp
  proto : ipP pkt.mem ip = ipprotoUdp
  behind : udp = ip + ipHl pkt.mem ip * 4

/-- The parser leaves such a packet when it finds the protocol TCP. -/
theorem netpktParseIp_tcp {pkt : NetpktMem} (hp : ipP pkt.mem pkt.pktMsg = ipprotoTcp)
    (hudp : pkt.pktUdp = none) :
    TcpPacket (netpktParseIp pkt) pkt.pktMsg (pkt.pktMsg + ipHl pkt.mem pkt.pktMsg * 4) := by
  simp only [netpktParseIp, if_pos hp]
  exact ⟨rfl, rfl, hudp, hp, rfl⟩

/-- And such a one when it finds UDP. -/
theorem netpktParseIp_udp {pkt : NetpktMem} (hp : ipP pkt.mem pkt.pktMsg = ipprotoUdp)
    (htcp : pkt.pktTcp = none) :
    UdpPacket (netpktParseIp pkt) pkt.pktMsg (pkt.pktMsg + ipHl pkt.mem pkt.pktMsg * 4) := by
  have hne : ipP pkt.mem pkt.pktMsg ≠ ipprotoTcp := by
    rw [hp]
    decide
  simp only [netpktParseIp, if_neg hne, if_pos hp]
  exact ⟨rfl, htcp, rfl, hp, rfl⟩

/-! ## What the check compares -/

/-- A TCP packet passes exactly when both checksums are the computed ones. -/
theorem netpktCksumCheck_tcp {pkt : NetpktMem} {ip tcp : Int} (h : TcpPacket pkt ip tcp) :
    (netpktCksumCheck pkt).1 = 0 ↔
      get16 pkt.mem (ip + 10) = netpktCksumIp pkt ∧
        get16 pkt.mem (tcpCheckAt tcp) = netpktCksumTcp pkt := by
  simp only [netpktCksumCheck, h.pktIp, h.pktTcp, h.pktUdp, Option.any_some, Option.any_none]
  split_ifs with h1 h2 <;> simp_all

/-- A UDP packet passes exactly when both checksums are the computed ones. -/
theorem netpktCksumCheck_udp {pkt : NetpktMem} {ip udp : Int} (h : UdpPacket pkt ip udp) :
    (netpktCksumCheck pkt).1 = 0 ↔
      get16 pkt.mem (ip + 10) = netpktCksumIp pkt ∧
        get16 pkt.mem (udpCheckAt udp) = netpktCksumUdp pkt := by
  simp only [netpktCksumCheck, h.pktIp, h.pktTcp, h.pktUdp, Option.any_some, Option.any_none]
  split_ifs with h1 h2 <;> simp_all

/-- The IP checksum that was just set is right. -/
theorem netpktSetIpSum_right {pkt : NetpktMem} {ip : Int} (hip : pkt.pktIp = some ip) :
    get16 (netpktSetIpSum pkt ip).mem (ip + 10) = netpktCksumIp (netpktSetIpSum pkt ip) := by
  have hlt : netpktCksumIp pkt < 65536 := by
    simp only [netpktCksumIp, hip]
    exact netpktCksumInFinal_lt _
  have hsame : netpktCksumIp (netpktSetIpSum pkt ip) = netpktCksumIp pkt := by
    simp only [netpktCksumIp, netpktSetIpSum, hip, put16_put16]
  rw [hsame]
  exact get16_put16 pkt.mem (ip + 10) hlt

/-! ## Sums after a write -/

/-- Both memories have the same bytes where the rest of the sum looks. -/
structure SameRest (mem mem' : Int → UInt8) (ip hdr : Int) : Prop where
  field : ∀ i, i = ip ∨ i = ip + 2 ∨ i = ip + 3 ∨ i = ip + 9 → mem' i = mem i
  seg : ∀ i, hdr ≤ i → mem' i = mem i

theorem SameRest.ipHl {mem mem' : Int → UInt8} {ip hdr : Int} (h : SameRest mem mem' ip hdr) :
    ipHl mem' ip = ipHl mem ip := by
  rw [Bklib.ipHl, h.field ip (by omega), Bklib.ipHl]

theorem SameRest.ipP {mem mem' : Int → UInt8} {ip hdr : Int} (h : SameRest mem mem' ip hdr) :
    ipP mem' ip = ipP mem ip := by
  rw [Bklib.ipP, h.field (ip + 9) (by omega), Bklib.ipP]

theorem SameRest.ipLen {mem mem' : Int → UInt8} {ip hdr : Int} (h : SameRest mem mem' ip hdr) :
    ipLen mem' ip = ipLen mem ip := by
  rw [Bklib.ipLen, Bklib.ipLen, get16, get16, h.field (ip + 2) (by omega), Int.add_assoc,
    h.field (ip + (2 + 1)) (by omega)]

theorem SameRest.rest {mem mem' : Int → UInt8} {ip hdr : Int} (h : SameRest mem mem' ip hdr) :
    netpktCksumRest mem' ip hdr = netpktCksumRest mem ip hdr := by
  simp only [netpktCksumRest, h.ipHl, h.ipP, h.ipLen]
  rw [readAt_congr fun i _ => h.seg (hdr + i) (by omega)]

section Addrs

variable (pkt : NetpktMem) (ip : Int) (src dst : UInt32)

theorem netpktSetIpSrcDst_outside {i : Int} (h : i < ip + 12 ∨ ip + 20 ≤ i) :
    (netpktSetIpSrcDst pkt ip src dst).mem i = pkt.mem i := by
  show put32 (put32 pkt.mem (ip + 12) src) (ip + 16) dst i = pkt.mem i
  rw [put32_of_outside _ dst (by omega), put32_of_outside _ src (by omega)]

theorem get32_src_netpktSetIpSrcDst :
    get32 (netpktSetIpSrcDst pkt ip src dst).mem (ip + 12) = src := by
  show get32 (put32 (put32 pkt.mem (ip + 12) src) (ip + 16) dst) (ip + 12) = src
  rw [get32, get16_put32_of_disjoint _ dst (by omega), get16_put32_of_disjoint _ dst (by omega),
    ← get32, get32_put32]

theorem get32_dst_netpktSetIpSrcDst :
    get32 (netpktSetIpSrcDst pkt ip src dst).mem (ip + 16) = dst := get32_put32 _ _ _

/-- A checksum outside the addresses may be stored before or after them. -/
theorem put16_netpktSetIpSrcDst {ck : Int} (v : Nat) (h : ck + 2 ≤ ip + 12 ∨ ip + 20 ≤ ck) :
    put16 (netpktSetIpSrcDst pkt ip src dst).mem ck v =
      (netpktSetIpSrcDst { pkt with mem := put16 pkt.mem ck v } ip src dst).mem := by
  show put16 (put32 (put32 pkt.mem (ip + 12) src) (ip + 16) dst) ck v =
    put32 (put32 (put16 pkt.mem ck v) (ip + 12) src) (ip + 16) dst
  simp only [put16, put32]
  rw [writeAt_comm _ (bytes32 dst) (bytes16 v) (by simp; omega),
    writeAt_comm _ (bytes32 src) (bytes16 v) (by simp; omega)]

/-- The sum after the addresses were stored: the same rest and the new words. -/
theorem netpktCksumSum_netpktSetIpSrcDst {ck : Int} (hdr : Int)
    (h : ck + 2 ≤ ip + 12 ∨ ip + 20 ≤ ck) :
    netpktCksumSum (put16 (netpktSetIpSrcDst pkt ip src dst).mem ck 0) ip hdr =
      netpktCksumRest (put16 (netpktSetIpSrcDst pkt ip src dst).mem ck 0) ip hdr +
        (halves src + halves dst) := by
  rw [netpktCksumSum_eq, get32_put16_of_disjoint _ _ (by omega),
    get32_put16_of_disjoint _ _ (by omega), get32_src_netpktSetIpSrcDst,
    get32_dst_netpktSetIpSrcDst]

/-- The sum that the incremental update forms out of a sum `n` with the old addresses. -/
def adjustedSum (mem : Int → UInt8) (ip : Int) (src dst : UInt32) (n : Nat) : Nat :=
  n + (131070 - halves (get32 mem (ip + 12))) + halves src +
    (131070 - halves (get32 mem (ip + 16))) + halves dst

/-- What `netpkt_adjust_ip_src_dst` stores in a checksum of the sum `n`. -/
theorem netpktAdjustCheck_eq {ck : Int} {n : Nat} (h : ck + 2 ≤ ip + 16 ∨ ip + 20 ≤ ck)
    (hck : get16 pkt.mem ck = 65535 - onesRep 65535 n) :
    netpktAdjustCheck pkt ip ck src dst =
      { pkt with
        mem := put16 pkt.mem ck
          (if onesRep 65535 (adjustedSum pkt.mem ip src dst n) = 65535 ∧ pkt.pktUdp.isSome then 65535
            else 65535 - onesRep 65535 (adjustedSum pkt.mem ip src dst n)) } := by
  have hle := onesRep_le (m := 65535) (by omega) (adjustedSum pkt.mem ip src dst n)
  have hget : ∀ m : Nat, get16 (put16 pkt.mem ck (65535 - m)) ck = 65535 - m :=
    fun m => get16_put16 pkt.mem ck (by omega)
  have hdst : ∀ v : Nat, get32 (put16 pkt.mem ck v) (ip + 16) = get32 pkt.mem (ip + 16) :=
    fun v => get32_put16_of_disjoint pkt.mem v (by omega)
  have hzero : 65535 - onesRep 65535 (adjustedSum pkt.mem ip src dst n) = 0 ↔
      onesRep 65535 (adjustedSum pkt.mem ip src dst n) = 65535 := by omega
  simp only [netpktAdjustCheck, hck, netpktAdjustCksum_onesRep, hget, hdst, put16_put16]
  rw [← adjustedSum]
  simp only [hzero]
  split_ifs <;> rfl

/-- Behind the fixed part of the IP header, the addresses are in the pseudo header only. -/
theorem sameRest_netpktSetIpSrcDst {hdr ck : Int} (hhdr : ip + 20 ≤ hdr) (hck : hdr ≤ ck) :
    SameRest (put16 pkt.mem ck 0) (put16 (netpktSetIpSrcDst pkt ip src dst).mem ck 0) ip hdr := by
  rw [put16_netpktSetIpSrcDst _ _ _ _ _ (by omega)]
  constructor
  · intro i hi
    exact netpktSetIpSrcDst_outside _ ip src dst (by omega)
  · intro i hi
    exact netpktSetIpSrcDst_outside _ ip src dst (by omega)

/-- Behind the fixed part of the IP header, the incremental sum and the full one are the same
number in one's complement. -/
theorem onesRep_adjustedSum {hdr ck : Int} (hhdr : ip + 20 ≤ hdr) (hck : hdr ≤ ck)
    (hp : 0 < ipP pkt.mem ip) :
    onesRep 65535 (adjustedSum pkt.mem ip src dst (netpktCksumSum (put16 pkt.mem ck 0) ip hdr)) =
      onesRep 65535
        (netpktCksumSum (put16 (netpktSetIpSrcDst pkt ip src dst).mem ck 0) ip hdr) := by
  have hsame := sameRest_netpktSetIpSrcDst pkt ip src dst hhdr hck
  have hp0 : ipP (put16 pkt.mem ck 0) ip = ipP pkt.mem ip := by
    rw [ipP, put16_of_outside _ _ (by omega), ipP]
  have hnew := netpktCksumSum_pos _ ip hdr (hsame.ipP ▸ hp0 ▸ hp)
  have hsrc := halves_le (get32 pkt.mem (ip + 12))
  have hdst := halves_le (get32 pkt.mem (ip + 16))
  have hold : netpktCksumSum (put16 pkt.mem ck 0) ip hdr =
      netpktCksumRest (put16 pkt.mem ck 0) ip hdr +
        (halves (get32 pkt.mem (ip + 12)) + halves (get32 pkt.mem (ip + 16))) := by
    rw [netpktCksumSum_eq, get32_put16_of_disjoint _ _ (by omega),
      get32_put16_of_disjoint _ _ (by omega)]
  rw [netpktCksumSum_netpktSetIpSrcDst _ _ _ _ _ (by omega), hsame.rest] at hnew ⊢
  have hadj : adjustedSum pkt.mem ip src dst (netpktCksumSum (put16 pkt.mem ck 0) ip hdr) =
      netpktCksumRest (put16 pkt.mem ck 0) ip hdr + (halves src + halves dst) + 65535 * 4 := by
    rw [hold, adjustedSum]
    omega
  rw [hadj]
  exact onesRep_congr (by omega) (Nat.add_mul_mod_self_left _ _ _) (by omega)

end Addrs

/-- Writing the IP checksum changes no sum of a segment behind it. -/
theorem netpktCksumSum_put16_ipSum (mem : Int → UInt8) {ip hdr : Int} (v : Nat)
    (hhdr : ip + 12 ≤ hdr) :
    netpktCksumSum (put16 mem (ip + 10) v) ip hdr = netpktCksumSum mem ip hdr := by
  have hsame : SameRest mem (put16 mem (ip + 10) v) ip hdr :=
    ⟨fun i hi => put16_of_outside mem v (by omega), fun i hi => put16_of_outside mem v (by omega)⟩
  rw [netpktCksumSum_eq, netpktCksumSum_eq, hsame.rest, get32_put16_of_disjoint mem v (by omega),
    get32_put16_of_disjoint mem v (by omega)]

theorem ipHl_put16 (mem : Int → UInt8) {ip a : Int} (v : Nat) (h : ip < a) :
    ipHl (put16 mem a v) ip = ipHl mem ip := by
  rw [ipHl, put16_of_outside mem v (by omega), ipHl]

theorem ipP_put16 (mem : Int → UInt8) {ip a : Int} (v : Nat) (h : ip + 9 < a ∨ a + 2 ≤ ip + 9) :
    ipP (put16 mem a v) ip = ipP mem ip := by
  rw [ipP, put16_of_outside mem v (by omega), ipP]

/-- The checksums that were stored are not in the sum of the segment. -/
theorem netpktCksumSum_stored (mem : Int → UInt8) {ip hdr ck : Int} (v w : Nat)
    (hhdr : ip + 12 ≤ hdr) (hck : ip + 12 ≤ ck) :
    netpktCksumSum (put16 (put16 (put16 mem ck v) (ip + 10) w) ck 0) ip hdr =
      netpktCksumSum (put16 mem ck 0) ip hdr := by
  have hzero : put16 (put16 (put16 mem ck v) (ip + 10) w) ck 0 =
      put16 (put16 mem ck 0) (ip + 10) w := by
    have hcomm := writeAt_comm (put16 mem ck v) (bytes16 w) (bytes16 0)
      (show ip + 10 + (bytes16 w).length ≤ ck ∨ _ from Or.inl (by simp; omega))
    rw [put16, put16, hcomm, ← put16, ← put16, put16_put16]
  rw [hzero, netpktCksumSum_put16_ipSum _ _ hhdr]

theorem ipHl_netpktSetIpSrcDst (pkt : NetpktMem) (ip : Int) (src dst : UInt32) :
    ipHl (netpktSetIpSrcDst pkt ip src dst).mem ip = ipHl pkt.mem ip := by
  rw [ipHl, netpktSetIpSrcDst_outside pkt ip src dst (by omega), ipHl]

theorem ipP_netpktSetIpSrcDst (pkt : NetpktMem) (ip : Int) (src dst : UInt32) :
    ipP (netpktSetIpSrcDst pkt ip src dst).mem ip = ipP pkt.mem ip := by
  rw [ipP, netpktSetIpSrcDst_outside pkt ip src dst (by omega), ipP]

/-! ## TCP -/

theorem netpktCksumTcp_eq {pkt : NetpktMem} {ip tcp : Int} (h : TcpPacket pkt ip tcp) :
    netpktCksumTcp pkt =
      65535 - onesRep 65535 (netpktCksumSum (put16 pkt.mem (tcpCheckAt tcp) 0) ip tcp) := by
  simp only [netpktCksumTcp, h.pktIp, h.pktTcp]
  exact netpktCksumInFinal_eq (netpktCksumSum_lt _ _ _)

/-- New addresses leave a TCP packet one. -/
theorem TcpPacket.setIpSrcDst {pkt : NetpktMem} {ip tcp : Int} (h : TcpPacket pkt ip tcp)
    (src dst : UInt32) : TcpPacket (netpktSetIpSrcDst pkt ip src dst) ip tcp := by
  refine ⟨h.pktIp, h.pktTcp, h.pktUdp, ?_, ?_⟩
  · rw [ipP_netpktSetIpSrcDst]
    exact h.proto
  · rw [ipHl_netpktSetIpSrcDst]
    exact h.behind

/-- `netpkt_cksum_set` gives a TCP packet checksums that `netpkt_cksum_check` accepts. -/
theorem netpktCksumCheck_cksumSet_tcp {pkt : NetpktMem} {ip tcp : Int} (h : TcpPacket pkt ip tcp)
    (hhl : 5 ≤ ipHl pkt.mem ip) : (netpktCksumCheck (netpktCksumSet pkt)).1 = 0 := by
  have htcp : ip + 20 ≤ tcp := by
    have hb := h.behind
    omega
  have hck : ip + 36 ≤ tcpCheckAt tcp := by
    unfold tcpCheckAt
    omega
  have hset : netpktCksumSet pkt = netpktSetIpSum
      { pkt with mem := put16 pkt.mem (tcpCheckAt tcp) (netpktCksumTcp pkt) } ip := by
    simp only [netpktCksumSet, h.pktIp, h.pktTcp]
  rw [hset]
  generalize hv : netpktCksumTcp pkt = v
  have hlt : v < 65536 := by
    rw [← hv, netpktCksumTcp_eq h]
    omega
  generalize hw : netpktCksumIp { pkt with mem := put16 pkt.mem (tcpCheckAt tcp) v } = w
  have hpkt : TcpPacket (netpktSetIpSum { pkt with mem := put16 pkt.mem (tcpCheckAt tcp) v } ip)
      ip tcp := by
    refine ⟨h.pktIp, h.pktTcp, h.pktUdp, ?_, ?_⟩
    · simp only [netpktSetIpSum]
      rw [ipP_put16 _ _ (by omega), ipP_put16 _ _ (by omega)]
      exact h.proto
    · simp only [netpktSetIpSum]
      rw [ipHl_put16 _ _ (by omega), ipHl_put16 _ _ (by omega)]
      exact h.behind
  refine (netpktCksumCheck_tcp hpkt).mpr ⟨netpktSetIpSum_right h.pktIp, ?_⟩
  rw [netpktCksumTcp_eq hpkt]
  simp only [netpktSetIpSum, hw]
  rw [netpktCksumSum_stored _ _ _ (by omega) (by omega), ← netpktCksumTcp_eq h, hv,
    get16_put16_of_disjoint _ _ (by omega), get16_put16 _ _ hlt]

/-- The addresses and the two checksums are all that `netpkt_cksum_set` changes when the addresses
were stored. -/
theorem netpktCksumSet_outside {pkt : NetpktMem} {ip tcp : Int} (h : TcpPacket pkt ip tcp)
    (src dst : UInt32) {i : Int} (haddr : i < ip + 12 ∨ ip + 20 ≤ i)
    (hsum : i < ip + 10 ∨ ip + 12 ≤ i) (hck : i < tcpCheckAt tcp ∨ tcpCheckAt tcp + 2 ≤ i) :
    (netpktCksumSet (netpktSetIpSrcDst pkt ip src dst)).mem i = pkt.mem i := by
  simp only [netpktCksumSet, (h.setIpSrcDst src dst).pktIp, (h.setIpSrcDst src dst).pktTcp,
    netpktSetIpSum]
  rw [put16_of_outside _ _ (by omega), put16_of_outside _ _ (by omega),
    netpktSetIpSrcDst_outside pkt ip src dst haddr]

/-- The incremental update of a right TCP checksum gives the bytes that summing the segment again
gives; the packet is accepted, and nothing but the addresses and the checksums has changed. -/
theorem netpktAdjustIpSrcDst_tcp {pkt : NetpktMem} {ip tcp : Int} (h : TcpPacket pkt ip tcp)
    (hhl : 5 ≤ ipHl pkt.mem ip) (hck : get16 pkt.mem (tcpCheckAt tcp) = netpktCksumTcp pkt)
    (src dst : UInt32) :
    netpktAdjustIpSrcDst pkt src dst = netpktCksumSet (netpktSetIpSrcDst pkt ip src dst) ∧
      (netpktCksumCheck (netpktAdjustIpSrcDst pkt src dst)).1 = 0 ∧
      ∀ i, (i < ip + 12 ∨ ip + 20 ≤ i) → (i < ip + 10 ∨ ip + 12 ≤ i) →
        (i < tcpCheckAt tcp ∨ tcpCheckAt tcp + 2 ≤ i) →
        (netpktAdjustIpSrcDst pkt src dst).mem i = pkt.mem i := by
  have htcp : ip + 20 ≤ tcp := by
    have hb := h.behind
    omega
  have hle : tcp ≤ tcpCheckAt tcp := by
    unfold tcpCheckAt
    omega
  have hp : 0 < ipP pkt.mem ip := by
    rw [h.proto]
    decide
  have hset := h.setIpSrcDst src dst
  have heq : netpktAdjustIpSrcDst pkt src dst =
      netpktCksumSet (netpktSetIpSrcDst pkt ip src dst) := by
    rw [netpktCksumTcp_eq h] at hck
    simp only [netpktAdjustIpSrcDst, netpktCksumSet, h.pktIp, h.pktTcp, hset.pktIp, hset.pktTcp]
    rw [netpktAdjustCheck_eq pkt ip src dst (by omega) hck, netpktCksumTcp_eq hset,
      onesRep_adjustedSum pkt ip src dst htcp hle hp]
    simp only [h.pktUdp, Option.isSome_none, Bool.false_eq_true, and_false, if_false]
    -- both sides store one value, before the addresses are set or after
    generalize 65535 - onesRep 65535
      (netpktCksumSum (put16 (netpktSetIpSrcDst pkt ip src dst).mem (tcpCheckAt tcp) 0) ip tcp) = v
    rw [put16_netpktSetIpSrcDst pkt ip src dst v (by omega)]
    simp only [netpktSetIpSrcDst, h.pktIp, h.pktTcp, h.pktUdp]
  rw [heq]
  refine ⟨rfl, netpktCksumCheck_cksumSet_tcp hset ?_, fun i haddr hsum hcki => ?_⟩
  · rw [ipHl_netpktSetIpSrcDst]
    exact hhl
  · exact netpktCksumSet_outside h src dst haddr hsum hcki

/-- A packet that starts with its IP header. -/
def ipPacket (bs : List UInt8) : NetpktMem :=
  netpktParseIp (netpktInit (fun i => if 0 ≤ i then bs.getD i.toNat 0 else 0) 0 bs.length)

/-- A TCP packet of two headers. -/
def tcpSample : NetpktMem := ipPacket
  [69, 0, 0, 40, 0, 1, 0, 0, 64, 6, 102, 73, 10, 0, 0, 1, 10, 0, 0, 134,
   0, 22, 4, 157, 0, 0, 0, 1, 0, 0, 0, 2, 80, 24, 0, 80, 150, 64, 0, 0]

/-- A packet whose addresses change and whose checksum is still right. -/
theorem netpktAdjustIpSrcDst_tcp_sample :
    TcpPacket tcpSample 0 20 ∧ 5 ≤ ipHl tcpSample.mem 0 ∧
      get16 tcpSample.mem (tcpCheckAt 20) = netpktCksumTcp tcpSample ∧
      (netpktCksumCheck (netpktAdjustIpSrcDst tcpSample 0x04030201 0x08070605)).1 = 0 := by
  have hpkt : TcpPacket tcpSample 0 20 := by
    unfold tcpSample ipPacket
    exact netpktParseIp_tcp rfl rfl
  have hhl : 5 ≤ ipHl tcpSample.mem 0 := by decide
  have hck : get16 tcpSample.mem (tcpCheckAt 20) = netpktCksumTcp tcpSample := by decide
  exact ⟨hpkt, hhl, hck, (netpktAdjustIpSrcDst_tcp hpkt hhl hck _ _).2.1⟩

/-! ## UDP -/

theorem netpktCksumUdp_eq {pkt : NetpktMem} {ip udp : Int} (h : UdpPacket pkt ip udp) :
    netpktCksumUdp pkt =
      65535 - onesRep 65535 (netpktCksumSum (put16 pkt.mem (udpCheckAt udp) 0) ip udp) := by
  simp only [netpktCksumUdp, h.pktIp, h.pktUdp]
  exact netpktCksumInFinal_eq (netpktCksumSum_lt _ _ _)

/-- Storing the addresses leaves each byte as it was or makes it a byte of theirs. -/
theorem netpktSetIpSrcDst_congr {pkt pkt' : NetpktMem} (ip : Int) (src dst : UInt32) {i : Int}
    (h : pkt.mem i = pkt'.mem i) :
    (netpktSetIpSrcDst pkt ip src dst).mem i = (netpktSetIpSrcDst pkt' ip src dst).mem i := by
  simp only [netpktSetIpSrcDst, put32, writeAt, h]

section Udp

variable {pkt : NetpktMem} {ip udp : Int} (src dst : UInt32)

/-- The sum that `netpkt_cksum_udp` finishes for a packet. -/
def udpSum (pkt : NetpktMem) (ip udp : Int) : Nat :=
  netpktCksumSum (put16 pkt.mem (udpCheckAt udp) 0) ip udp

/-- When a datagram with a right checksum still has one after the addresses were rewritten, in terms
of the sums of the datagram with the old and with the new addresses. The new sum is the one that the
incremental update forms, and it is no multiple of 65535, whose checksum is a zero. In an IP
header of one to three words the two bytes of the checksum are the IP checksum, or the upper word of
an address. -/
def UdpSumKept (pkt : NetpktMem) (ip udp : Int) (src dst : UInt32) : Prop :=
  let old := udpSum pkt ip udp
  let new := udpSum (netpktSetIpSrcDst pkt ip src dst) ip udp
  match ipHl pkt.mem ip with
  | 1 => new % 65535 = old % 65535
  | 2 => src.toNat / 65536 + onesRep 65535 new = 65535
  | 3 => dst.toNat / 65536 + onesRep 65535 new = 65535
  | _ => new % 65535 = adjustedSum pkt.mem ip src dst old % 65535 ∧ new % 65535 ≠ 0

theorem UdpPacket.pos (h : UdpPacket pkt ip udp) : 0 < ipP pkt.mem ip := by
  rw [h.proto]
  decide

theorem UdpPacket.check_at (h : UdpPacket pkt ip udp) :
    udpCheckAt udp = ip + ipHl pkt.mem ip * 4 + 6 := by
  rw [udpCheckAt, ← h.behind]

theorem UdpPacket.udpSum_pos (h : UdpPacket pkt ip udp) : 0 < udpSum pkt ip udp := by
  have hck := h.check_at
  apply netpktCksumSum_pos
  rw [ipP_put16 _ _ (by omega)]
  exact h.pos

/-- A word put anywhere but over the header length and the protocol leaves a UDP packet. -/
theorem UdpPacket.put16 (h : UdpPacket pkt ip udp) {a : Int} (v : Nat) (ha : ip < a)
    (hp : ip + 9 < a ∨ a + 2 ≤ ip + 9) :
    UdpPacket { pkt with mem := put16 pkt.mem a v } ip udp := by
  refine ⟨h.pktIp, h.pktTcp, h.pktUdp, ?_, ?_⟩
  · rw [ipP_put16 _ _ hp]
    exact h.proto
  · rw [ipHl_put16 _ _ ha]
    exact h.behind

/-- New addresses leave a UDP packet one. -/
theorem UdpPacket.setIpSrcDst (h : UdpPacket pkt ip udp) :
    UdpPacket (netpktSetIpSrcDst pkt ip src dst) ip udp := by
  refine ⟨h.pktIp, h.pktTcp, h.pktUdp, ?_, ?_⟩
  · rw [ipP_netpktSetIpSrcDst]
    exact h.proto
  · rw [ipHl_netpktSetIpSrcDst]
    exact h.behind

/-- The update stores some word in the checksum, and no other byte. -/
theorem netpktAdjustCheck_put16 (ck : Int) :
    ∃ c, netpktAdjustCheck pkt ip ck src dst = { pkt with mem := put16 pkt.mem ck c } := by
  simp only [netpktAdjustCheck, put16_put16]
  split_ifs
  · exact ⟨_, rfl⟩
  · exact ⟨_, rfl⟩

/-- The packet with the word `c` in its UDP checksum and new addresses, IP checksum included. -/
def udpRewritten (pkt : NetpktMem) (ip udp : Int) (src dst : UInt32) (c : Nat) : NetpktMem :=
  netpktSetIpSum
    (netpktSetIpSrcDst { pkt with mem := put16 pkt.mem (udpCheckAt udp) c } ip src dst) ip

/-- What changes in a UDP packet: the addresses, the header's checksum and the packet's. -/
theorem netpktAdjustIpSrcDst_udp (h : UdpPacket pkt ip udp) {c : Nat}
    (hc : netpktAdjustCheck pkt ip (udpCheckAt udp) src dst =
      { pkt with mem := put16 pkt.mem (udpCheckAt udp) c }) :
    netpktAdjustIpSrcDst pkt src dst = udpRewritten pkt ip udp src dst c := by
  simp only [netpktAdjustIpSrcDst, h.pktIp, h.pktTcp, h.pktUdp, hc]
  simp only [udpRewritten, h.pktIp, h.pktTcp, h.pktUdp]

theorem UdpPacket.rewritten (h : UdpPacket pkt ip udp) (c : Nat) :
    UdpPacket (udpRewritten pkt ip udp src dst c) ip udp := by
  have hck := h.check_at
  have hput := (h.put16 c (a := udpCheckAt udp) (by omega) (by omega)).setIpSrcDst src dst
  exact hput.put16 _ (by omega) (by omega)

/-- With the checksum out, it does not matter what it was when the addresses were stored. -/
theorem put16_zero_setIpSrcDst (ck : Int) (c : Nat) :
    put16 (netpktSetIpSrcDst { pkt with mem := put16 pkt.mem ck c } ip src dst).mem ck 0 =
      put16 (netpktSetIpSrcDst pkt ip src dst).mem ck 0 :=
  put16_congr 0 fun _ hi => netpktSetIpSrcDst_congr ip src dst (put16_of_outside pkt.mem c hi)

/-- An IP header too short for the addresses keeps its checksum. -/
theorem netpktCksumIp_rewritten (h : UdpPacket pkt ip udp) (c : Nat) (hhl : ipHl pkt.mem ip ≤ 3) :
    netpktCksumIp
        (netpktSetIpSrcDst { pkt with mem := put16 pkt.mem (udpCheckAt udp) c } ip src dst) =
      netpktCksumIp pkt := by
  have hck := h.check_at
  let pkt' := netpktSetIpSrcDst { pkt with mem := put16 pkt.mem (udpCheckAt udp) c } ip src dst
  have hmem : ∀ i, i < udpCheckAt udp → i < ip + 12 →
      put16 pkt'.mem (ip + 10) 0 i = put16 pkt.mem (ip + 10) 0 i := by
    intro i hi hi'
    apply put16_congr_at
    show (netpktSetIpSrcDst _ ip src dst).mem i = pkt.mem i
    rw [netpktSetIpSrcDst_outside _ ip src dst (by omega)]
    exact put16_of_outside pkt.mem c (by omega)
  have hhl' : ipHl (put16 pkt'.mem (ip + 10) 0) ip = ipHl pkt.mem ip := by
    rw [ipHl, hmem ip (by omega) (by omega), ← ipHl, ipHl_put16 _ _ (by omega)]
  show netpktCksumIp pkt' = netpktCksumIp pkt
  have hip' : pkt'.pktIp = some ip := h.pktIp
  simp only [netpktCksumIp, hip', h.pktIp, hhl', ipHl_put16 pkt.mem 0 (show ip < ip + 10 by omega)]
  rw [readAt_congr fun i hi => hmem (ip + i) (by omega) (by omega)]

/-- The sum that the check forms afterwards is the one with the addresses stored and nothing else
changed: the IP checksum is out of it, or it has not changed either. -/
theorem udpSum_rewritten (h : UdpPacket pkt ip udp) (c : Nat)
    (hsum : get16 pkt.mem (ip + 10) = netpktCksumIp pkt) :
    udpSum (udpRewritten pkt ip udp src dst c) ip udp =
      udpSum (netpktSetIpSrcDst pkt ip src dst) ip udp := by
  have hck := h.check_at
  have hb := h.behind
  simp only [udpSum, udpRewritten, netpktSetIpSum]
  generalize hw : netpktCksumIp
    (netpktSetIpSrcDst { pkt with mem := put16 pkt.mem (udpCheckAt udp) c } ip src dst) = w
  cases Nat.lt_or_ge 3 (ipHl pkt.mem ip) with
  | inl hhl =>
      -- The datagram starts behind the IP checksum.
      have hcomm := writeAt_comm
        (netpktSetIpSrcDst { pkt with mem := put16 pkt.mem (udpCheckAt udp) c } ip src dst).mem
        (bytes16 w) (bytes16 0)
        (show ip + 10 + (bytes16 w).length ≤ udpCheckAt udp ∨ _ from Or.inl (by simp; omega))
      rw [put16, put16, hcomm, ← put16, ← put16, netpktCksumSum_put16_ipSum _ _ (by omega),
        put16_zero_setIpSrcDst]
  | inr hhl =>
      rw [netpktCksumIp_rewritten src dst h c hhl, ← hsum] at hw
      rw [← put16_zero_setIpSrcDst src dst (udpCheckAt udp) c, ← hw]
      congr 1
      apply put16_congr
      intro i hi
      by_cases hi' : i < ip + 10 ∨ ip + 10 + 2 ≤ i
      · exact put16_of_outside _ _ hi'
      · have hmem : (netpktSetIpSrcDst { pkt with mem := put16 pkt.mem (udpCheckAt udp) c }
            ip src dst).mem i = pkt.mem i := by
          rw [netpktSetIpSrcDst_outside _ ip src dst (by omega)]
          exact put16_of_outside pkt.mem c hi
        rw [put16_congr_at _ hmem, put16_get16, hmem]

/-- What the packet has in its checksum afterwards decides. -/
theorem netpktCksumCheck_rewritten (h : UdpPacket pkt ip udp) (c : Nat)
    (hsum : get16 pkt.mem (ip + 10) = netpktCksumIp pkt) :
    (netpktCksumCheck (udpRewritten pkt ip udp src dst c)).1 = 0 ↔
      get16 (udpRewritten pkt ip udp src dst c).mem (udpCheckAt udp) =
        65535 - onesRep 65535 (udpSum (netpktSetIpSrcDst pkt ip src dst) ip udp) := by
  have hright : get16 (udpRewritten pkt ip udp src dst c).mem (ip + 10) =
      netpktCksumIp (udpRewritten pkt ip udp src dst c) := netpktSetIpSum_right h.pktIp
  have hnew := h.rewritten src dst c
  rw [netpktCksumCheck_udp hnew, netpktCksumUdp_eq hnew, ← udpSum,
    udpSum_rewritten src dst h c hsum]
  exact and_iff_right hright

/-- A checksum that is in none of the fields rewritten after it keeps the word stored. -/
theorem get16_rewritten {c : Nat} (hc : c < 65536)
    (hout : udpCheckAt udp + 2 ≤ ip + 10 ∨ ip + 20 ≤ udpCheckAt udp) :
    get16 (udpRewritten pkt ip udp src dst c).mem (udpCheckAt udp) = c := by
  simp only [udpRewritten, netpktSetIpSum]
  rw [get16_put16_of_disjoint _ _ (by omega)]
  simp only [netpktSetIpSrcDst]
  rw [get16_put32_of_disjoint _ _ (by omega), get16_put32_of_disjoint _ _ (by omega),
    get16_put16 _ _ hc]

/-- One's-complement sums that are not empty give the stored and the computed checksum the same
word, unless the stored one is a zero. -/
theorem adjusted_eq_iff {a b : Nat} (ha : 0 < a) (hb : 0 < b) :
    (if onesRep 65535 a = 65535 then 65535 else 65535 - onesRep 65535 a) =
        65535 - onesRep 65535 b ↔ b % 65535 = a % 65535 ∧ b % 65535 ≠ 0 := by
  have hale := onesRep_le (m := 65535) (by omega) a
  have hble := onesRep_le (m := 65535) (by omega) b
  have hbpos : onesRep 65535 b ≠ 0 := fun h0 => by
    have hb0 := onesRep_eq_zero.mp h0
    omega
  have hinj := onesRep_inj (m := 65535) (by omega) hb ha
  have hbtop := onesRep_eq_top (m := 65535) (n := b) (by omega)
  have hatop := onesRep_eq_top (m := 65535) (n := a) (by omega)
  rw [← hinj]
  split
  next htop => omega
  next htop => omega

theorem adjustedSum_pos {n : Nat} (hn : 0 < n) : 0 < adjustedSum pkt.mem ip src dst n := by
  unfold adjustedSum
  omega

/-- Behind one word of IP header the checksum is the IP checksum, which comes out as it was. -/
theorem get16_rewritten_one (h : UdpPacket pkt ip udp) (c : Nat) (hhl : ipHl pkt.mem ip = 1)
    (hsum : get16 pkt.mem (ip + 10) = netpktCksumIp pkt) :
    get16 (udpRewritten pkt ip udp src dst c).mem (udpCheckAt udp) =
      get16 pkt.mem (udpCheckAt udp) := by
  have hck := h.check_at
  have hat : udpCheckAt udp = ip + 10 := by omega
  have hkept := netpktCksumIp_rewritten src dst h c (by omega)
  rw [hat] at hkept ⊢
  simp only [udpRewritten, netpktSetIpSum, hat]
  rw [hkept, ← hsum, get16_put16 _ _ (get16_lt _ _)]

/-- Behind two words of IP header the checksum is the upper word of the source address. -/
theorem get16_rewritten_two (h : UdpPacket pkt ip udp) (c : Nat) (hhl : ipHl pkt.mem ip = 2) :
    get16 (udpRewritten pkt ip udp src dst c).mem (udpCheckAt udp) = src.toNat / 65536 := by
  have hck := h.check_at
  have hat : udpCheckAt udp = ip + 12 + 2 := by omega
  simp only [udpRewritten, netpktSetIpSum, netpktSetIpSrcDst, hat]
  rw [get16_put16_of_disjoint _ _ (by omega), get16_put32_of_disjoint _ _ (by omega),
    get16_put32_hi]

/-- Behind three words of IP header the checksum is the upper word of the destination address. -/
theorem get16_rewritten_three (h : UdpPacket pkt ip udp) (c : Nat) (hhl : ipHl pkt.mem ip = 3) :
    get16 (udpRewritten pkt ip udp src dst c).mem (udpCheckAt udp) = dst.toNat / 65536 := by
  have hck := h.check_at
  have hat : udpCheckAt udp = ip + 16 + 2 := by omega
  simp only [udpRewritten, netpktSetIpSum, netpktSetIpSrcDst, hat]
  rw [get16_put16_of_disjoint _ _ (by omega), get16_put32_hi]

/-- Behind a whole IP header the new sum is what the update takes it for, so only a zero
matters. -/
theorem udpSumKept_iff (h : UdpPacket pkt ip udp) (hhl : 5 ≤ ipHl pkt.mem ip) :
    UdpSumKept pkt ip udp src dst ↔
      udpSum (netpktSetIpSrcDst pkt ip src dst) ip udp % 65535 ≠ 0 := by
  have hck := h.check_at
  have hb := h.behind
  have hold := h.udpSum_pos
  have hnew := (h.setIpSrcDst src dst).udpSum_pos
  have hsame := onesRep_adjustedSum pkt ip src dst (show ip + 20 ≤ udp by omega)
    (show udp ≤ udpCheckAt udp by omega) h.pos
  have hmod : udpSum (netpktSetIpSrcDst pkt ip src dst) ip udp % 65535 =
      adjustedSum pkt.mem ip src dst (udpSum pkt ip udp) % 65535 :=
    ((onesRep_inj (by omega) (adjustedSum_pos src dst hold) hnew).mp hsame).symm
  unfold UdpSumKept
  split
  next hhl' => omega
  next hhl' => omega
  next hhl' => omega
  next => exact and_iff_right hmod

/-- Rewriting the addresses of an accepted datagram keeps it accepted exactly when `UdpSumKept`. -/
theorem netpktCksumCheck_adjust_udp (h : UdpPacket pkt ip udp)
    (hok : (netpktCksumCheck pkt).1 = 0) :
    (netpktCksumCheck (netpktAdjustIpSrcDst pkt src dst)).1 = 0 ↔
      UdpSumKept pkt ip udp src dst := by
  obtain ⟨hsum, hcheck⟩ := (netpktCksumCheck_udp h).mp hok
  have hck := h.check_at
  have hold := h.udpSum_pos
  have hnew := (h.setIpSrcDst src dst).udpSum_pos
  rw [netpktCksumUdp_eq h, ← udpSum] at hcheck
  have hole := onesRep_le (m := 65535) (by omega) (udpSum pkt ip udp)
  have hnle := onesRep_le (m := 65535) (by omega)
    (udpSum (netpktSetIpSrcDst pkt ip src dst) ip udp)
  obtain ⟨c, hc⟩ : ∃ c, netpktAdjustCheck pkt ip (udpCheckAt udp) src dst =
      { pkt with mem := Bklib.put16 pkt.mem (udpCheckAt udp) c } :=
    netpktAdjustCheck_put16 src dst (udpCheckAt udp)
  have hiff := netpktCksumCheck_rewritten src dst h c hsum
  rw [← netpktAdjustIpSrcDst_udp src dst h hc] at hiff
  unfold UdpSumKept
  -- with a header of one word the checksum of UDP is that of IP, and with two or three words it
  -- lies in the addresses
  split
  next hhl =>
    rw [hiff, netpktAdjustIpSrcDst_udp src dst h hc, get16_rewritten_one src dst h c hhl hsum, hcheck,
      ← onesRep_inj (by omega) hnew hold]
    omega
  next hhl =>
    rw [hiff, netpktAdjustIpSrcDst_udp src dst h hc, get16_rewritten_two src dst h c hhl]
    omega
  next hhl =>
    rw [hiff, netpktAdjustIpSrcDst_udp src dst h hc, get16_rewritten_three src dst h c hhl]
    omega
  next hhl1 hhl2 hhl3 =>
    -- with any other header it is apart from all that is rewritten
    have hne2 : ipHl pkt.mem ip ≠ 2 := hhl2
    have hne3 : ipHl pkt.mem ip ≠ 3 := hhl3
    have hne1 : ipHl pkt.mem ip ≠ 1 := hhl1
    have hadj := netpktAdjustCheck_eq pkt ip src dst
      (show udpCheckAt udp + 2 ≤ ip + 16 ∨ ip + 20 ≤ udpCheckAt udp by omega) hcheck
    have hale := onesRep_le (m := 65535) (by omega)
      (adjustedSum pkt.mem ip src dst (udpSum pkt ip udp))
    rw [netpktAdjustIpSrcDst_udp src dst h hadj, netpktCksumCheck_rewritten src dst h _ hsum,
      get16_rewritten src dst (by split <;> omega) (by omega)]
    simp only [h.pktUdp, Option.isSome_some, and_true]
    exact adjusted_eq_iff (adjustedSum_pos src dst hold) hnew

end Udp

/-- A datagram of two bytes. -/
def udpSample : NetpktMem := ipPacket
  [69, 0, 0, 30, 0, 1, 0, 0, 64, 17, 102, 72, 10, 0, 0, 1, 10, 0, 0, 134,
   0, 53, 4, 157, 0, 10, 126, 24, 104, 105]

/-- The same over UDP. -/
theorem netpktCksumCheck_adjust_udp_sample :
    (netpktCksumCheck (netpktAdjustIpSrcDst udpSample 0x04030201 0x08070605)).1 = 0 := by
  have hpkt : UdpPacket udpSample 0 20 := by
    unfold udpSample ipPacket
    exact netpktParseIp_udp rfl rfl
  have hok : (netpktCksumCheck udpSample).1 = 0 := by decide
  have hhl : 5 ≤ ipHl udpSample.mem 0 := by decide
  have hsum : udpSum (netpktSetIpSrcDst udpSample 0 0x04030201 0x08070605) 0 20 % 65535 ≠ 0 := by
    decide
  exact (netpktCksumCheck_adjust_udp _ _ hpkt hok).mpr ((udpSumKept_iff _ _ hpkt hhl).mpr hsum)

/-- Addresses whose sum comes out as a zero: the update stores `0xFFFF`, and the check finds 0. -/
theorem netpktCksumCheck_adjust_udp_zero :
    UdpPacket udpSample 0 20 ∧ (netpktCksumCheck udpSample).1 = 0 ∧
      (netpktCksumCheck (netpktAdjustIpSrcDst udpSample 0x04030201 0x93890605)).1 = -3 := by
  refine ⟨⟨rfl, rfl, rfl, rfl, rfl⟩, ?_⟩
  decide

end Bklib
