import Bklib.Model.NetpktNew
import Bklib.Proofs.NetpktAdjust
import Bklib.Proofs.NetpktParse

/-!
# `Bklib.Proofs.NetpktNew`: a UDP reply is parsed as it was built

`UdpFrame` says what the bytes of a new frame are, and the stores of `netpkt_new_udp` make one
(`netpktNewUdp_frame`). Setting the checksums leaves it one, and the parser finds in such a frame what
was put into it.

* `netpktNewUdp_parse`: the round trip.
-/

set_option autoImplicit false

namespace Bklib

open Bklib.Lib

/-! ### Checksums -/

theorem netpktCksumSet_udp {pkt : NetpktMem} {ip udp : Int} (h : UdpPacket pkt ip udp) :
    netpktCksumSet pkt = netpktSetIpSum
      { pkt with mem := put16 pkt.mem (udpCheckAt udp) (netpktCksumUdp pkt) } ip := by
  simp only [netpktCksumSet, h.pktIp, h.pktTcp, h.pktUdp]

/-- The two words that `netpkt_cksum_set` puts into a UDP packet. -/
theorem netpktCksumSet_udp_mem {pkt : NetpktMem} {ip udp : Int} (h : UdpPacket pkt ip udp) :
    ∃ w, (netpktCksumSet pkt).mem =
      put16 (put16 pkt.mem (udpCheckAt udp) (netpktCksumUdp pkt)) (ip + 10) w := by
  rw [netpktCksumSet_udp h]
  exact ⟨_, rfl⟩

/-- The checksum of a UDP packet lies behind its IP header. -/
theorem UdpPacket.check_behind {pkt : NetpktMem} {ip udp : Int} (h : UdpPacket pkt ip udp)
    (hhl : 5 ≤ ipHl pkt.mem ip) : ip + 26 ≤ udpCheckAt udp := by
  have hcheck := h.check_at
  omega

/-- Setting the checksums leaves a UDP packet one. -/
theorem UdpPacket.cksumSet {pkt : NetpktMem} {ip udp : Int} (h : UdpPacket pkt ip udp)
    (hhl : 5 ≤ ipHl pkt.mem ip) : UdpPacket (netpktCksumSet pkt) ip udp := by
  have hck := h.check_behind hhl
  rw [netpktCksumSet_udp h]
  have hpkt := h.put16 (a := udpCheckAt udp) (netpktCksumUdp pkt) (by omega) (by omega)
  exact hpkt.put16 (a := ip + 10) _ (by omega) (by omega)

/-- `netpkt_cksum_set` gives a UDP packet checksums that `netpkt_cksum_check` accepts. -/
theorem netpktCksumCheck_cksumSet_udp {pkt : NetpktMem} {ip udp : Int} (h : UdpPacket pkt ip udp)
    (hhl : 5 ≤ ipHl pkt.mem ip) : (netpktCksumCheck (netpktCksumSet pkt)).1 = 0 := by
  have hck := h.check_behind hhl
  have hudp : ip + 20 ≤ udp := by
    rw [udpCheckAt] at hck
    omega
  have hlt : netpktCksumUdp pkt < 65536 := by
    rw [netpktCksumUdp_eq h]
    omega
  obtain ⟨w, hmem⟩ := netpktCksumSet_udp_mem h
  refine (netpktCksumCheck_udp (h.cksumSet hhl)).mpr ⟨?_, ?_⟩
  · rw [netpktCksumSet_udp h]
    exact netpktSetIpSum_right h.pktIp
  · rw [netpktCksumUdp_eq (h.cksumSet hhl), hmem,
      netpktCksumSum_stored _ _ _ (by omega) (by omega), ← netpktCksumUdp_eq h,
      get16_put16_of_disjoint _ _ (by omega), get16_put16 _ _ hlt]

/-- What `netpkt_cksum_set` leaves as it was in a UDP packet. -/
theorem netpktCksumSet_udp_outside {pkt : NetpktMem} {ip udp : Int} (h : UdpPacket pkt ip udp) {i : Int}
    (hip : i < ip + 10 ∨ ip + 12 ≤ i) (hudp : i < udp + 6 ∨ udp + 8 ≤ i) :
    (netpktCksumSet pkt).mem i = pkt.mem i := by
  obtain ⟨w, hmem⟩ := netpktCksumSet_udp_mem h
  have hck : i < udpCheckAt udp ∨ udpCheckAt udp + 2 ≤ i := by
    rw [udpCheckAt]
    omega
  rw [hmem, put16_of_outside _ _ (by omega), put16_of_outside _ _ hck]

/-- The check looks at the memory and at where the headers are. -/
theorem UdpPacket.check_congr {pkt pkt' : NetpktMem} {ip udp : Int} (h : UdpPacket pkt ip udp)
    (h' : UdpPacket pkt' ip udp) (hmem : pkt'.mem = pkt.mem)
    (hcheck : (netpktCksumCheck pkt).1 = 0) : (netpktCksumCheck pkt').1 = 0 := by
  have hsumIp : netpktCksumIp pkt' = netpktCksumIp pkt := by
    simp only [netpktCksumIp, hmem, h.pktIp, h'.pktIp]
  have hsumUdp : netpktCksumUdp pkt' = netpktCksumUdp pkt := by
    simp only [netpktCksumUdp, hmem, h.pktIp, h'.pktIp, h.pktUdp, h'.pktUdp]
  rw [netpktCksumCheck_udp h', hmem, hsumIp, hsumUdp]
  exact (netpktCksumCheck_udp h).mp hcheck

/-! ### Frames -/

/-- What a reply to `replyto` holds: the ethernet addresses at `eth`, an IP header of five words at
`ip`, a UDP header at `udp`, and behind it the message. -/
structure UdpFrame (mem : Int → UInt8) (eth ip udp : Int) (msg : List UInt8) (replyto : NetpktMem)
    (eth' ip' udp' : Int) : Prop where
  dhost : readAt mem eth 6 = readAt replyto.mem (eth' + 6) 6
  shost : readAt mem (eth + 6) 6 = readAt replyto.mem eth' 6
  etherType : readAt mem (eth + 12) 2 = bytes16 (htons ethertypeIp)
  vh : readAt mem ip 1 = [69]
  total : readAt mem (ip + 2) 2 = bytes16 (htonsShort (28 + msg.length))
  proto : readAt mem (ip + 9) 1 = [UInt8.ofNat ipprotoUdp]
  src : readAt mem (ip + 12) 4 = bytes32 (get32 replyto.mem (ip' + 16))
  dst : readAt mem (ip + 16) 4 = bytes32 (get32 replyto.mem (ip' + 12))
  source : readAt mem udp 2 = bytes16 (get16 replyto.mem (udp' + 2))
  dest : readAt mem (udp + 2) 2 = bytes16 (get16 replyto.mem udp')
  msg : readAt mem (udp + 8) msg.length = msg

/-! What a read sees of one store: the bytes stored, or what is in the memory without it. -/

section
variable (mem : Int → UInt8)

theorem readAt_put8 (a : Int) (x : UInt8) : readAt (writeAt mem a [x]) a 1 = [x] :=
  readAt_writeAt mem a [x]

theorem put8_self (a : Int) (x : UInt8) : writeAt mem a [x] a = x := by
  have h := readAt_put8 mem a x
  rw [readAt_succ, readAt_zero] at h
  exact (List.cons.inj h).1

theorem readAt_put16 (a : Int) (v : Nat) : readAt (put16 mem a v) a 2 = bytes16 v :=
  readAt_writeAt mem a (bytes16 v)

theorem readAt_put32 (a : Int) (x : UInt32) : readAt (put32 mem a x) a 4 = bytes32 x :=
  readAt_writeAt mem a (bytes32 x)

theorem readAt_copy (mem' : Int → UInt8) (a c : Int) (k : Nat) :
    readAt (writeAt mem a (readAt mem' c k)) a k = readAt mem' c k := by
  have h := readAt_writeAt mem a (readAt mem' c k)
  rwa [length_readAt] at h

variable {a b : Int} {n : Nat}

theorem readAt_put8_disjoint (x : UInt8) (h : b + n ≤ a ∨ a + 1 ≤ b) :
    readAt (writeAt mem a [x]) b n = readAt mem b n := readAt_writeAt_disjoint mem [x] h

theorem readAt_put16_disjoint (v : Nat) (h : b + n ≤ a ∨ a + 2 ≤ b) :
    readAt (put16 mem a v) b n = readAt mem b n := readAt_writeAt_disjoint mem (bytes16 v) h

theorem readAt_put32_disjoint (x : UInt32) (h : b + n ≤ a ∨ a + 4 ≤ b) :
    readAt (put32 mem a x) b n = readAt mem b n := readAt_writeAt_disjoint mem (bytes32 x) h

theorem readAt_copy_disjoint (mem' : Int → UInt8) (c : Int) (k : Nat)
    (h : b + n ≤ a ∨ a + k ≤ b) :
    readAt (writeAt mem a (readAt mem' c k)) b n = readAt mem b n :=
  readAt_writeAt_disjoint mem _ (by rwa [length_readAt])

end

section
variable {mem mem' : Int → UInt8} {eth ip udp eth' ip' udp' : Int} {msg : List UInt8}
variable {replyto : NetpktMem}

/-- The two checksums are not part of it. -/
theorem UdpFrame.congr (h : UdpFrame mem eth ip udp msg replyto eth' ip' udp')
    (hip : ip = eth + 14) (hudp : udp = ip + 20)
    (hmem : ∀ i, i < ip + 10 ∨ ip + 12 ≤ i → i < udp + 6 ∨ udp + 8 ≤ i → mem' i = mem i) :
    UdpFrame mem' eth ip udp msg replyto eth' ip' udp' := by
  have hread : ∀ (a : Int) (n : Nat), a + n ≤ ip + 10 ∨ ip + 12 ≤ a → a + n ≤ udp + 6 ∨ udp + 8 ≤ a →
      readAt mem' a n = readAt mem a n := fun a n h1 h2 =>
    readAt_congr fun i hi => hmem _ (by omega) (by omega)
  constructor
  · rw [hread _ _ (by omega) (by omega), h.dhost]
  · rw [hread _ _ (by omega) (by omega), h.shost]
  · rw [hread _ _ (by omega) (by omega), h.etherType]
  · rw [hread _ _ (by omega) (by omega), h.vh]
  · rw [hread _ _ (by omega) (by omega), h.total]
  · rw [hread _ _ (by omega) (by omega), h.proto]
  · rw [hread _ _ (by omega) (by omega), h.src]
  · rw [hread _ _ (by omega) (by omega), h.dst]
  · rw [hread _ _ (by omega) (by omega), h.source]
  · rw [hread _ _ (by omega) (by omega), h.dest]
  · rw [hread _ _ (by omega) (by omega), h.msg]

/-- The stores of `netpkt_new_udp`, before the checksums, into a cleared buffer. -/
theorem netpktNewUdp_frame (msg : List UInt8) (hip : ip = eth + 14)
    (hudp : udp = ip + 20) (hclear : mem ip = 0)
    (heth' : replyto.pktEth = some eth') (hip' : replyto.pktIp = some ip')
    (hudp' : replyto.pktUdp = some udp') :
    UdpFrame (netpktNewUdpReply (netpktNewUdpHdrs
      (writeAt (put16 mem (eth + 12) (htons ethertypeIp)) (udp + 8) msg) ip udp
        (udp + 8 + msg.length)) eth ip udp replyto) eth ip udp msg replyto eth' ip' udp' := by
  simp only [netpktNewUdpReply, netpktNewUdpHdrs, heth', hip', hudp', Option.getD_some, ipVhSet]
  -- The fields lie one behind the other, so a read passes over the stores to the others.
  constructor
  case vh =>
    simp (disch := omega) only [readAt_put8, readAt_put8_disjoint, readAt_put16_disjoint,
      readAt_put32_disjoint, readAt_copy_disjoint]
    rw [put8_self, writeAt_of_lt _ msg (by omega), put16_of_outside _ _ (by omega), hclear]
    decide
  case total =>
    simp (disch := omega) only [readAt_put16, readAt_put8_disjoint, readAt_put16_disjoint,
      readAt_put32_disjoint, readAt_copy_disjoint]
    rw [show udp + 8 + (msg.length : Int) - ip = 28 + msg.length by omega]
  case msg =>
    simp (disch := omega) only [readAt_writeAt, readAt_put8_disjoint, readAt_put16_disjoint,
      readAt_put32_disjoint, readAt_copy_disjoint]
  all_goals
    simp (disch := omega) only [readAt_put8, readAt_put16, readAt_put32, readAt_copy,
      readAt_writeAt_disjoint, readAt_put16_disjoint, readAt_put32_disjoint, readAt_copy_disjoint]

/-! ### Parsing -/

section
variable (h : UdpFrame mem eth (eth + sizeofEther) (eth + sizeofEther + sizeofIp) msg replyto eth' ip'
  udp')
include h

theorem UdpFrame.isIp : htons (get16 mem (eth + 12)) = ethertypeIp := by
  rw [get16_of_readAt mem (htons_lt _) h.etherType, htons_htons (by decide)]

theorem UdpFrame.words : ipHl mem (eth + sizeofEther) = 5 := by
  have hvh := h.vh
  rw [readAt_succ, readAt_zero] at hvh
  rw [ipHl, (List.cons.inj hvh).1]
  rfl

theorem UdpFrame.ipEnd : eth + sizeofEther + (ipHl mem (eth + sizeofEther) * 4 : Int)
    = eth + sizeofEther + sizeofIp := by
  rw [h.words]
  rfl

theorem UdpFrame.isUdp : ipP mem (eth + sizeofEther) = ipprotoUdp := by
  have hp := h.proto
  rw [readAt_succ, readAt_zero] at hp
  rw [ipP, (List.cons.inj hp).1]
  rfl

/-- The total length of the frame is the headers' and the message's. -/
theorem UdpFrame.totalLen (hlen : 28 + msg.length ≤ 65535) :
    ipLen mem (eth + sizeofEther) = 28 + msg.length := by
  have hshort : ((28 + (msg.length : Int)) % 65536).toNat = 28 + msg.length := by omega
  have htotal := h.total
  rw [htonsShort, hshort] at htotal
  rw [ipLen, get16_of_readAt mem (htons_lt _) htotal, htons_htons (by omega)]

/-- The message of the frame is what is behind the headers when it is parsed. -/
theorem UdpFrame.behind (hlen : 28 + msg.length ≤ 65535) (len : Int) :
    UdpPacket (behindIp mem eth len) (eth + sizeofEther) (eth + sizeofEther + sizeofIp) ∧
      (behindIp mem eth len).pktMsg = eth + sizeofEther + sizeofIp + 8 ∧
      (behindIp mem eth len).pktLen = msg.length := by
  have hnext : ipNextHdrLen mem (eth + sizeofEther) = 8 := by
    rw [ipNextHdrLen, h.isUdp]
    rfl
  refine ⟨⟨rfl, ?_, ?_, h.isUdp, h.ipEnd.symm⟩, ?_, ?_⟩
  · simp only [behindIp, h.isUdp]
    rfl
  · simp only [behindIp, h.isUdp, if_true, h.ipEnd]
  · simp only [behindIp, hnext, h.ipEnd]
    rfl
  · simp only [behindIp, hnext, h.totalLen hlen, h.words]
    omega

end

end

/-! ### The round trip -/

/-- `pkt` carries `msg` back to where `replyto` came from. -/
structure UdpReply (pkt replyto : NetpktMem) (msg : List UInt8) : Prop where
  len : pkt.pktLen = msg.length
  msg : readAt pkt.mem pkt.pktMsg msg.length = msg
  eth : ∃ eth eth', pkt.pktEth = some eth ∧ replyto.pktEth = some eth' ∧
    readAt pkt.mem eth 6 = readAt replyto.mem (eth' + 6) 6 ∧
    readAt pkt.mem (eth + 6) 6 = readAt replyto.mem eth' 6
  ip : ∃ ip ip', pkt.pktIp = some ip ∧ replyto.pktIp = some ip' ∧
    get32 pkt.mem (ip + 12) = get32 replyto.mem (ip' + 16) ∧
    get32 pkt.mem (ip + 16) = get32 replyto.mem (ip' + 12)
  udp : ∃ udp udp', pkt.pktUdp = some udp ∧ replyto.pktUdp = some udp' ∧
    get16 pkt.mem udp = get16 replyto.mem (udp' + 2) ∧
    get16 pkt.mem (udp + 2) = get16 replyto.mem udp'

section
variable {mem : Int → UInt8} {eth eth' ip' udp' : Int} {msg : List UInt8} {replyto : NetpktMem}

/-- A frame of the length that its headers say is parsed to the packet it was made from. -/
theorem UdpFrame.parse (h : UdpFrame mem eth (eth + sizeofEther) (eth + sizeofEther + sizeofIp) msg
    replyto eth' ip' udp') (hlen : 28 + msg.length ≤ 65535) (heth' : replyto.pktEth = some eth')
    (hip' : replyto.pktIp = some ip') (hudp' : replyto.pktUdp = some udp') (len : Int) :
    (netpktParseEther (netpktInit mem eth len)).1 = 0 ∧
      UdpReply (netpktParseEther (netpktInit mem eth len)).2 replyto msg ∧
      UdpPacket (netpktParseEther (netpktInit mem eth len)).2 (eth + sizeofEther)
        (eth + sizeofEther + sizeofIp) ∧
      (netpktParseEther (netpktInit mem eth len)).2.mem = mem := by
  obtain ⟨hpkt, hmsgAt, hmsgLen⟩ := h.behind hlen len
  rw [netpktParseEther_ip h.isIp, netpktParseIp_eq]
  refine ⟨rfl, ⟨hmsgLen, ?_, ⟨eth, eth', rfl, heth', h.dhost, h.shost⟩,
    ⟨_, ip', hpkt.pktIp, hip', get32_of_readAt mem h.src, get32_of_readAt mem h.dst⟩,
    ⟨_, udp', hpkt.pktUdp, hudp', ?_, ?_⟩⟩, hpkt, rfl⟩
  · rw [hmsgAt]
    exact h.msg
  · exact get16_of_readAt mem (get16_lt _ _) h.source
  · exact get16_of_readAt mem (get16_lt _ _) h.dest

end

/-- The packet that `netpkt_new_udp` sets the checksums of. -/
theorem netpktNewUdp_unsummed (mem : Int → UInt8) (buf : Int) {buflen eth' ip' udp' : Int}
    {msg : List UInt8}
    {replyto : NetpktMem} (hroom : 42 + msg.length ≤ buflen) (heth' : replyto.pktEth = some eth')
    (hip' : replyto.pktIp = some ip') (hudp' : replyto.pktUdp = some udp') :
    ∃ pkt, netpktNewUdp mem buf buflen msg (some replyto) = netpktCksumSet pkt ∧
      UdpFrame pkt.mem buf (buf + sizeofEther) (buf + sizeofEther + sizeofIp) msg replyto eth' ip'
        udp' ∧
      UdpPacket pkt (buf + sizeofEther) (buf + sizeofEther + sizeofIp) ∧ pkt.pktRaw = buf := by
  have hclear : writeAt mem buf (List.replicate buflen.toNat 0) (buf + 14) = 0 := by
    have hin : 14 < (List.replicate buflen.toNat (0 : UInt8)).length := by
      rw [List.length_replicate]
      omega
    rw [show buf + 14 = buf + (14 : Nat) from rfl, writeAt_add mem buf _ 14 hin]
    exact List.getElem_replicate _
  have hframe := netpktNewUdp_frame msg (show buf + sizeofEther = buf + 14 from rfl)
    rfl hclear heth' hip' hudp'
  unfold netpktNewUdp
  exact ⟨_, rfl, hframe, ⟨rfl, rfl, rfl, hframe.isUdp, hframe.ipEnd.symm⟩, rfl⟩

/-- The frame that `netpkt_new_udp` builds in answer to `replyto` is parsed back. -/
theorem netpktNewUdp_parse (mem : Int → UInt8) (buf buflen : Int) (msg : List UInt8)
    (replyto : NetpktMem) (hroom : 42 + msg.length ≤ buflen) (hlen : 28 + msg.length ≤ 65535)
    (heth : replyto.pktEth.isSome) (hip : replyto.pktIp.isSome) (hudp : replyto.pktUdp.isSome) :
    let pkt := netpktNewUdp mem buf buflen msg (some replyto)
    let parsed := netpktParseEther (netpktInit pkt.mem pkt.pktRaw pkt.pktRawlen)
    parsed.1 = 0 ∧ UdpReply parsed.2 replyto msg ∧ (netpktCksumCheck parsed.2).1 = 0 := by
  obtain ⟨eth', heth'⟩ := Option.isSome_iff_exists.mp heth
  obtain ⟨ip', hip'⟩ := Option.isSome_iff_exists.mp hip
  obtain ⟨udp', hudp'⟩ := Option.isSome_iff_exists.mp hudp
  obtain ⟨pkt₀, hpkt, hframe, hudp₀, hraw⟩ :=
    netpktNewUdp_unsummed mem buf hroom heth' hip' hudp'
  have hwords : 5 ≤ ipHl pkt₀.mem (buf + sizeofEther) := Nat.le_of_eq hframe.words.symm
  have hframe' := hframe.congr rfl rfl fun i => netpktCksumSet_udp_outside hudp₀
  have hraw' : (netpktCksumSet pkt₀).pktRaw = buf := by
    rw [netpktCksumSet_udp hudp₀]
    exact hraw
  simp only [hpkt, hraw']
  obtain ⟨hret, hreply, hparsed, hmem⟩ :=
    hframe'.parse hlen heth' hip' hudp' (netpktCksumSet pkt₀).pktRawlen
  have hcheck := netpktCksumCheck_cksumSet_udp hudp₀ hwords
  exact ⟨hret, hreply, (hudp₀.cksumSet hwords).check_congr hparsed hmem hcheck⟩

/-- A question to the name server of 10.0.0.134, of two bytes. -/
def udpQuestion : NetpktMem :=
  let bs : List UInt8 := [2, 0, 0, 0, 0, 9, 2, 0, 0, 0, 0, 5, 8, 0,
    69, 0, 0, 30, 0, 1, 0, 0, 64, 17, 102, 50, 10, 0, 0, 1, 10, 0, 0, 134,
    4, 157, 0, 53, 0, 10, 0, 0, 104, 105]
  (netpktParseEther (netpktInit (fun a => bs.getD a.toNat 0) 0 bs.length)).2

theorem netpktNewUdp_parse_question :
    let pkt := netpktNewUdp (fun _ => 255) 100 64 [110, 111, 33] (some udpQuestion)
    let parsed := netpktParseEther (netpktInit pkt.mem pkt.pktRaw pkt.pktRawlen)
    parsed.1 = 0 ∧ UdpReply parsed.2 udpQuestion [110, 111, 33] ∧
      (netpktCksumCheck parsed.2).1 = 0 :=
  netpktNewUdp_parse _ 100 64 [110, 111, 33] udpQuestion (by decide) (by decide) (by decide)
    (by decide) (by decide)

end Bklib
