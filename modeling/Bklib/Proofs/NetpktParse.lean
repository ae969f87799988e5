import Bklib.Model.NetpktMem

/-!
# `Bklib.Proofs.NetpktParse`: which frames are parsed inside the frame

`netpkt_parse_ether` takes every length from the packet and compares none of them with the length of
the frame. `FrameOk` says that the lengths fit: the headers are at least as long as their fixed part,
the total length of the IP header covers them, and the frame covers the total length.

* `netpktInside_iff`: these are the frames that are parsed inside the frame.
-/

set_option autoImplicit false

namespace Bklib

open Bklib.Lib

/-- The `n` bytes at `a` lie in the frame of `len` bytes at `data`. -/
def InFrame (data len a n : Int) : Prop := data ≤ a ∧ a + n ≤ data + len

/-- The headers that were found lie in the frame, and so does the message behind them. The options
of a header lie in the header. -/
structure PacketInside (pkt : NetpktMem) (data len : Int) : Prop where
  eth : ∀ a, pkt.pktEth = some a → InFrame data len a sizeofEther
  arp : ∀ a, pkt.pktArp = some a → InFrame data len a sizeofArp
  ip : ∀ a, pkt.pktIp = some a →
    InFrame data len a sizeofIp ∧ InFrame data len a (ipHl pkt.mem a * 4)
  tcp : ∀ a, pkt.pktTcp = some a →
    InFrame data len a sizeofTcp ∧ InFrame data len a (tcpDoff pkt.mem a * 4)
  udp : ∀ a, pkt.pktUdp = some a → InFrame data len a sizeofUdp
  icmp : ∀ a, pkt.pktIcmp = some a → InFrame data len a sizeofIcmp
  msgLen : 0 ≤ pkt.pktLen
  msg : InFrame data len pkt.pktMsg pkt.pktLen
  ipOpt : ∀ a, pkt.pktIp = some a → 0 ≤ pkt.pktIpOptLen ∧ ∀ o, pkt.pktIpOpt = some o →
    InFrame a (ipHl pkt.mem a * 4) o pkt.pktIpOptLen
  tcpOpt : ∀ a, pkt.pktTcp = some a → 0 ≤ pkt.pktTcpOptLen ∧ ∀ o, pkt.pktTcpOpt = some o →
    InFrame a (tcpDoff pkt.mem a * 4) o pkt.pktTcpOptLen

/-- Nothing outside the frame is read, and a packet that is accepted lies in it. -/
structure NetpktInside (mem : Int → UInt8) (data len : Int) : Prop where
  loads : ∀ w ∈ netpktParseEtherLoads (netpktInit mem data len), InFrame data len w.1 w.2
  parsed : (netpktParseEther (netpktInit mem data len)).1 = 0 →
    PacketInside (netpktParseEther (netpktInit mem data len)).2 data len

/-- The length of the header behind the IP header. -/
def ipNextHdrLen (mem : Int → UInt8) (ip : Int) : Nat :=
  if ipP mem ip = ipprotoTcp then tcpDoff mem (ip + ipHl mem ip * 4) * 4
  else if ipP mem ip = ipprotoUdp then 8
  else if ipP mem ip = ipprotoIcmp then 8
  else 0

/-- The lengths of the IP packet fit each other and the `len` bytes that there are. -/
structure IpFrameOk (mem : Int → UInt8) (ip : Int) (len : Int) : Prop where
  hl : 5 ≤ ipHl mem ip
  doff : ipP mem ip = ipprotoTcp → 5 ≤ tcpDoff mem (ip + ipHl mem ip * 4)
  hdrs : ipHl mem ip * 4 + ipNextHdrLen mem ip ≤ ipLen mem ip
  total : ipLen mem ip ≤ len

/-- The frame is as long as its headers say. -/
structure FrameOk (mem : Int → UInt8) (data len : Int) : Prop where
  ether : sizeofEther ≤ len
  ip : htons (get16 mem (data + 12)) = ethertypeIp →
    IpFrameOk mem (data + sizeofEther) (len - sizeofEther)
  arp : htons (get16 mem (data + 12)) = ethertypeArp → sizeofEther + sizeofArp ≤ len

section
variable {mem : Int → UInt8} {data len : Int}

variable (mem data len) in
/-- The packet behind the ethernet header of a frame that is no trailer packet. -/
def behindEther : NetpktMem :=
  { netpktInit mem data len with pktEth := some data, pktMsg := data + sizeofEther }

/-- Only a trailer packet has something behind its ethernet header that is skipped. -/
theorem etherTrail_eq {etherType : Nat} (h : etherType ≤ ethertypeTrail) (n : Int) :
    data + sizeofEther + (if ethertypeTrail < etherType then n else 0) = data + sizeofEther := by
  rw [if_neg (Nat.not_lt.mpr h), Int.add_zero]

/-- A frame of type IP is parsed as one. -/
theorem netpktParseEther_ip (hip : htons (get16 mem (data + 12)) = ethertypeIp) :
    netpktParseEther (netpktInit mem data len) = (0, netpktParseIp (behindEther mem data len)) := by
  have htrail : htons (get16 mem (data + 12)) ≤ ethertypeTrail := by
    rw [hip]
    decide
  unfold netpktParseEther
  refine (if_pos hip).trans ?_
  exact congrArg (fun a => ((0 : Int), netpktParseIp { behindEther mem data len with pktMsg := a }))
    (etherTrail_eq htrail _)

/-- A frame of type ARP is parsed as one. -/
theorem netpktParseEther_arp (harp : htons (get16 mem (data + 12)) = ethertypeArp) :
    netpktParseEther (netpktInit mem data len) = (0, netpktParseArp (behindEther mem data len)) := by
  have hip : htons (get16 mem (data + 12)) ≠ ethertypeIp := by
    rw [harp]
    decide
  have htrail : htons (get16 mem (data + 12)) ≤ ethertypeTrail := by
    rw [harp]
    decide
  unfold netpktParseEther
  refine (if_neg hip).trans ((if_pos harp).trans ?_)
  exact congrArg (fun a => ((0 : Int), netpktParseArp { behindEther mem data len with pktMsg := a }))
    (etherTrail_eq htrail _)

theorem netpktParseEther_other (hip : htons (get16 mem (data + 12)) ≠ ethertypeIp)
    (harp : htons (get16 mem (data + 12)) ≠ ethertypeArp) :
    (netpktParseEther (netpktInit mem data len)).1 = -1 := by
  unfold netpktParseEther
  exact congrArg Prod.fst ((if_neg hip).trans (if_neg harp))

theorem netpktParseEtherLoads_ip (hip : htons (get16 mem (data + 12)) = ethertypeIp) :
    netpktParseEtherLoads (netpktInit mem data len)
      = (data + 12, 2) :: netpktParseIpLoads (behindEther mem data len) :=
  congrArg _ (if_pos hip)

theorem netpktParseEtherLoads_other (hip : htons (get16 mem (data + 12)) ≠ ethertypeIp) :
    netpktParseEtherLoads (netpktInit mem data len) = [(data + 12, 2)] :=
  congrArg _ (if_neg hip)

/-- The type is read first. -/
theorem NetpktInside.ether (h : NetpktInside mem data len) : sizeofEther ≤ len := by
  have hload := h.loads (data + 12, 2) List.mem_cons_self
  simp only [InFrame, sizeofEther] at hload ⊢
  omega

theorem inFrame_etherType (h : sizeofEther ≤ len) : InFrame data len (data + 12) 2 := by
  simp only [InFrame, sizeofEther] at h ⊢
  omega

/-- A packet of another type is refused after its type was read. -/
theorem netpktInside_other (hip : htons (get16 mem (data + 12)) ≠ ethertypeIp)
    (harp : htons (get16 mem (data + 12)) ≠ ethertypeArp) :
    NetpktInside mem data len ↔ FrameOk mem data len := by
  constructor
  · intro h
    exact ⟨h.ether, fun heq => absurd heq hip, fun heq => absurd heq harp⟩
  · intro h
    refine ⟨fun w hw => ?_, fun hzero => ?_⟩
    · rw [netpktParseEtherLoads_other hip] at hw
      rw [List.mem_singleton.mp hw]
      exact inFrame_etherType h.ether
    · rw [netpktParseEther_other hip harp] at hzero
      cases hzero

/-- An ARP packet. -/
theorem netpktInside_arp (harp : htons (get16 mem (data + 12)) = ethertypeArp) :
    NetpktInside mem data len ↔ FrameOk mem data len := by
  have hip : htons (get16 mem (data + 12)) ≠ ethertypeIp := by
    rw [harp]
    decide
  have hmsg : (netpktParseArp (behindEther mem data len)).pktMsg = data + 14 + 28 := rfl
  have hlen : (netpktParseArp (behindEther mem data len)).pktLen
      = len - (data + 14 + 28 - data) := rfl
  constructor
  · intro h
    refine ⟨h.ether, fun heq => absurd heq hip, fun _ => ?_⟩
    -- what is left of the frame is not negative, so the ARP header fits
    have hpkt := h.parsed (by rw [netpktParseEther_arp harp])
    rw [netpktParseEther_arp harp] at hpkt
    have hmsgLen := hpkt.msgLen
    rw [hlen] at hmsgLen
    simp only [sizeofEther, sizeofArp]
    omega
  · intro h
    have hlong := h.arp harp
    simp only [sizeofEther, sizeofArp] at hlong
    refine ⟨fun w hw => ?_, fun _ => ?_⟩
    · -- the type of the frame is all that is loaded
      rw [netpktParseEtherLoads_other hip] at hw
      rw [List.mem_singleton.mp hw]
      exact inFrame_etherType h.ether
    · rw [netpktParseEther_arp harp]
      refine ⟨?_, ?_, ?_, ?_, ?_, ?_, ?_, ?_, ?_, ?_⟩
      · rintro a ⟨⟩
        simp only [InFrame, sizeofEther]
        omega
      · rintro a ⟨⟩
        simp only [InFrame, behindEther, sizeofEther, sizeofArp]
        omega
      · rintro a ⟨⟩
      · rintro a ⟨⟩
      · rintro a ⟨⟩
      · rintro a ⟨⟩
      · rw [hlen]
        omega
      · rw [InFrame, hmsg, hlen]
        omega
      · rintro a ⟨⟩
      · rintro a ⟨⟩

/-! ### IP packets -/

variable (mem data len) in
/-- The packet behind its IP header and the header of its protocol. -/
def behindIp : NetpktMem :=
  let ip := data + sizeofEther
  let hdr := ip + ipHl mem ip * 4
  let ipOptLen : Int := ipHl mem ip * 4 - sizeofIp
  let tcpOptLen : Int := tcpDoff mem hdr * 4 - sizeofTcp
  { behindEther mem data len with
    pktIp := some ip
    pktTcp := if ipP mem ip = ipprotoTcp then some hdr else none
    pktUdp := if ipP mem ip = ipprotoUdp then some hdr else none
    pktIcmp := if ipP mem ip = ipprotoIcmp then some hdr else none
    pktMsg := hdr + ipNextHdrLen mem ip
    pktLen := ipLen mem ip - ipHl mem ip * 4 - ipNextHdrLen mem ip
    pktIpOpt := if 0 < ipOptLen then some (ip + sizeofIp) else none
    pktIpOptLen := ipOptLen
    pktTcpOpt := if ipP mem ip = ipprotoTcp ∧ 0 < tcpOptLen then some (hdr + sizeofTcp) else none
    pktTcpOptLen := if ipP mem ip = ipprotoTcp then tcpOptLen else 0 }

/-- `netpkt_parse_ip` behind an Ethernet header, as one equation. -/
theorem netpktParseIp_eq : netpktParseIp (behindEther mem data len) = behindIp mem data len := by
  have hp : ipP (behindEther mem data len).mem (behindEther mem data len).pktMsg
      = ipP mem (data + sizeofEther) := rfl
  unfold netpktParseIp behindIp ipNextHdrLen
  simp only [hp]
  by_cases htcp : ipP mem (data + sizeofEther) = ipprotoTcp
  · simp only [htcp, if_true, true_and]
    rfl
  · by_cases hudp : ipP mem (data + sizeofEther) = ipprotoUdp
    · simp only [hudp, if_true]
      rfl
    · by_cases hicmp : ipP mem (data + sizeofEther) = ipprotoIcmp
      · simp only [hicmp, if_true]
        rfl
      · simp only [htcp, hudp, hicmp, if_false, false_and, Nat.cast_zero, Int.add_zero,
          Int.sub_zero]
        rfl

theorem netpktParseIpLoads_eq : netpktParseIpLoads (behindEther mem data len) =
    [(data + sizeofEther, 1), (data + sizeofEther + 2, 2), (data + sizeofEther + 9, 1)] ++
      if ipP mem (data + sizeofEther) = ipprotoTcp then
        [(data + sizeofEther + ipHl mem (data + sizeofEther) * 4 + 12, 1)] else [] := rfl

/-- What the claims about the packet say about its lengths. -/
theorem ipFrameOk_of_packetInside (h : PacketInside (behindIp mem data len) data len) :
    IpFrameOk mem (data + sizeofEther) (len - sizeofEther) := by
  have hopt : 0 ≤ (ipHl mem (data + sizeofEther) * 4 - sizeofIp : Int) := (h.ipOpt _ rfl).1
  have hmsgLen : 0 ≤ (ipLen mem (data + sizeofEther) - ipHl mem (data + sizeofEther) * 4
    - ipNextHdrLen mem (data + sizeofEther) : Int) := h.msgLen
  have hmsg : data + sizeofEther + ipHl mem (data + sizeofEther) * 4
      + ipNextHdrLen mem (data + sizeofEther) + (ipLen mem (data + sizeofEther)
        - ipHl mem (data + sizeofEther) * 4 - ipNextHdrLen mem (data + sizeofEther) : Int)
      ≤ data + len := h.msg.2
  refine ⟨?_, fun htcp => ?_, by omega, by omega⟩
  · unfold sizeofIp at hopt
    omega
  · have htcpOpt := (h.tcpOpt _ (if_pos htcp)).1
    rw [behindIp] at htcpOpt
    simp only [if_pos htcp, sizeofTcp] at htcpOpt
    omega

/-- Options behind the 20 bytes of a header, up to its end. -/
theorem optBehind_inFrame (a n : Int) : InFrame a n (a + 20) (n - 20) := by
  simp only [InFrame]
  omega

/-- And the other way round. -/
theorem packetInside_of_ipFrameOk (hether : sizeofEther ≤ len)
    (h : IpFrameOk mem (data + sizeofEther) (len - sizeofEther)) :
    PacketInside (behindIp mem data len) data len := by
  obtain ⟨hhl, hdoff, hhdrs, htotal⟩ := h
  have hsize : sizeofEther = 14 := rfl
  -- what is read behind the IP header lies in front of the payload
  have hnext : ∀ n : Nat, n ≤ ipNextHdrLen mem (data + sizeofEther) →
      InFrame data len (data + sizeofEther + ipHl mem (data + sizeofEther) * 4) n := fun n hn => by
    simp only [InFrame]
    omega
  refine ⟨?_, ?_, ?_, ?_, ?_, ?_, ?_, ?_, ?_, ?_⟩
  · rintro a ⟨⟩
    simp only [InFrame]
    omega
  · rintro a ⟨⟩
  · rintro a ⟨⟩
    show InFrame data len (data + sizeofEther) 20 ∧
      InFrame data len (data + sizeofEther) (ipHl mem (data + sizeofEther) * 4)
    simp only [InFrame]
    omega
  · intro a ha
    obtain ⟨htcp, rfl⟩ := Option.ite_some_none_eq_some.mp ha
    have hlen : ipNextHdrLen mem (data + sizeofEther)
        = tcpDoff mem (data + sizeofEther + ipHl mem (data + sizeofEther) * 4) * 4 := if_pos htcp
    have hd := hdoff htcp
    exact ⟨hnext 20 (by omega), hnext _ (Nat.le_of_eq hlen.symm)⟩
  · intro a ha
    obtain ⟨hudp, rfl⟩ := Option.ite_some_none_eq_some.mp ha
    have hlen : ipNextHdrLen mem (data + sizeofEther) = 8 := by
      simp [ipNextHdrLen, hudp, ipprotoUdp, ipprotoTcp]
    exact hnext 8 (by omega)
  · intro a ha
    obtain ⟨hicmp, rfl⟩ := Option.ite_some_none_eq_some.mp ha
    have hlen : ipNextHdrLen mem (data + sizeofEther) = 8 := by
      simp [ipNextHdrLen, hicmp, ipprotoUdp, ipprotoTcp, ipprotoIcmp]
    exact hnext 8 (by omega)
  · show 0 ≤ (ipLen mem (data + sizeofEther) - ipHl mem (data + sizeofEther) * 4
      - ipNextHdrLen mem (data + sizeofEther) : Int)
    omega
  · show data ≤ data + sizeofEther + ipHl mem (data + sizeofEther) * 4
        + ipNextHdrLen mem (data + sizeofEther) ∧
      data + sizeofEther + ipHl mem (data + sizeofEther) * 4 + ipNextHdrLen mem (data + sizeofEther)
        + (ipLen mem (data + sizeofEther) - ipHl mem (data + sizeofEther) * 4
          - ipNextHdrLen mem (data + sizeofEther) : Int) ≤ data + len
    omega
  · rintro a ⟨⟩
    have hpos : 0 ≤ (ipHl mem (data + sizeofEther) * 4 - 20 : Int) := by omega
    refine ⟨hpos, fun o ho => ?_⟩
    obtain ⟨-, rfl⟩ := Option.ite_some_none_eq_some.mp ho
    exact optBehind_inFrame _ _
  · intro a ha
    obtain ⟨htcp, rfl⟩ := Option.ite_some_none_eq_some.mp ha
    have hd := hdoff htcp
    have hlen : (behindIp mem data len).pktTcpOptLen
        = tcpDoff mem (data + sizeofEther + ipHl mem (data + sizeofEther) * 4) * 4 - 20 :=
      if_pos htcp
    rw [hlen]
    refine ⟨by omega, fun o ho => ?_⟩
    obtain ⟨-, rfl⟩ := Option.ite_some_none_eq_some.mp ho
    exact optBehind_inFrame _ _

/-- An IP packet. -/
theorem netpktInside_ip (hip : htons (get16 mem (data + 12)) = ethertypeIp) :
    NetpktInside mem data len ↔ FrameOk mem data len := by
  have harp : htons (get16 mem (data + 12)) ≠ ethertypeArp := by
    rw [hip]
    decide
  have hparse : netpktParseEther (netpktInit mem data len) = (0, _) := netpktParseEther_ip hip
  rw [netpktParseIp_eq] at hparse
  constructor
  · intro h
    refine ⟨h.ether, fun _ => ?_, fun heq => absurd heq harp⟩
    have hpkt := h.parsed (by rw [hparse])
    rw [hparse] at hpkt
    exact ipFrameOk_of_packetInside hpkt
  · intro h
    refine ⟨fun w hw => ?_, fun _ => ?_⟩
    · obtain ⟨hhl, hdoff, hhdrs, htotal⟩ := h.ip hip
      have hether := h.ether
      have hsize : sizeofEther = 14 := rfl
      -- the type of the frame, three loads from the IP header, and the length of a TCP header
      rw [netpktParseEtherLoads_ip hip, netpktParseIpLoads_eq] at hw
      simp only [List.mem_cons, List.mem_append, List.not_mem_nil, or_false] at hw
      rcases hw with rfl | (rfl | rfl | rfl) | hw
      · exact inFrame_etherType hether
      all_goals simp only [InFrame]
      · omega
      · omega
      · omega
      · split_ifs at hw with htcp
        · have hlen : ipNextHdrLen mem (data + sizeofEther)
              = tcpDoff mem (data + sizeofEther + ipHl mem (data + sizeofEther) * 4) * 4 :=
            if_pos htcp
          have hd := hdoff htcp
          rw [List.mem_singleton.mp hw]
          omega
        · cases hw
    · rw [hparse]
      exact packetInside_of_ipFrameOk h.ether (h.ip hip)

end

/-- The frames that are parsed inside the frame. -/
theorem netpktInside_iff (mem : Int → UInt8) (data : Int) (len : Nat) :
    NetpktInside mem data len ↔ FrameOk mem data len := by
  by_cases hip : htons (get16 mem (data + 12)) = ethertypeIp
  · exact netpktInside_ip hip
  · by_cases harp : htons (get16 mem (data + 12)) = ethertypeArp
    · exact netpktInside_arp harp
    · exact netpktInside_other hip harp

/-- A frame of two headers, where the IP header says that the packet has 1000 bytes. -/
def cutFrame : Int → UInt8 := fun a => ([0, 0, 0, 0, 0, 0, 0, 0, 0, 0, 0, 0, 8, 0,
  69, 0, 3, 232, 0, 1, 0, 0, 64, 255, 0, 0, 10, 0, 0, 1, 10, 0, 0, 134] : List UInt8).getD a.toNat 0

theorem netpktInside_cutFrame : ¬NetpktInside cutFrame 0 (34 : Nat) := by
  rw [netpktInside_iff]
  intro h
  have htype : htons (get16 cutFrame (0 + 12)) = ethertypeIp := by decide
  have htotal : ipLen cutFrame (0 + sizeofEther) = 1000 := by decide
  have hfits := (h.ip htype).total
  rw [htotal] at hfits
  exact absurd hfits (by decide)

end Bklib
