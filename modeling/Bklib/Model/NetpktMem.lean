import Bklib.Model.Word

/-!
# `Bklib.Model.NetpktMem`: a packet where it lies in memory

`struct netpkt` with pointers: an address for each header that was found, and the memory they lead
into. The sums are natural numbers here. In the code they are `int`s, which do not overflow for a
segment of up to 65515 bytes, and behind an IP header of five words there is no longer one. With zero
or one word a packet of 65530 bytes that are nearly all 0xFF makes them overflow.
-/

set_option autoImplicit false

namespace Bklib

open Bklib.Lib

/-! ## The packet -/

/-- `struct netpkt`, and the memory that its pointers lead into. -/
structure NetpktMem where
  mem : Int → UInt8
  pktRaw : Int
  pktRawlen : Int
  pktMsg : Int
  pktLen : Int
  pktMax : Int
  pktCksumOk : Bool
  pktEth : Option Int
  pktArp : Option Int
  pktIp : Option Int
  pktTcp : Option Int
  pktUdp : Option Int
  pktIcmp : Option Int
  pktIpOpt : Option Int
  pktIpOptLen : Int
  pktTcpOpt : Option Int
  pktTcpOptLen : Int

/-- `netpkt_init_max`. -/
def netpktInitMax (mem : Int → UInt8) (data len max : Int) : NetpktMem :=
  { mem, pktRaw := data, pktRawlen := len, pktMsg := data, pktLen := len, pktMax := max
    pktCksumOk := false, pktEth := none, pktArp := none, pktIp := none, pktTcp := none
    pktUdp := none, pktIcmp := none, pktIpOpt := none, pktIpOptLen := 0, pktTcpOpt := none
    pktTcpOptLen := 0 }

/-- `netpkt_init`. -/
def netpktInit (mem : Int → UInt8) (data len : Int) : NetpktMem := netpktInitMax mem data len len

/-- `ip_hl (ip)`: the words of the IP header. -/
def ipHl (mem : Int → UInt8) (ip : Int) : Nat := (mem ip).toNat % 16

/-- `tcp_doff (tcp)`: the words of the TCP header. -/
def tcpDoff (mem : Int → UInt8) (tcp : Int) : Nat := (mem (tcp + 12)).toNat / 16

/-- `ntohs (ip->len)`. -/
def ipLen (mem : Int → UInt8) (ip : Int) : Nat := htons (get16 mem (ip + 2))

/-- `ip->p`. -/
def ipP (mem : Int → UInt8) (ip : Int) : Nat := (mem (ip + 9)).toNat

def ipprotoIcmp : Nat := 1

def ipprotoTcp : Nat := 6

def ipprotoUdp : Nat := 17

/-- `sizeof (netpkt_ether)`, and of the other headers. -/
def sizeofEther : Int := 14

def sizeofArp : Int := 28

def sizeofIp : Int := 20

def sizeofTcp : Int := 20

def sizeofUdp : Int := 8

def sizeofIcmp : Int := 8

/-- `pkt_msg += hdrlen; pkt_len -= hdrlen`. -/
def NetpktMem.skip (pkt : NetpktMem) (hdrlen : Int) : NetpktMem :=
  { pkt with pktMsg := pkt.pktMsg + hdrlen, pktLen := pkt.pktLen - hdrlen }

/-- The `IPPROTO_TCP` case of `netpkt_parse_ip`. -/
def netpktParseTcp (pkt : NetpktMem) : NetpktMem :=
  let tcp := pkt.pktMsg
  let hdrlen : Int := tcpDoff pkt.mem tcp * 4
  let optLen := hdrlen - sizeofTcp
  { pkt.skip hdrlen with
    pktTcp := some tcp
    pktTcpOptLen := optLen
    pktTcpOpt := if 0 < optLen then some (tcp + sizeofTcp) else pkt.pktTcpOpt }

/-- The header `ip`, its options, and where the message behind it is. -/
def netpktParseIpHdr (pkt : NetpktMem) : NetpktMem :=
  let ip := pkt.pktMsg
  let hdrlen : Int := ipHl pkt.mem ip * 4
  let optLen := hdrlen - sizeofIp
  { pkt with
    pktIp := some ip
    pktMsg := ip + hdrlen
    pktLen := ipLen pkt.mem ip - hdrlen
    pktIpOptLen := optLen
    pktIpOpt := if 0 < optLen then some (ip + sizeofIp) else pkt.pktIpOpt }

/-- `netpkt_parse_ip`, which never fails. -/
def netpktParseIp (pkt : NetpktMem) : NetpktMem :=
  let p := ipP pkt.mem pkt.pktMsg
  let pkt := netpktParseIpHdr pkt
  if p = ipprotoTcp then netpktParseTcp pkt
  else if p = ipprotoUdp then { pkt.skip sizeofUdp with pktUdp := some pkt.pktMsg }
  else if p = ipprotoIcmp then { pkt.skip sizeofIcmp with pktIcmp := some pkt.pktMsg }
  else pkt

/-- `netpkt_parse_arp`, which never fails. -/
def netpktParseArp (pkt : NetpktMem) : NetpktMem :=
  let msg := pkt.pktMsg + sizeofArp
  { pkt with
    pktArp := some pkt.pktMsg
    pktMsg := msg
    pktLen := pkt.pktRawlen - (msg - pkt.pktRaw) }

def ethertypeIp : Nat := 0x0800

def ethertypeArp : Nat := 0x0806

def ethertypeTrail : Nat := 0x1000

/-- `netpkt_parse_ether`: 0, or -1 for a type that is not known. -/
def netpktParseEther (pkt : NetpktMem) : Int × NetpktMem :=
  let eth := pkt.pktMsg
  let etherType := htons (get16 pkt.mem (eth + 12))
  let trail : Int := if ethertypeTrail < etherType then (etherType - ethertypeTrail) * 512 else 0
  let pkt := { pkt with pktEth := some eth, pktMsg := eth + sizeofEther + trail }
  if etherType = ethertypeIp then (0, netpktParseIp pkt)
  else if etherType = ethertypeArp then (0, netpktParseArp pkt)
  else (-1, pkt)

/-! What the parser reads of the packet, an address and a length each. -/

/-- `ip_hl (ip)`, `ip->len`, `ip->p` and, of a TCP packet, `tcp_doff (tcp)`. -/
def netpktParseIpLoads (pkt : NetpktMem) : List (Int × Nat) :=
  let ip := pkt.pktMsg
  [(ip, 1), (ip + 2, 2), (ip + 9, 1)] ++
    if ipP pkt.mem ip = ipprotoTcp then [(ip + ipHl pkt.mem ip * 4 + 12, 1)] else []

/-- The type, and what `netpkt_parse_ip` reads. `netpkt_parse_arp` reads nothing. -/
def netpktParseEtherLoads (pkt : NetpktMem) : List (Int × Nat) :=
  let eth := pkt.pktMsg
  (eth + 12, 2) ::
    if htons (get16 pkt.mem (eth + 12)) = ethertypeIp then
      netpktParseIpLoads { pkt with pktEth := some eth, pktMsg := eth + sizeofEther }
    else []

/-! ## Checksums -/

/-- `netpkt_cksum_in`. An odd byte at the end is a word with a zero behind it. -/
def netpktCksumIn : List UInt8 → Nat
  | b0 :: b1 :: rest => le16 b0 b1 + netpktCksumIn rest
  | [b]              => htons (b.toNat * 256)
  | []               => 0

/-- `netpkt_cksum_in_final`. -/
def netpktCksumInFinal (sum : Nat) : Nat :=
  let sum := sum / 65536 + sum % 65536
  let sum := sum + sum / 65536
  65535 - sum % 65536

/-- `netpkt_cksum_ip`. The header has its checksum back when it returns. -/
def netpktCksumIp (pkt : NetpktMem) : Nat :=
  match pkt.pktIp with
  | none    => 0
  | some ip =>
      let mem := put16 pkt.mem (ip + 10) 0
      netpktCksumInFinal (netpktCksumIn (readAt mem ip (ipHl mem ip * 4)))

/-- The loop of `in_cksum` over `count` words from `sp` on. -/
def inCksumSum (mem : Int → UInt8) : Nat → Int → Nat → Nat
  | 0,         _,  sum => sum
  | count + 1, sp, sum => inCksumSum mem count (sp + 2) (sum + get16 mem sp)

/-- `while (sum > 0xffff) sum = (sum & 0xffff) + (sum >> 16)`. -/
def inCksumFold (sum : Nat) : Nat :=
  if 65535 < sum then inCksumFold (sum % 65536 + sum / 65536) else sum
termination_by sum
decreasing_by omega

/-- `in_cksum` of `eth_util.c`, on the header at `ip`. -/
def inCksum (mem : Int → UInt8) (ip : Int) : Nat :=
  65535 - inCksumFold (inCksumSum mem (ipHl mem ip * 2) ip 0)

/-- The sum that `netpkt_cksum_tcp` and `netpkt_cksum_udp` finish: the `len` bytes at `hdr`, the
addresses, the protocol and the length, with the checksum already 0 in memory. -/
def netpktCksumSum (mem : Int → UInt8) (ip hdr : Int) : Nat :=
  let len : Int := ipLen mem ip - ipHl mem ip * 4
  netpktCksumIn (readAt mem hdr len.toNat) + netpktCksumIn (readAt mem (ip + 12) 8) +
    htons (ipP mem ip) + htons (len % 65536).toNat

/-- `&tcp->check`. -/
def tcpCheckAt (tcp : Int) : Int := tcp + 16

/-- `&udp->check`. -/
def udpCheckAt (udp : Int) : Int := udp + 6

/-- `netpkt_cksum_tcp`. The segment has its checksum back when it returns. -/
def netpktCksumTcp (pkt : NetpktMem) : Nat :=
  match pkt.pktIp, pkt.pktTcp with
  | some ip, some tcp =>
      netpktCksumInFinal (netpktCksumSum (put16 pkt.mem (tcpCheckAt tcp) 0) ip tcp)
  | _,       _        => 0

/-- `netpkt_cksum_udp`. The datagram has its checksum back when it returns. -/
def netpktCksumUdp (pkt : NetpktMem) : Nat :=
  match pkt.pktIp, pkt.pktUdp with
  | some ip, some udp =>
      netpktCksumInFinal (netpktCksumSum (put16 pkt.mem (udpCheckAt udp) 0) ip udp)
  | _,       _        => 0

/-- `ip->sum = netpkt_cksum_ip (pkt)`. -/
def netpktSetIpSum (pkt : NetpktMem) (ip : Int) : NetpktMem :=
  { pkt with mem := put16 pkt.mem (ip + 10) (netpktCksumIp pkt) }

/-- `netpkt_cksum_set`. -/
def netpktCksumSet (pkt : NetpktMem) : NetpktMem :=
  match pkt.pktIp with
  | none    => pkt
  | some ip =>
      let pkt := match pkt.pktTcp, pkt.pktUdp with
        | some tcp, _        => { pkt with mem := put16 pkt.mem (tcpCheckAt tcp) (netpktCksumTcp pkt) }
        | none,     some udp => { pkt with mem := put16 pkt.mem (udpCheckAt udp) (netpktCksumUdp pkt) }
        | none,     none     => pkt
      netpktSetIpSum pkt ip

/-- `netpkt_cksum_check`: 0 when the checksums are right. -/
def netpktCksumCheck (pkt : NetpktMem) : Int × NetpktMem :=
  match pkt.pktIp with
  | none    => (0, { pkt with pktCksumOk := true })
  | some ip =>
      if get16 pkt.mem (ip + 10) ≠ netpktCksumIp pkt then (-1, pkt)
      else if pkt.pktTcp.any fun tcp => get16 pkt.mem (tcpCheckAt tcp) ≠ netpktCksumTcp pkt then
        (-2, pkt)
      else if pkt.pktUdp.any fun udp => get16 pkt.mem (udpCheckAt udp) ≠ netpktCksumUdp pkt then
        (-3, pkt)
      else (0, { pkt with pktCksumOk := true })

/-! ## New addresses -/

/-- `netpkt_adjust_cksum`. -/
def netpktAdjustCksum (oldsum : Nat) (old new : UInt32) : Nat :=
  let diff := bytes32 (~~~old) ++ bytes32 new
  let sum := oldsum ^^^ 0xFFFF
  let sum := sum + netpktCksumIn diff
  let sum := sum % 65536 + sum / 65536
  let sum := sum % 65536 + sum / 65536
  65535 - sum % 65536

/-- What `netpkt_adjust_ip_src_dst` does with `*checkp`. The old destination is read after the first
of the two assignments. -/
def netpktAdjustCheck (pkt : NetpktMem) (ip checkp : Int) (src dst : UInt32) : NetpktMem :=
  let mem := pkt.mem
  let mem := put16 mem checkp (netpktAdjustCksum (get16 mem checkp) (get32 mem (ip + 12)) src)
  let mem := put16 mem checkp (netpktAdjustCksum (get16 mem checkp) (get32 mem (ip + 16)) dst)
  { pkt with
    mem := if get16 mem checkp = 0 ∧ pkt.pktUdp.isSome then put16 mem checkp 0xFFFF else mem }

/-- `pkt_ip->src = src; pkt_ip->dst = dst`. -/
def netpktSetIpSrcDst (pkt : NetpktMem) (ip : Int) (src dst : UInt32) : NetpktMem :=
  { pkt with mem := put32 (put32 pkt.mem (ip + 12) src) (ip + 16) dst }

/-- `netpkt_adjust_ip_src_dst`, which needs an IP header. -/
def netpktAdjustIpSrcDst (pkt : NetpktMem) (src dst : UInt32) : NetpktMem :=
  match pkt.pktIp with
  | none    => pkt
  | some ip =>
      let pkt := match pkt.pktTcp, pkt.pktUdp with
        | some tcp, _        => netpktAdjustCheck pkt ip (tcpCheckAt tcp) src dst
        | none,     some udp => netpktAdjustCheck pkt ip (udpCheckAt udp) src dst
        | none,     none     => pkt
      netpktSetIpSum (netpktSetIpSrcDst pkt ip src dst) ip

end Bklib
