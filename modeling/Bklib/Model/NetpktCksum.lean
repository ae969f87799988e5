import Bklib.Model.CInt
import Bklib.Model.NetpktMem

/-!
# `Bklib.Model.NetpktCksum`: the checksums in `int`s

`Bklib.Model.NetpktMem` has the sums as natural numbers. Here they are the `int`s of the code, and
where an addition overflows there is no result. `len` is exact: it is the difference of a 16-bit
number and a header of 60 bytes at most.
-/

set_option autoImplicit false

namespace Bklib

open Bklib.Lib

/-- `htons ((short) x)` and `ntohs ((short) x)`: a `short` may be negative, and the parameter is
unsigned. -/
def htonsOfShort (x : Int) : Nat := htons (toInt16 x % 65536).toNat

/-- The loop of `netpkt_cksum_in`, and the odd byte behind it. -/
def netpktCksumInLoop : List UInt8 → Int → Option Int
  | b0 :: b1 :: rest, sum => (intAdd sum (le16 b0 b1)).bind (netpktCksumInLoop rest)
  | [b],              sum => intAdd sum (htonsOfShort (b.toNat * 256))
  | [],               sum => some sum

/-- `netpkt_cksum_in`. -/
def netpktCksumInInt (buf : List UInt8) : Option Int := netpktCksumInLoop buf 0

/-- `netpkt_cksum_in_final`. `& 0xffff` is `% 65536`, of a negative number too. -/
def netpktCksumInFinalInt (sum : Int) : Option Int := do
  let sum ← intAdd (sum >>> (16 : Nat)) (sum % 65536)
  let sum ← intAdd sum (sum >>> (16 : Nat))
  return ~~~sum % 65536

/-- `len` in both checksums: the bytes behind the IP header. -/
def segmentLen (mem : Int → UInt8) (ip : Int) : Int := ipLen mem ip - ipHl mem ip * 4

/-- `sum` and `hdr` of `netpkt_cksum_tcp`, added up. The checksum is already 0 in memory. -/
def netpktCksumTcpSum (mem : Int → UInt8) (ip tcp : Int) : Option Int := do
  let len := segmentLen mem ip
  let sum ← intAdd 0 (← netpktCksumInInt (readAt mem tcp len.toNat))
  let hdr ← intAdd 0 (← netpktCksumInInt (readAt mem (ip + 12) 8))
  let hdr ← intAdd hdr (htons (ipP mem ip))
  let hdr ← intAdd hdr (htonsOfShort len)
  intAdd sum hdr

/-- `sum` of `netpkt_cksum_udp`, with everything in it. -/
def netpktCksumUdpSum (mem : Int → UInt8) (ip udp : Int) : Option Int := do
  let len := segmentLen mem ip
  let sum ← intAdd 0 (← netpktCksumInInt (readAt mem udp len.toNat))
  let sum ← intAdd sum (← netpktCksumInInt (readAt mem (ip + 12) 8))
  let sum ← intAdd sum (htons (ipP mem ip))
  intAdd sum (htonsOfShort len)

/-- `netpkt_cksum_tcp`. It follows a null pointer when there is no IP header. -/
def netpktCksumTcpInt (pkt : NetpktMem) : Option Int :=
  match pkt.pktIp, pkt.pktTcp with
  | _,       none     => some 0
  | none,    some _   => none
  | some ip, some tcp =>
      (netpktCksumTcpSum (put16 pkt.mem (tcpCheckAt tcp) 0) ip tcp).bind netpktCksumInFinalInt

/-- `netpkt_cksum_udp`, in the same way. -/
def netpktCksumUdpInt (pkt : NetpktMem) : Option Int :=
  match pkt.pktIp, pkt.pktUdp with
  | _,       none     => some 0
  | none,    some _   => none
  | some ip, some udp =>
      (netpktCksumUdpSum (put16 pkt.mem (udpCheckAt udp) 0) ip udp).bind netpktCksumInFinalInt

end Bklib
