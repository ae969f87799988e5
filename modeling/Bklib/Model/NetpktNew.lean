import Bklib.Model.NetpktMem

/-!
# `Bklib.Model.NetpktNew`: `netpkt_new_udp`

The message and the packet that is answered do not overlap the buffer: the message is the list of its
bytes, and the packet has a memory of its own.
-/

set_option autoImplicit false

namespace Bklib

open Bklib.Lib

/-- `bit_set (x, len, off, bits)`, as an `u8`. -/
def bitSet (x len off bits : UInt8) : UInt8 :=
  (x &&& ~~~(((1 <<< len) - 1) <<< off)) ||| (bits <<< off)

/-- `ip_v_set (ip, 4); ip_hl_set (ip, 5)`. -/
def ipVhSet (mem : Int → UInt8) (ip : Int) : Int → UInt8 :=
  let mem := writeAt mem ip [bitSet (mem ip) 4 4 4]
  writeAt mem ip [bitSet (mem ip) 4 0 5]

/-- `htons ((short) n)`. -/
def htonsShort (n : Int) : Nat := htons (n % 65536).toNat

/-- The headers of a new packet, whose message ends at `stop`. -/
def netpktNewUdpHdrs (mem : Int → UInt8) (ip udp stop : Int) : Int → UInt8 :=
  let mem := ipVhSet mem ip
  let mem := put16 mem (ip + 4) 1
  let mem := put16 mem (ip + 2) (htonsShort (stop - ip))
  let mem := writeAt mem (ip + 8) [255]
  let mem := writeAt mem (ip + 9) [UInt8.ofNat ipprotoUdp]
  put16 mem (udp + 4) (htonsShort (stop - udp))

/-- The addresses and ports of `replyto`, the other way round. -/
def netpktNewUdpReply (mem : Int → UInt8) (eth ip udp : Int) (replyto : NetpktMem) : Int → UInt8 :=
  let eth' := replyto.pktEth.getD 0
  let ip' := replyto.pktIp.getD 0
  let udp' := replyto.pktUdp.getD 0
  let mem := writeAt mem (eth + 6) (readAt replyto.mem eth' 6)
  let mem := writeAt mem eth (readAt replyto.mem (eth' + 6) 6)
  let mem := put32 mem (ip + 12) (get32 replyto.mem (ip' + 16))
  let mem := put32 mem (ip + 16) (get32 replyto.mem (ip' + 12))
  let mem := put16 mem udp (get16 replyto.mem (udp' + 2))
  put16 mem (udp + 2) (get16 replyto.mem udp')

/-- `netpkt_new_udp`, which never fails. -/
def netpktNewUdp (mem : Int → UInt8) (buf buflen : Int) (msg : List UInt8)
    (replyto : Option NetpktMem) : NetpktMem :=
  let pkt := netpktInit (writeAt mem buf (List.replicate buflen.toNat 0)) buf buflen
  let eth := pkt.pktMsg
  let ip := eth + sizeofEther
  let udp := ip + sizeofIp
  let p := udp + sizeofUdp
  let stop := p + msg.length
  let mem := put16 pkt.mem (eth + 12) (htons ethertypeIp)
  let mem := writeAt mem p msg
  let pkt :=
    { pkt with
      mem := netpktNewUdpHdrs mem ip udp stop
      pktEth := some eth
      pktIp := some ip
      pktUdp := some udp
      pktMsg := p
      pktLen := msg.length
      pktRawlen := stop - pkt.pktRaw }
  match replyto with
  | none         => pkt
  | some replyto =>
      netpktCksumSet { pkt with mem := netpktNewUdpReply pkt.mem eth ip udp replyto }

end Bklib
