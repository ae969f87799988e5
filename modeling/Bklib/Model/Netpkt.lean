import Bklib.Lib.SeqStream

/-!
# `Bklib.Model.Netpkt`: a parsed packet of `netpkt.c`

The header fields are the numbers that `ntohs` and `ntohl` give. `pktMsg` is the memory around the
message: the message starts at address 0, and what stands before it belongs to the headers.
-/

set_option autoImplicit false

namespace Bklib

open Bklib.Lib

/-- `tcp_seq_t`. -/
abbrev TcpSeq := BitVec 32

/-- `tcp_seq_diff`. -/
def tcpSeqDiff (a b : TcpSeq) : Int := seqDiff a b

/-- What is read of `netpkt_ip`. -/
structure NetpktIp where
  src : UInt32
  dst : UInt32
  p : UInt8
  deriving DecidableEq

/-- What is read of `netpkt_tcp`. -/
structure NetpktTcp where
  source : UInt16
  dest : UInt16
  seq : TcpSeq
  ackSeq : TcpSeq
  resflags : BitVec 8
  window : UInt16
  deriving DecidableEq

/-- What is read of `netpkt_udp`. -/
structure NetpktUdp where
  source : UInt16
  dest : UInt16
  deriving DecidableEq

/-- `bit_get` of one bit. -/
def bitGet (x : BitVec 8) (off : Nat) : Bool := (x >>> off) &&& 1#8 != 0

def tcpFin (tcp : NetpktTcp) : Bool := bitGet tcp.resflags 0

def tcpSyn (tcp : NetpktTcp) : Bool := bitGet tcp.resflags 1

def tcpRst (tcp : NetpktTcp) : Bool := bitGet tcp.resflags 2

def tcpAck (tcp : NetpktTcp) : Bool := bitGet tcp.resflags 4

/-- `struct netpkt`. -/
structure Netpkt where
  pktMsg : Int → UInt8
  pktLen : Int
  pktIp : Option NetpktIp
  pktTcp : Option NetpktTcp
  pktUdp : Option NetpktUdp
  /-- The difference between this sequence number and the expected one, as the tracker sets it. -/
  pktTcpSeqDiff : Int

/-- `tcp_seq_next`. -/
def tcpSeqNext (pkt : Netpkt) : TcpSeq :=
  match pkt.pktTcp with
  | none     => 0
  | some tcp =>
      let seq := tcp.seq + seqOf 32 pkt.pktLen
      let seq := if tcpSyn tcp then seq + 1 else seq
      if tcpFin tcp then seq + 1 else seq

end Bklib
