import Bklib.Lib.Mem
import Bklib.Model.Hash
import Bklib.Model.Libc
import Bklib.Model.Netpkt

/-!
# `Bklib.Model.IpConnTrack`: the connection tracker of `ipconntrack.c`

The tracker keeps one record for each connection in a hash table, by protocol, addresses and ports.
The side that sends the first packet is the client. Every packet updates the counters of its side and
appends the new part of its message to the queue of that side.

A record is allocated once and then changed in place, so the table holds pointers: the value of an
entry is the index of its record in `conns`, and the key is the address in that record, which never
changes. The times of a record and the fields of a queue that no function sets are not modelled.
-/

set_option autoImplicit false

namespace Bklib

open Bklib.Lib

/-- A set of flags, an `int`. -/
abbrev ConnFlags := BitVec 32

def CONN_STATE_SYN : Int := 1

def CONN_STATE_FIN : Int := 3

/-- `conn->conn_flags`. -/
def CONN_LOCAL_SERVER : ConnFlags := 1#32

def CONN_LOCAL_CLIENT : ConnFlags := 2#32

/-- `conn->conn_pkt_flags`. -/
def CONN_PKT_FROM_CLIENT : ConnFlags := 1#32

def CONN_PKT_FROM_SERVER : ConnFlags := 2#32

def CONN_PKT_FIRST : ConnFlags := 4#32

def CONN_PKT_LOCAL_SRC : ConnFlags := 32#32

def CONN_PKT_LOCAL_DST : ConnFlags := 64#32

def CONN_PKT_TCP_MISSED_SYN : ConnFlags := 4096#32

def CONN_PKT_TCP_FUTURE_SEQ : ConnFlags := 8192#32

/-- Only track local packets. -/
def IPCONN_TRACK_LOCAL : ConnFlags := 1#32

/-- Save stream buffers. -/
def IPCONN_TRACK_BUFFER : ConnFlags := 2#32

/-- Some of `flags` are set in `x`. -/
def ConnFlags.has (x flags : ConnFlags) : Bool := x &&& flags != 0

/-- `IpConnStats`. -/
structure IpConnStats where
  tcpSeqNextOk : Bool
  tcpSeqNext : TcpSeq
  packets : UInt64
  bytes : UInt64
  deriving DecidableEq

/-- `IpConnAddr`. Every field is stored in four bytes. -/
structure IpConnAddr where
  proto : UInt32
  clientAddr : UInt32
  serverAddr : UInt32
  clientPort : UInt32
  serverPort : UInt32
  deriving DecidableEq

/-- `IpConnTcpQueue`. -/
structure IpConnTcpQueue where
  seqOk : Bool
  /-- The last acknowledgement sent. -/
  ack : TcpSeq
  /-- The next expected sequence number, if `seqOk`. -/
  seq : TcpSeq
  /-- The first sequence number, if `seqOk`. -/
  seqSyn : TcpSeq
  win : UInt16
  buf : ArrayT UInt8
  deriving DecidableEq

/-- `IpConn`. -/
structure IpConn where
  connAddr : IpConnAddr
  connState : Int
  connFlags : ConnFlags
  /-- The flags of the last packet. -/
  connPktFlags : ConnFlags
  connStatsClient : IpConnStats
  connStatsServer : IpConnStats
  queueServer : IpConnTcpQueue
  queueClient : IpConnTcpQueue
  deriving DecidableEq

/-- One of the two sides of a connection. -/
inductive ConnSide where
  | client
  | server
  deriving DecidableEq

/-- The queue of a side. -/
def IpConn.queue (conn : IpConn) : ConnSide → IpConnTcpQueue
  | .client => conn.queueClient
  | .server => conn.queueServer

/-- `IpConnTrack`, with the records that were allocated. -/
structure IpConnTrack where
  mConnHash : HashT IpConnAddr Nat
  mLocalAddrs : ArrayT UInt32
  conns : List IpConn

/-! ### Keys -/

/-- The bytes of a word in memory. -/
def bytesLe (x : UInt32) : List UInt8 :=
  [x.toUInt8, (x >>> 8).toUInt8, (x >>> 16).toUInt8, (x >>> 24).toUInt8]

/-- The bytes of an address. -/
def IpConnAddr.bytes (a : IpConnAddr) : List UInt8 :=
  bytesLe a.proto ++ bytesLe a.clientAddr ++ bytesLe a.serverAddr ++ bytesLe a.clientPort
    ++ bytesLe a.serverPort

/-- `IpConn_hash`. -/
def ipConnHash (key : IpConnAddr) : UInt64 := hashStrElf key.bytes 0

/-- `IpConn_cmp`. -/
def ipConnCmp (a b : IpConnAddr) : Int := memcmp a.bytes b.bytes

/-- The swap of client and server in `IpConnTrack_track_pkt`. -/
def IpConnAddr.swap (a : IpConnAddr) : IpConnAddr :=
  { a with
    clientAddr := a.serverAddr
    serverAddr := a.clientAddr
    clientPort := a.serverPort
    serverPort := a.clientPort }

/-! ### Initial values -/

def ipConnStatsInit : IpConnStats := ⟨false, 0, 0, 0⟩

def ipConnTcpQueueInit : IpConnTcpQueue := ⟨false, 0, 0, 0, 0, arrayInit 0⟩

/-- `IpConn_init` of a record for `key`. -/
def ipConnInit (key : IpConnAddr) (connState : Int) (connFlags : ConnFlags) : IpConn where
  connAddr := key
  connState := connState
  connFlags := connFlags
  connPktFlags := 0
  connStatsClient := ipConnStatsInit
  connStatsServer := ipConnStatsInit
  queueServer := ipConnTcpQueueInit
  queueClient := ipConnTcpQueueInit

/-- `IpConnTrack_init`. -/
def ipConnTrackInit (localAddr : List UInt32) : IpConnTrack where
  mConnHash := hashInit ipConnHash ipConnCmp 0 0 0
  mLocalAddrs := { (arrayInit 0 : ArrayT UInt32) with elts := localAddr }
  conns := []

/-! ### A packet on its record -/

/-- The counters of one side in `IpConnTrack_track_state`. The result has the `pkt_tcp_seq_diff` of
the packet. -/
def ipConnStatsTrack (st : IpConnStats) (pkt : Netpkt) : IpConnStats × Int :=
  let st := { st with packets := st.packets + 1, bytes := st.bytes + UInt64.ofInt pkt.pktLen }
  match pkt.pktTcp with
  | none     => (st, 0)
  | some tcp =>
      if !st.tcpSeqNextOk || tcp.seq == st.tcpSeqNext then
        ({ st with
            tcpSeqNext := if tcpSyn tcp then tcp.seq + 1 else tcp.seq + seqOf 32 pkt.pktLen
            tcpSeqNextOk := true }, 0)
      else (st, tcpSeqDiff tcp.seq st.tcpSeqNext)

/-- The local flags that `IpConnTrack_track_state` adds: `src` when the sender is a local side, `dst`
when the receiver is one. -/
def ipConnLocalFlags (flags src dst : ConnFlags) : ConnFlags :=
  (if flags.has src then CONN_PKT_LOCAL_SRC else 0)
    ||| (if flags.has dst then CONN_PKT_LOCAL_DST else 0)

/-- The first part of `IpConnTrack_track_state`: the flags and counters of the sender's side. -/
def ipConnTrackSide (conn : IpConn) (pkt : Netpkt) : IpConn × Netpkt :=
  if conn.connPktFlags.has CONN_PKT_FROM_CLIENT then
    let (st, diff) := ipConnStatsTrack conn.connStatsClient pkt
    ({ conn with
        connPktFlags := conn.connPktFlags
          ||| ipConnLocalFlags conn.connFlags CONN_LOCAL_CLIENT CONN_LOCAL_SERVER
        connStatsClient := st }, { pkt with pktTcpSeqDiff := diff })
  else if conn.connPktFlags.has CONN_PKT_FROM_SERVER then
    let (st, diff) := ipConnStatsTrack conn.connStatsServer pkt
    ({ conn with
        connPktFlags := conn.connPktFlags
          ||| ipConnLocalFlags conn.connFlags CONN_LOCAL_SERVER CONN_LOCAL_CLIENT
        connStatsServer := st }, { pkt with pktTcpSeqDiff := diff })
  else (conn, pkt)

/-- `IpConnTrack_track_state`. -/
def ipConnTrackState (conn : IpConn) (pkt : Netpkt) : IpConn × Netpkt :=
  let (conn, pkt) := ipConnTrackSide conn pkt
  let closing := pkt.pktTcp.any fun tcp => tcpFin tcp || tcpRst tcp
  (if closing then { conn with connState := CONN_STATE_FIN } else conn, pkt)

/-- The end of `IpConnTrack_track_stream`: `len` bytes from `src` on are appended to the buffer. No
pointer into the buffer is kept, so the address that it moves to does not matter. -/
def ipConnBuffer (queue : IpConnTcpQueue) (pkt : Netpkt) (src len : Int) : IpConnTcpQueue :=
  match arrayAdd 0 1 queue.buf len with
  | (buf, some dst) => { queue with buf := arrayMemcpy buf dst (readAt pkt.pktMsg src len.toNat) }
  | (buf, none)     => { queue with buf := buf }

/-- The start of `IpConnTrack_track_stream` on a TCP packet: acknowledgement, window, and the first
sequence number of the side. -/
def ipConnTrackStart (flags : ConnFlags) (queue : IpConnTcpQueue) (tcp : NetpktTcp) :
    ConnFlags × IpConnTcpQueue :=
  let queue := if tcpAck tcp then { queue with ack := tcp.ackSeq } else queue
  let queue := { queue with win := tcp.window }
  if queue.seqOk then (flags, queue)
  else
    (if tcpSyn tcp then flags else flags ||| CONN_PKT_TCP_MISSED_SYN,
      { queue with
        seqSyn := tcp.seq
        seq := if tcpSyn tcp then tcp.seq + 1 else tcp.seq
        seqOk := true })

/-- `IpConnTrack_track_stream`, on the flags of the record and one of its queues. -/
def ipConnTrackStream (flags : ConnFlags) (queue : IpConnTcpQueue) (pkt : Netpkt)
    (bufferStream : Bool) : ConnFlags × IpConnTcpQueue × Int :=
  match pkt.pktTcp with
  | some tcp =>
      let (flags, queue) := ipConnTrackStart flags queue tcp
      let diff := tcpSeqDiff tcp.seq queue.seq
      if diff > 1 then (flags ||| CONN_PKT_TCP_FUTURE_SEQ, queue, diff)
      else
        let src := -diff
        let len := pkt.pktLen - -diff
        if len ≤ 0 then (flags, queue, diff)
        else
          let queue := { queue with seq := queue.seq + seqOf 32 len }
          (flags, if bufferStream then ipConnBuffer queue pkt src len else queue, diff)
  | none =>
      (flags, if bufferStream then ipConnBuffer queue pkt 0 pkt.pktLen else queue, 0)

/-- What `IpConnTrack_track_pkt` does with the record of the packet. -/
def ipConnTrackConn (conn : IpConn) (flags : ConnFlags) (pkt : Netpkt) (trackFlags : ConnFlags) :
    IpConn × Netpkt :=
  let (conn, pkt) := ipConnTrackState { conn with connPktFlags := flags } pkt
  let buffer := trackFlags.has IPCONN_TRACK_BUFFER
  if conn.connPktFlags.has CONN_PKT_FROM_SERVER then
    let (flags, queue, _) := ipConnTrackStream conn.connPktFlags conn.queueServer pkt buffer
    ({ conn with connPktFlags := flags, queueServer := queue }, pkt)
  else if conn.connPktFlags.has CONN_PKT_FROM_CLIENT then
    let (flags, queue, _) := ipConnTrackStream conn.connPktFlags conn.queueClient pkt buffer
    ({ conn with connPktFlags := flags, queueClient := queue }, pkt)
  else (conn, pkt)

/-! ### The table -/

/-- The flags of a packet by the local addresses, and whether it is local. -/
def ipConnLocal (addrs : List UInt32) (ip : NetpktIp) : ConnFlags × Bool :=
  addrs.foldl
    (fun r addr =>
      let r := if ip.src = addr then (r.1 ||| CONN_PKT_LOCAL_SRC, true) else r
      if ip.dst = addr then (r.1 ||| CONN_PKT_LOCAL_DST, true) else r)
    (0, false)

/-- The key of a packet from server to client. -/
def ipConnServerKey (pkt : Netpkt) (ip : NetpktIp) : IpConnAddr where
  proto := ip.p.toUInt32
  clientAddr := ip.dst
  serverAddr := ip.src
  clientPort :=
    match pkt.pktTcp, pkt.pktUdp with
    | some tcp, _        => tcp.dest.toUInt32
    | none,     some udp => udp.dest.toUInt32
    | none,     none     => 0
  serverPort :=
    match pkt.pktTcp, pkt.pktUdp with
    | some tcp, _        => tcp.source.toUInt32
    | none,     some udp => udp.source.toUInt32
    | none,     none     => 0

section
variable (addrOf : Nat → Nat)

/-- A record for a connection that starts with the packet. -/
def ipConnTrackNew (self : IpConnTrack) (key : IpConnAddr) (flags : ConnFlags) :
    IpConnTrack × Option NodeRef × ConnFlags :=
  let flags := flags ||| CONN_PKT_FIRST
  let connFlags := (if flags.has CONN_PKT_LOCAL_DST then CONN_LOCAL_SERVER else 0)
    ||| (if flags.has CONN_PKT_LOCAL_SRC then CONN_LOCAL_CLIENT else 0)
  let conn := ipConnInit key CONN_STATE_SYN connFlags
  let (hash, node) := hashPut addrOf self.mConnHash key (some self.conns.length)
  ({ self with mConnHash := hash, conns := self.conns ++ [conn] }, node, flags)

/-- The node of a packet, found from server to client, from client to server, or new, with the
flags of the packet. -/
def ipConnTrackFind (self : IpConnTrack) (key : IpConnAddr) (flags : ConnFlags) :
    IpConnTrack × Option NodeRef × ConnFlags :=
  let flags := flags ||| CONN_PKT_FROM_SERVER
  match hashGet self.mConnHash key with
  | (hash, some node) => ({ self with mConnHash := hash }, some node, flags)
  | (hash, none)      =>
      let flags := (flags &&& ~~~CONN_PKT_FROM_SERVER) ||| CONN_PKT_FROM_CLIENT
      match hashGet hash key.swap with
      | (hash, some node) => ({ self with mConnHash := hash }, some node, flags)
      | (hash, none)      => ipConnTrackNew addrOf { self with mConnHash := hash } key.swap flags

/-- `IpConnTrack_track_pkt`. The result is the record of the packet, a pointer, and the packet. -/
def ipConnTrackPkt (self : IpConnTrack) (pkt : Netpkt) (trackFlags : ConnFlags) :
    IpConnTrack × Option Nat × Netpkt :=
  match pkt.pktIp with
  | none    => (self, none, pkt)
  | some ip =>
      if pkt.pktTcp.isNone && pkt.pktUdp.isNone then (self, none, pkt)
      else
        let (flags, isLocal) := ipConnLocal self.mLocalAddrs.elts ip
        if trackFlags.has IPCONN_TRACK_LOCAL && !isLocal then (self, none, pkt)
        else
          match ipConnTrackFind addrOf self (ipConnServerKey pkt ip) flags with
          | (self, node, flags) =>
              match node.bind self.mConnHash.readVal with
              | none   => (self, none, pkt)
              | some p =>
                  match self.conns[p]? with
                  | none      => (self, none, pkt)  -- a dangling pointer: never the case
                  | some conn =>
                      let (conn, pkt) := ipConnTrackConn conn flags pkt trackFlags
                      ({ self with conns := self.conns.set p conn }, some p, pkt)

/-- `IpConnTrack_conn_get`. -/
def ipConnTrackConnGet (self : IpConnTrack) (addr : IpConnAddr) : IpConnTrack × Option Nat :=
  match hashGet self.mConnHash addr with
  | (hash, node) => ({ self with mConnHash := hash }, node.bind hash.readVal)

/-- `IpConnTrack_conn_count`. -/
def ipConnTrackConnCount (self : IpConnTrack) : Int := hashCount self.mConnHash

/-- `IpConnTrack_conn_delete`. The record is freed: nothing points to it any more. -/
def ipConnTrackConnDelete (self : IpConnTrack) (p : Nat) : IpConnTrack :=
  match self.conns[p]? with
  | none      => self
  | some conn => { self with mConnHash := hashRemove self.mConnHash conn.connAddr }

end

end Bklib
