import Bklib.Model.IpConnTrack
import Bklib.Model.NetpktMem

/-!
# `Bklib.Model.IpTrack`: the connection recorder of `ipconntrack_db.c`

The recorder gives every packet to the tracker and remembers it in a list of its connection. A flush
writes the packets of the list into the table `pkt` and their data to the log of the connection. No
more than a few logs are open: the one whose connection was silent for the longest time is closed
to open another.

The clock is a `double` of which only comparisons matter. The database has the rows that were
inserted, and `rowid` is the `conn_id` of the last row of `conn`. A file is its content, and a log
that is open is written at its end. SQL statements and file operations succeed. The dump of raw
packets shares nothing with the rest and is not modelled.
-/

set_option autoImplicit false

namespace Bklib

open Bklib.Lib

/-- The clock `mstime_t`. -/
structure MstimeOps (T : Type) where
  zero : T
  /-- `a < b`. -/
  less : T → T → Bool
  /-- `time - last > conn_timeout`. -/
  timedOut : T → T → Bool

/-- `IpTrackConnVargPkt`. The queue is one of the two of the connection. -/
structure IpTrackConnVargPkt (T : Type) where
  queue : ConnSide
  /-- The end of this packet in `queue->buf`. -/
  endOff : Nat
  time : T
  fromServer : Int
  rawLen : Int

/-- `IpTrackConnVarg`. The log is open when `fd` is not null. -/
structure IpTrackConnVarg (T : Type) where
  vpkt : ArrayT (IpTrackConnVargPkt T)
  fd : Bool
  off : Nat
  fname : List UInt8
  connId : Nat

/-- What the recorder reads of an `IpConn` besides the tracker's part of it. -/
structure IpTrackConn (T : Type) where
  connTimeLast : T
  connClosed : Bool
  connVarg : Option (IpTrackConnVarg T)

/-- A row of the table `conn`, as it is inserted. -/
structure IpTrackConnRow (T : Type) where
  connId : Nat
  timeFirst : T
  timeLast : T
  isOpen : Bool
  proto : List UInt8
  addr : IpConnAddr

/-- A row of the table `pkt`. -/
structure IpTrackPktRow (T : Type) where
  connId : Nat
  time : T
  fromServer : Int
  msgOff : Nat
  msgLen : Int
  rawLen : Int

/-- `IpTrack`, with the database and the files. `recs` goes with the records of the tracker. -/
structure IpTrack (T : Type) where
  ipconntrack : IpConnTrack
  recs : List (IpTrackConn T)
  rowid : Nat
  connRows : List (IpTrackConnRow T)
  pktRows : List (IpTrackPktRow T)
  logDir : List UInt8
  files : List UInt8 → List UInt8
  fdOpen : Int
  fdMax : Int
  time : T

/-! ## Packets -/

/-- The headers of a packet as the tracker reads them. -/
def NetpktMem.netpkt (pkt : NetpktMem) : Netpkt where
  pktMsg i := pkt.mem (pkt.pktMsg + i)
  pktLen := pkt.pktLen
  pktIp := pkt.pktIp.map fun ip =>
    { src := get32 pkt.mem (ip + 12), dst := get32 pkt.mem (ip + 16), p := pkt.mem (ip + 9) }
  pktTcp := pkt.pktTcp.map fun tcp =>
    { source := UInt16.ofNat (htons (get16 pkt.mem tcp))
      dest := UInt16.ofNat (htons (get16 pkt.mem (tcp + 2)))
      seq := (htonl (get32 pkt.mem (tcp + 4))).toBitVec
      ackSeq := (htonl (get32 pkt.mem (tcp + 8))).toBitVec
      resflags := (pkt.mem (tcp + 13)).toBitVec
      window := UInt16.ofNat (htons (get16 pkt.mem (tcp + 14))) }
  pktUdp := pkt.pktUdp.map fun udp =>
    { source := UInt16.ofNat (htons (get16 pkt.mem udp))
      dest := UInt16.ofNat (htons (get16 pkt.mem (udp + 2))) }
  pktTcpSeqDiff := 0

/-- `netpkt_ntoa`: an address, which is in network order, in decimal. -/
def netpktNtoa (addr : UInt32) : List UInt8 :=
  List.intercalate (bytes ".") ((bytesLe addr).map fun b => bytes (toString b.toNat))

/-! ## The record of a connection -/

variable {T : Type}

/-- An element that `array_add` has zeroed. -/
def ipTrackConnVargPktZero (clock : MstimeOps T) : IpTrackConnVargPkt T :=
  ⟨.client, 0, clock.zero, 0, 0⟩

/-- A record that `IpConn_init` has zeroed. -/
def ipTrackConnInit (clock : MstimeOps T) : IpTrackConn T := ⟨clock.zero, false, none⟩

/-- `IpTrack_init`, with the files as they are and a database whose last `conn_id` is `rowid`. -/
def ipTrackInit (clock : MstimeOps T) (logDir : List UInt8) (rowid : Nat)
    (files : List UInt8 → List UInt8) : IpTrack T where
  ipconntrack := ipConnTrackInit []
  recs := []
  rowid := rowid
  connRows := []
  pktRows := []
  logDir := logDir
  files := files
  fdOpen := 0
  fdMax := 5
  time := clock.zero

namespace IpTrack

/-- `conn->conn_varg`. -/
def varg? (self : IpTrack T) (p : Nat) : Option (IpTrackConnVarg T) :=
  self.recs[p]?.bind (·.connVarg)

/-- A change of the record of `p`. -/
def modifyRec (self : IpTrack T) (p : Nat) (f : IpTrackConn T → IpTrackConn T) : IpTrack T :=
  { self with recs := self.recs.modify p f }

/-- A change of `*conn->conn_varg`. -/
def modifyVarg (self : IpTrack T) (p : Nat) (f : IpTrackConnVarg T → IpTrackConnVarg T) :
    IpTrack T :=
  self.modifyRec p fun conn => { conn with connVarg := conn.connVarg.map f }

/-- The hash table, seen from a callback of `hash_foreach`. -/
def setHash (self : IpTrack T) (hash : HashT IpConnAddr Nat) : IpTrack T :=
  { self with ipconntrack := { self.ipconntrack with mConnHash := hash } }

end IpTrack

/-! ## `IpTrack_foreach_flush` -/

section
variable (clock : MstimeOps T)

/-- `IpTrack_foreach_lru_varg`: `lru` is the oldest connection with an open log. -/
def ipTrackForeachLruVarg (self : IpTrack T) (hash : HashT IpConnAddr Nat) (node : NodeRef)
    (lru : Option Nat) : HashT IpConnAddr Nat × Option Nat × Int :=
  match (hash.readVal node).bind fun p => self.recs[p]?.map fun conn => (p, conn) with
  | none           => (hash, lru, 0)
  | some (p, conn) =>
      let older := match lru.bind (self.recs[·]?) with
        | none     => true
        | some old => clock.less conn.connTimeLast old.connTimeLast
      (hash, if conn.connVarg.any (·.fd) && older then some p else lru, 0)

/-- The search for the log to close, over all connections. -/
def ipTrackLru (self : IpTrack T) : IpTrack T × Option Nat :=
  match hashForeach (ipTrackForeachLruVarg clock self) self.ipconntrack.mConnHash none with
  | (hash, lru, _) => (self.setHash hash, lru)

/-- `fclose`, and one open log less. -/
def ipTrackCloseLog (self : IpTrack T) (p : Nat) : IpTrack T :=
  { self.modifyVarg p fun varg => { varg with fd := false } with fdOpen := self.fdOpen - 1 }

/-- A log is closed when too many are open: false when there is none. -/
def ipTrackEvict (self : IpTrack T) : IpTrack T × Bool :=
  if self.fdOpen > self.fdMax then
    match ipTrackLru clock self with
    | (self, none)     => (self, false)
    | (self, some lru) => (ipTrackCloseLog self lru, true)
  else (self, true)

/-- `fopen` of a log at its end, and one open log more. -/
def ipTrackOpenLog (self : IpTrack T) (p : Nat) : IpTrack T :=
  { self.modifyVarg p fun varg => { varg with fd := true, off := (self.files varg.fname).length }
    with fdOpen := self.fdOpen + 1 }

/-- `fwrite` to a log, and `varg->off += i`. -/
def ipTrackWriteLog (self : IpTrack T) (p : Nat) (data : List UInt8) : IpTrack T :=
  match self.varg? p with
  | none      => self
  | some varg =>
      { self.modifyVarg p fun varg => { varg with off := varg.off + data.length } with
        files := fun fname =>
          if fname = varg.fname then self.files fname ++ data else self.files fname }

/-- The insertion of a packet into the database. The raw length is that of the packet `first`. -/
def ipTrackInsertPkt (self : IpTrack T) (varg : IpTrackConnVarg T)
    (first vpkt : IpTrackConnVargPkt T) (msgLen : Int) : IpTrack T :=
  { self with
    pktRows := self.pktRows ++
      [{ connId := varg.connId
         time := vpkt.time
         fromServer := vpkt.fromServer
         msgOff := varg.off
         msgLen := msgLen
         rawLen := first.rawLen }] }

/-- Where the data of a packet starts in its queue: the end of the last packet of that queue among
the first `i` of the list. -/
def ipTrackPktOff (vpkts : List (IpTrackConnVargPkt T)) (queue : ConnSide) : Nat → Nat
  | 0     => 0
  | i + 1 =>
      match vpkts[i]? with
      | none      => 0
      | some vpkt => if vpkt.queue = queue then vpkt.endOff else ipTrackPktOff vpkts queue i

/-- One round of the loop over the packets: false when the loop ends with it. -/
def ipTrackFlushPkt (self : IpTrack T) (p : Nat) (vpkts : List (IpTrackConnVargPkt T))
    (first vpkt : IpTrackConnVargPkt T) (idx : Nat) : IpTrack T × Bool :=
  match self.varg? p, self.ipconntrack.conns[p]? with
  | some varg, some conn =>
      let off := ipTrackPktOff vpkts vpkt.queue idx
      let i : Int := vpkt.endOff - off
      let self := ipTrackInsertPkt self varg first vpkt i
      if i > 0 then
        let data := ((conn.queue vpkt.queue).buf.elts.drop off).take i.toNat
        if varg.fd then (ipTrackWriteLog self p data, true)
        else
          match ipTrackEvict clock self with
          | (self, false) => (self, false)
          | (self, true)  => (ipTrackWriteLog (ipTrackOpenLog self p) p data, true)
      else (self, true)
  | _,         _         => (self, false)  -- a dangling pointer: never the case

/-- The loop over the packets, from packet `idx` on, `n` of them. -/
def ipTrackFlushLoop (p : Nat) (vpkts : List (IpTrackConnVargPkt T)) :
    Nat → Nat → IpTrack T → IpTrack T
  | _,   0,     self => self
  | idx, n + 1, self =>
      match vpkts[0]?, vpkts[idx]? with
      | some first, some vpkt =>
          match ipTrackFlushPkt clock self p vpkts first vpkt idx with
          | (self, true)  => ipTrackFlushLoop p vpkts (idx + 1) n self
          | (self, false) => self
      | _,          _         => self

/-- `array_clear` of the packets and of both queues. -/
def ipTrackClear (self : IpTrack T) (p : Nat) : IpTrack T :=
  let self := self.modifyVarg p fun varg => { varg with vpkt := arrayClear varg.vpkt }
  { self with
    ipconntrack :=
      { self.ipconntrack with
        conns := self.ipconntrack.conns.modify p fun conn =>
          { conn with
            queueServer := { conn.queueServer with buf := arrayClear conn.queueServer.buf }
            queueClient := { conn.queueClient with buf := arrayClear conn.queueClient.buf } } } }

/-- The end of a connection. The count goes down whether or not its log is open. -/
def ipTrackClose (self : IpTrack T) (p : Nat) (varg : IpTrackConnVarg T) : IpTrack T :=
  let self := self.modifyRec p fun conn => { conn with connVarg := none }
  { self with
    connRows := self.connRows.map fun row =>
      if row.connId = varg.connId then { row with isOpen := false } else row
    fdOpen := self.fdOpen - 1
    ipconntrack := ipConnTrackConnDelete self.ipconntrack p }

/-- A connection that is closed, or that was silent for too long. -/
def ipTrackExpired (self : IpTrack T) (conn : IpTrackConn T) : Bool :=
  conn.connClosed || clock.timedOut self.time conn.connTimeLast

/-- `IpTrack_foreach_flush` of the connection `p`. The last packet of the list is left out. -/
def ipTrackFlush (self : IpTrack T) (p : Nat) : IpTrack T :=
  match self.recs[p]?, self.varg? p with
  | some conn, some varg =>
      let self := ipTrackFlushLoop clock p varg.vpkt.elts 0 (arrayCount varg.vpkt - 1) self
      let self := ipTrackClear self p
      match self.varg? p with
      | none      => self
      | some varg => if ipTrackExpired clock self conn then ipTrackClose self p varg else self
  | _,         _         => self

/-- `IpTrack_foreach_flush`. -/
def ipTrackForeachFlush (hash : HashT IpConnAddr Nat) (node : NodeRef) (self : IpTrack T) :
    HashT IpConnAddr Nat × IpTrack T × Int :=
  match hash.readVal node with
  | none   => (hash, self.setHash hash, 0)
  | some p =>
      let self := ipTrackFlush clock (self.setHash hash) p
      (self.ipconntrack.mConnHash, self, 0)

/-- A flush of all connections at the time `time`. -/
def ipTrackFlushAll (self : IpTrack T) (time : T) : IpTrack T :=
  match hashForeach (ipTrackForeachFlush clock) self.ipconntrack.mConnHash
      { self with time := time } with
  | (hash, self, _) => self.setHash hash

end

/-! ## `IpTrack_pktbuf` -/

/-- The protocol label. -/
def ipTrackProto (proto : UInt32) : List UInt8 :=
  if proto.toNat = ipprotoTcp then bytes "tcp"
  else if proto.toNat = ipprotoUdp then bytes "udp"
  else bytes "ip-" ++ bytes (toString proto.toNat)

/-- `varg->fname`, which has room for 1023 bytes. -/
def ipTrackFname (logDir : List UInt8) (addr : IpConnAddr) (connId : Nat) : List UInt8 :=
  (logDir ++ bytes "/" ++ ipTrackProto addr.proto
    ++ bytes "-" ++ netpktNtoa addr.serverAddr ++ bytes ":" ++ bytes (toString addr.serverPort.toNat)
    ++ bytes "-" ++ netpktNtoa addr.clientAddr ++ bytes ":" ++ bytes (toString addr.clientPort.toNat)
    ++ bytes "-" ++ bytes (toString connId) ++ bytes ".raw").take 1023

section
variable (clock : MstimeOps T) (addrOf : Nat → Nat)

/-- A new connection: a row of `conn`, and `conn->conn_varg`. -/
def ipTrackNewConn (self : IpTrack T) (p : Nat) (conn : IpConn) (now : T) : IpTrack T :=
  let connId := self.rowid + 1
  let varg : IpTrackConnVarg T :=
    { vpkt := arrayInit 0
      fd := false
      off := 0
      fname := ipTrackFname self.logDir conn.connAddr connId
      connId := connId }
  { self.modifyRec p fun conn => { conn with connVarg := some varg } with
    rowid := connId
    connRows := self.connRows ++
      [{ connId := connId
         timeFirst := now
         timeLast := now
         isOpen := true
         proto := ipTrackProto conn.connAddr.proto
         addr := conn.connAddr }] }

/-- The tracker has put the packet into the queue of its side, and `IpConnTrack_track_state` has set
`conn_time_last`. A record that the tracker has just allocated is new here too. -/
def ipTrackTouch (self : IpTrack T) (track : IpConnTrack) (p : Nat) (now : T) : IpTrack T :=
  let recs := if p < self.recs.length then self.recs else self.recs ++ [ipTrackConnInit clock]
  { self with
    ipconntrack := track
    recs := recs.modify p fun conn => { conn with connTimeLast := now } }

/-- The packet is recorded. It is written at the next flush. -/
def ipTrackRecord (self : IpTrack T) (p : Nat) (vpkt : IpTrackConnVargPkt T) : IpTrack T :=
  self.modifyVarg p fun varg =>
    { varg with vpkt := (arrayAppend (ipTrackConnVargPktZero clock) 0 varg.vpkt vpkt).1 }

/-- `IpTrack_pktbuf` on a packet of `pktlen` bytes at address 0, at the time `now`. -/
def ipTrackPktbuf (self : IpTrack T) (now : T) (pktbuf : Int → UInt8) (pktlen : Int) :
    IpTrack T × Int :=
  match netpktParseEther (netpktInit pktbuf 0 pktlen) with
  | (i, pkt) =>
      if i ≠ 0 then (self, -1)
      else if pkt.pktIp.isNone then (self, 0)
      else
        match ipConnTrackPkt addrOf self.ipconntrack pkt.netpkt IPCONN_TRACK_BUFFER with
        | (track, p, _) =>
            match p.bind fun p => track.conns[p]?.map fun conn => (p, conn) with
            | none           => ({ self with ipconntrack := track }, -1)
            | some (p, conn) =>
                let self := ipTrackTouch clock self track p now
                let fromServer : Int :=
                  if conn.connPktFlags.has CONN_PKT_FROM_SERVER then 1
                  else if conn.connPktFlags.has CONN_PKT_FROM_CLIENT then 0 else -1
                let queue : ConnSide :=
                  if conn.connPktFlags.has CONN_PKT_FROM_SERVER then .server else .client
                let self :=
                  if conn.connPktFlags.has CONN_PKT_FIRST then ipTrackNewConn self p conn now
                  else self
                match self.varg? p with
                | none   => (self, -1)
                | some _ =>
                    (ipTrackRecord clock self p
                      { queue := queue
                        endOff := arrayCount (conn.queue queue).buf
                        time := now
                        fromServer := fromServer
                        rawLen := pkt.pktRawlen }, 0)

end

end Bklib
