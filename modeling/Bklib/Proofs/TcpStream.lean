import Bklib.Lib.Run
import Bklib.Proofs.IpConnTrack

/-!
# `Bklib.Proofs.TcpStream`: the bytes that are buffered for one side of a connection

A sender numbers its stream from an initial sequence number on: the SYN takes the first position, the
bytes follow, and the FIN comes last. A segment carries a part of the stream at its position. The
tracker takes the segments of one side as they come, among packets of any other connection, and
`Tracked` says that the buffer of the side is the stream from the first tracked position on.

A segment is placed rightly when it is not one ahead of the expected sequence number, and when a SYN
brings no data that is new (`CopyOk`). The tracker copies a segment that is one ahead from the byte
before its message, and it takes the message of a SYN to start at the position of the SYN itself.
-/

set_option autoImplicit false

namespace Bklib

open Bklib.Lib

/-! ### A stream and its segments -/

/-- What one side of a connection sends. -/
structure TcpStream where
  /-- The position of the SYN. -/
  isn : Int
  data : List UInt8

/-- The byte at a position. -/
def TcpStream.byteAt (st : TcpStream) (p : Int) : Option UInt8 :=
  if st.isn < p then st.data[(p - st.isn - 1).toNat]? else none

/-- The positions that a SYN takes. -/
def synLen (tcp : NetpktTcp) : Int := if tcpSyn tcp then 1 else 0

/-- The packet is the segment of the stream at position `pos`. -/
structure Segment (st : TcpStream) (pos : Int) (tcp : NetpktTcp) (pkt : Netpkt) : Prop where
  tcp_eq : pkt.pktTcp = some tcp
  len : 0 ≤ pkt.pktLen
  seq : tcp.seq = seqOf 32 pos
  syn : tcpSyn tcp = true → pos = st.isn
  fin : tcpFin tcp = true → pos + synLen tcp + pkt.pktLen = st.isn + 1 + st.data.length
  payload : Covers st.byteAt (pos + synLen tcp) (readAt pkt.pktMsg 0 pkt.pktLen.toNat)

/-- The sequence number that the tracker expects of a side when the segment comes. -/
def expectedSeq (q : IpConnTcpQueue) (tcp : NetpktTcp) : TcpSeq :=
  if q.seqOk then q.seq else if tcpSyn tcp then tcp.seq + 1 else tcp.seq

/-- The segment is not one ahead, and a SYN has no data behind what is expected. -/
def CopyOk (q : IpConnTcpQueue) (pkt : Netpkt) : Prop :=
  ∀ tcp, pkt.pktTcp = some tcp → tcpSeqDiff tcp.seq (expectedSeq q tcp) ≠ 1 ∧
    (tcpSyn tcp = true → pkt.pktLen + tcpSeqDiff tcp.seq (expectedSeq q tcp) ≤ 0)

/-- The buffer of a queue is the stream from `first` on, and the next byte is expected. -/
structure QueueOk (st : TcpStream) (first : Option Int) (q : IpConnTcpQueue) : Prop where
  empty : q.seqOk = false → q.buf.elts = []
  stream : q.seqOk = true → ∃ f, first = some f ∧ Covers st.byteAt f q.buf.elts ∧
    q.seq = seqOf 32 (f + q.buf.elts.length)

/-- The segment is less than half the range away from the expected position. -/
def Near (first : Option Int) (q : IpConnTcpQueue) (pos : Int) : Prop :=
  ∀ f ∈ first, q.seqOk = true →
    -2 ^ 31 < pos - (f + q.buf.elts.length) ∧ pos - (f + q.buf.elts.length) < 2 ^ 31

instance (first : Option Int) (q : IpConnTcpQueue) (pos : Int) : Decidable (Near first q pos) :=
  inferInstanceAs (Decidable (∀ f ∈ first, _))

section
variable {st : TcpStream} {first : Option Int} {q : IpConnTcpQueue} {pkt : Netpkt}
  {tcp : NetpktTcp} {pos : Int}

/-- The first data position of a side, with the segment that starts it. -/
def firstAt (first : Option Int) (q : IpConnTcpQueue) (tcp : NetpktTcp) (pos : Int) : Option Int :=
  if q.seqOk then first else some (pos + synLen tcp)

/-- The start of `IpConnTrack_track_stream` leaves the buffer alone. -/
theorem ipConnTrackStart_eq (flags : ConnFlags) (q : IpConnTcpQueue) (tcp : NetpktTcp) :
    ∃ flags' q', ipConnTrackStart flags q tcp = (flags', q') ∧ q'.seqOk = true ∧
      q'.seq = expectedSeq q tcp ∧ q'.buf = q.buf := by
  unfold ipConnTrackStart expectedSeq
  cases hok : q.seqOk <;> cases tcpAck tcp <;> simp [hok]

/-- After the start of `IpConnTrack_track_stream` the queue expects the next position, and the
segment's difference is the one of the positions. -/
theorem ipConnTrackStart_spec (flags : ConnFlags) (hq : QueueOk st first q)
    (hseg : Segment st pos tcp pkt) (hnear : Near first q pos) :
    ∃ flags' q' f, ipConnTrackStart flags q tcp = (flags', q') ∧ q'.seqOk = true ∧
      q'.seq = expectedSeq q tcp ∧ firstAt first q tcp pos = some f ∧
      q'.buf = q.buf ∧ Covers st.byteAt f q'.buf.elts ∧
      q'.seq = seqOf 32 (f + q'.buf.elts.length) ∧
      tcpSeqDiff tcp.seq q'.seq = pos - (f + q'.buf.elts.length) := by
  -- The position that is expected, whether or not the side has started.
  obtain ⟨f, hfirst, hcovers, hexp, hlo, hhi⟩ : ∃ f, firstAt first q tcp pos = some f ∧
      Covers st.byteAt f q.buf.elts ∧
      expectedSeq q tcp = seqOf 32 (f + q.buf.elts.length) ∧
      -2 ^ 31 < pos - (f + q.buf.elts.length) ∧ pos - (f + q.buf.elts.length) < 2 ^ 31 := by
    unfold firstAt expectedSeq
    cases hok : q.seqOk with
    | true =>
        obtain ⟨f, hf, hcovers, hseq⟩ := hq.stream hok
        exact ⟨f, hf, hcovers, hseq, hnear f hf hok⟩
    | false =>
        have hempty := hq.empty hok
        rw [hempty]
        refine ⟨pos + synLen tcp, rfl, covers_nil _ _, ?_, ?_⟩
        · rw [hseg.seq]
          unfold synLen
          cases tcpSyn tcp with
          | true => exact (seqOf_add 32 pos 1).trans (congrArg _ (by simp))
          | false => exact congrArg (seqOf 32) (by simp)
        · have hsyn : synLen tcp = 0 ∨ synLen tcp = 1 := by
            unfold synLen; cases tcpSyn tcp <;> simp
          simp only [List.length_nil]
          omega
  have hdiff : tcpSeqDiff tcp.seq (expectedSeq q tcp) = pos - (f + q.buf.elts.length) := by
    rw [hseg.seq, hexp]
    exact seqDiff_seqOf (by decide) (Int.le_of_lt hlo) hhi
  obtain ⟨flags', q', hstart, hok, hseq, hbuf⟩ := ipConnTrackStart_eq flags q tcp
  rw [← hseq] at hexp hdiff
  rw [← hbuf] at hcovers hexp hdiff
  exact ⟨flags', q', f, hstart, hok, hseq, hfirst, hbuf, hcovers, hexp, hdiff⟩

/-- A piece of the message that is not empty is appended. -/
theorem ipConnBuffer_spec (q : IpConnTcpQueue) (pkt : Netpkt) (src len : Int)
    (hlen : 0 < len) :
    ∃ buf, ipConnBuffer q pkt src len = { q with buf := buf } ∧
      buf.elts = q.buf.elts ++ readAt pkt.pktMsg src len.toNat := by
  have hxs : readAt pkt.pktMsg src len.toNat ≠ [] := by
    rw [← List.length_pos_iff, length_readAt]; omega
  obtain ⟨arr, hadd, helts⟩ := elts_arrayMemcpy_arrayAdd (0 : UInt8) 1 q.buf hxs
  rw [length_readAt, Int.toNat_of_nonneg (Int.le_of_lt hlen)] at hadd
  unfold ipConnBuffer
  rw [hadd]
  exact ⟨_, rfl, helts⟩

/-- A segment keeps the buffer a part of the stream, and brings it up to the end of its message. -/
theorem ipConnTrackStream_spec (flags : ConnFlags) (hq : QueueOk st first q)
    (hseg : Segment st pos tcp pkt) (hnear : Near first q pos) (hcopy : CopyOk q pkt) :
    QueueOk st (firstAt first q tcp pos) (ipConnTrackStream flags q pkt true).2.1 ∧
      (ipConnTrackStream flags q pkt true).2.1.seqOk = true := by
  obtain ⟨flags', q', f, hstart, hok, hexp, hfirst, -, hcovers, hseq, hdiff⟩ :=
    ipConnTrackStart_spec flags hq hseg hnear
  obtain ⟨hone, hsyn⟩ := hcopy tcp hseg.tcp_eq
  rw [← hexp] at hone hsyn
  have hkeep : QueueOk st (firstAt first q tcp pos) q' :=
    ⟨fun h => absurd hok (by simp [h]), fun _ => ⟨f, hfirst, hcovers, hseq⟩⟩
  unfold ipConnTrackStream
  rw [hseg.tcp_eq]
  dsimp only
  rw [hstart]
  dsimp only
  generalize tcpSeqDiff tcp.seq q'.seq = diff at hdiff hone hsyn ⊢
  split
  · exact ⟨hkeep, hok⟩
  · rename_i hfuture
    split
    · exact ⟨hkeep, hok⟩
    · rename_i hnew
      -- There is new data, so the segment is no SYN and starts at or before what is expected.
      have hnosyn : tcpSyn tcp = false := by
        cases hs : tcpSyn tcp with
        | false => rfl
        | true => have := hsyn hs; omega
      have hzero : synLen tcp = 0 := by unfold synLen; rw [hnosyn]; rfl
      have hpayload := hseg.payload
      rw [hzero, Int.add_zero] at hpayload
      have hlen := hseg.len
      obtain ⟨buf, hbuf, helts⟩ := ipConnBuffer_spec
        { q' with seq := q'.seq + seqOf 32 (pkt.pktLen - -diff) } pkt
        (-diff) (pkt.pktLen - -diff) (by omega)
      rw [if_pos rfl, hbuf]
      refine ⟨⟨fun h => absurd hok (by simp [show q'.seqOk = false from h]), fun _ =>
        ⟨f, hfirst, ?_, ?_⟩⟩, hok⟩
      · have hsplice := hcovers.splice hpayload (by omega)
        show Covers st.byteAt f buf.elts
        rw [helts]
        rw [drop_readAt pkt.pktMsg 0 (by omega)] at hsplice
        have hread : readAt pkt.pktMsg (-diff)
              (pkt.pktLen - -diff).toNat
            = readAt pkt.pktMsg (0 + ((f + q'.buf.elts.length - pos).toNat : Int))
              (pkt.pktLen.toNat - (f + q'.buf.elts.length - pos).toNat) := by
          rw [show (-diff : Int)
              = 0 + ((f + q'.buf.elts.length - pos).toNat : Int) by omega,
            show (pkt.pktLen - (0 + ((f + q'.buf.elts.length - pos).toNat : Int))).toNat
              = pkt.pktLen.toNat - (f + q'.buf.elts.length - pos).toNat by omega]
        rw [hread]
        exact hsplice
      · show q'.seq + _ = seqOf 32 (f + buf.elts.length)
        rw [hseq, seqOf_add, helts, List.length_append, length_readAt]
        refine congrArg (seqOf 32) ?_
        push_cast
        omega

end

/-! ### Runs of the tracker -/

/-- A call of `IpConnTrack_track_pkt`, with the position of the packet in the stream of its
sender. -/
structure TrackCall where
  pkt : Netpkt
  trackFlags : ConnFlags
  pos : Int

/-- The key of a packet from a side, read from its key as a packet from the server. -/
def sideKey (side : ConnSide) (key : IpConnAddr) : IpConnAddr :=
  match side with
  | .server => key
  | .client => key.swap

/-- The packet goes from a side of the connection to the other one. -/
def FromSide (key : IpConnAddr) (side : ConnSide) (pkt : Netpkt) : Prop :=
  ∃ ip, pkt.pktIp = some ip ∧ (pkt.pktTcp.isSome ∨ pkt.pktUdp.isSome) ∧
    sideKey side (ipConnServerKey pkt ip) = key

/-- The queue of a side of a connection. -/
def IpConnTrack.queueOf (self : IpConnTrack) (key : IpConnAddr) (side : ConnSide) : IpConnTcpQueue :=
  ((self.conn? key).map (·.queue side)).getD ipConnTcpQueueInit

/-- The tracker takes a packet. Next to it stands the first data position of the side: it is set by
the segment that starts the side's queue. -/
def trackStep (addrOf : Nat → Nat) (key : IpConnAddr) (side : ConnSide) :
    IpConnTrack × Option Int → TrackCall → IpConnTrack × Option Int
  | (s, first), c =>
      let s' := (ipConnTrackPkt addrOf s c.pkt c.trackFlags).1
      (s', if (s.queueOf key side).seqOk then first
        else if (s'.queueOf key side).seqOk then c.pkt.pktTcp.map (c.pos + synLen ·) else none)

/-- A packet of the side is a segment of its stream, near the expected position, and the stream is
to be buffered. -/
def InStream (st : TcpStream) (key : IpConnAddr) (side : ConnSide) (s : IpConnTrack × Option Int)
    (c : TrackCall) : Prop :=
  FromSide key side c.pkt → c.trackFlags.has IPCONN_TRACK_BUFFER = true ∧
    ∃ tcp, Segment st c.pos tcp c.pkt ∧ Near s.2 (s.1.queueOf key side) c.pos

/-- A packet of the side is one that the tracker copies rightly. -/
def CopiesOk (key : IpConnAddr) (side : ConnSide) (s : IpConnTrack × Option Int) (c : TrackCall) :
    Prop :=
  FromSide key side c.pkt → CopyOk (s.1.queueOf key side) c.pkt

/-- What is tracked of a side: its buffer is the stream from the first tracked position on. -/
def Tracked (st : TcpStream) (key : IpConnAddr) (side : ConnSide) (s : IpConnTrack × Option Int) :
    Prop := QueueOk st s.2 (s.1.queueOf key side)

section
variable {addrOf : Nat → Nat} {st : TcpStream} {key : IpConnAddr} {side : ConnSide}

/-- A step that leaves the queue of the side as it was. -/
theorem tracked_of_same {s : IpConnTrack × Option Int} {c : TrackCall}
    (h : Tracked st key side s)
    (hsame : ((ipConnTrackPkt addrOf s.1 c.pkt c.trackFlags).1).queueOf key side
      = s.1.queueOf key side) : Tracked st key side (trackStep addrOf key side s c) := by
  obtain ⟨s, first⟩ := s
  unfold Tracked trackStep
  dsimp only at hsame ⊢
  rw [hsame]
  cases hok : (s.queueOf key side).seqOk with
  | true => exact h
  | false =>
      exact ⟨h.empty, fun hstart => absurd hstart (by rw [hok]; simp)⟩

/-- The record that takes a packet has the queue of the side. -/
theorem ConnFound.queueOf {s : IpConnTrack} {m m' : ConnMap} {serverKey key : IpConnAddr} {p : Nat}
    {addrFlags flags : ConnFlags} {conn : IpConn} (hwf : s.Wf m)
    (h : ConnFound s m serverKey addrFlags m' key p conn flags) (side : ConnSide) :
    s.queueOf key side = conn.queue side ∧ sideKey (sideOf flags) serverKey = key ∧
      (flags.has CONN_PKT_FROM_SERVER = true ∨ flags.has CONN_PKT_FROM_CLIENT = true) := by
  unfold IpConnTrack.queueOf sideOf
  cases h with
  | server p conn hget hconn =>
      have hfrom := has_serverFlags addrFlags
      rw [hwf.conn?_of_get hget rfl, hconn, hfrom]
      exact ⟨rfl, rfl, Or.inl rfl⟩
  | client p conn hno hget hconn =>
      obtain ⟨hserver, hfrom⟩ := has_clientFlags addrFlags
      rw [hwf.conn?_of_get hget rfl, hconn, hserver]
      exact ⟨rfl, rfl, Or.inr hfrom⟩
  | new connFlags hno hnew =>
      obtain ⟨hserver, hfrom⟩ := has_firstFlags addrFlags
      rw [hwf.conn?_eq_none.mpr hnew, hserver]
      exact ⟨by cases side <;> rfl, rfl, Or.inr hfrom⟩

/-- The step lemma: a packet keeps the table well formed and the side tracked. -/
theorem tracked_step {s : IpConnTrack × Option Int} {c : TrackCall}
    (h : (∃ m, s.1.Wf m) ∧ Tracked st key side s)
    (hc : InStream st key side s c ∧ CopiesOk key side s c) :
    (∃ m, (trackStep addrOf key side s c).1.Wf m) ∧
      Tracked st key side (trackStep addrOf key side s c) := by
  obtain ⟨⟨m, hwf⟩, htracked⟩ := h
  obtain ⟨hin, hcopy⟩ := hc
  rcases ipConnTrackPkt_spec addrOf hwf c.pkt c.trackFlags with
    ⟨hignored, -⟩ | ⟨s', m', ip, flags, key', p, conn, pkt', hpkt, hwf', -, hip, hproto, -, hfound,
      hp, hother⟩
  · exact ⟨⟨m, by rw [trackStep, hignored]; exact hwf⟩, tracked_of_same htracked (by rw [hignored])⟩
  · obtain rfl : (ipConnTrackPkt addrOf s.1 c.pkt c.trackFlags).1 = s' := by rw [hpkt]
    have hall := hfound.conn?_eq hwf hwf' hp hother
    refine ⟨⟨m', hwf'⟩, ?_⟩
    obtain ⟨hqueue, hside, hfrom⟩ := hfound.queueOf hwf side
    obtain ⟨flags', diff, hstep⟩ := queue_ipConnTrackConn conn c.pkt c.trackFlags hfrom side
    by_cases hkey : key = key'
    · -- The record of this connection takes the packet.
      subst hkey
      have hnew : (ipConnTrackPkt addrOf s.1 c.pkt c.trackFlags).1.queueOf key side
          = (ipConnTrackConn conn flags c.pkt c.trackFlags).1.queue side := by
        unfold IpConnTrack.queueOf
        rw [hall, if_pos rfl]
        rfl
      rw [← hnew, ← hqueue] at hstep
      by_cases hmine : side = sideOf flags
      · rw [if_pos hmine] at hstep
        have hfromSide : FromSide key side c.pkt := ⟨ip, hip, hproto, hmine ▸ hside⟩
        obtain ⟨hbuffer, tcp, hseg, hnear⟩ := hin hfromSide
        have hseg' : Segment st c.pos tcp { c.pkt with pktTcpSeqDiff := diff } :=
          ⟨hseg.tcp_eq, hseg.len, hseg.seq, hseg.syn, hseg.fin, hseg.payload⟩
        obtain ⟨hqueueOk, hstarted⟩ :=
          ipConnTrackStream_spec flags' htracked hseg' hnear (hcopy hfromSide)
        rw [hbuffer] at hstep
        rw [← hstep] at hqueueOk hstarted
        obtain ⟨s, first⟩ := s
        unfold Tracked trackStep
        dsimp only at hqueueOk hstarted ⊢
        rw [hstarted, if_pos rfl, hseg.tcp_eq]
        exact hqueueOk
      · rw [if_neg hmine] at hstep
        exact tracked_of_same htracked hstep
    · refine tracked_of_same htracked ?_
      unfold IpConnTrack.queueOf
      rw [hall, if_neg hkey]

end

theorem queueOf_ipConnTrackInit (localAddr : List UInt32) (key : IpConnAddr) (side : ConnSide) :
    (ipConnTrackInit localAddr).queueOf key side = ipConnTcpQueueInit := by
  unfold IpConnTrack.queueOf
  rw [(wf_ipConnTrackInit localAddr).conn?_eq, KeyMap.get_empty]
  rfl

/-- In every run whose packets of the side are segments of its stream that the tracker copies
rightly, among any other packets, the buffer of the side is the stream from the first tracked
position on. -/
theorem ipConnTrack_stream (addrOf : Nat → Nat) (localAddr : List UInt32) (key : IpConnAddr)
    (side : ConnSide) (st : TcpStream) (calls : List TrackCall)
    (hstream : AllSteps (InStream st key side) (trackStep addrOf key side)
      (ipConnTrackInit localAddr, none) calls)
    (hcopy : AllSteps (CopiesOk key side) (trackStep addrOf key side)
      (ipConnTrackInit localAddr, none) calls) :
    Tracked st key side
      (run (trackStep addrOf key side) (ipConnTrackInit localAddr, none) calls) := by
  have hinit : (∃ m, (ipConnTrackInit localAddr).Wf m) ∧
      Tracked st key side (ipConnTrackInit localAddr, none) := by
    refine ⟨⟨_, wf_ipConnTrackInit localAddr⟩, ?_⟩
    unfold Tracked
    rw [queueOf_ipConnTrackInit]
    exact ⟨fun _ => rfl, fun hok => absurd hok (by decide)⟩
  exact (run_inv_of_allSteps
    (I := fun s : IpConnTrack × Option Int => (∃ m, s.1.Wf m) ∧ Tracked st key side s)
    (fun s c h hc => tracked_step h hc) hinit (hstream.and hcopy)).2

/-- A packet of a client, with a message. -/
def clientPacket (seq : Int) (resflags : BitVec 8) (msg : List UInt8) : Netpkt where
  pktMsg := writeAt (fun _ => 0) 0 msg
  pktLen := msg.length
  pktIp := some ⟨1, 2, 6⟩
  pktTcp := some ⟨1000, 80, seqOf 32 seq, 0, resflags, 0⟩
  pktUdp := none
  pktTcpSeqDiff := 0

/-- A SYN, two segments that overlap, and one of them again. -/
theorem ipConnTrack_stream_overlap :
    Tracked ⟨100, [7, 8, 9]⟩ ⟨6, 1, 2, 1000, 80⟩ .client
      (run (trackStep id ⟨6, 1, 2, 1000, 80⟩ .client) (ipConnTrackInit [], none)
        [⟨clientPacket 100 2 [], 2, 100⟩, ⟨clientPacket 101 16 [7, 8], 2, 101⟩,
          ⟨clientPacket 102 16 [8, 9], 2, 102⟩, ⟨clientPacket 101 16 [7, 8], 2, 101⟩]) := by
  refine ipConnTrack_stream id [] _ _ _ _ ⟨?_, ?_, ?_, ?_, trivial⟩ ⟨?_, ?_, ?_, ?_, trivial⟩
  · exact fun _ => ⟨rfl, _, ⟨rfl, by decide, rfl, by decide, by decide, by decide⟩, by decide⟩
  · exact fun _ => ⟨rfl, _, ⟨rfl, by decide, rfl, by decide, by decide, by decide⟩, by decide +kernel⟩
  · exact fun _ => ⟨rfl, _, ⟨rfl, by decide, rfl, by decide, by decide, by decide⟩, by decide +kernel⟩
  · exact fun _ => ⟨rfl, _, ⟨rfl, by decide, rfl, by decide, by decide, by decide⟩, by decide +kernel⟩
  all_goals
    intro _ tcp htcp
    cases htcp
    decide +kernel

/-- A connection that opens, sends one byte and closes: the acknowledgement behind the FIN is one
ahead, and a byte that is not of its message is buffered. -/
theorem ipConnTrack_stream_fin :
    AllSteps (InStream ⟨100, [7]⟩ ⟨6, 1, 2, 1000, 80⟩ .client)
        (trackStep id ⟨6, 1, 2, 1000, 80⟩ .client) (ipConnTrackInit [], none)
        [⟨clientPacket 100 2 [], 2, 100⟩, ⟨clientPacket 101 16 [7], 2, 101⟩,
          ⟨clientPacket 102 17 [], 2, 102⟩, ⟨clientPacket 103 16 [], 2, 103⟩] ∧
      ¬ Tracked ⟨100, [7]⟩ ⟨6, 1, 2, 1000, 80⟩ .client
        (run (trackStep id ⟨6, 1, 2, 1000, 80⟩ .client) (ipConnTrackInit [], none)
          [⟨clientPacket 100 2 [], 2, 100⟩, ⟨clientPacket 101 16 [7], 2, 101⟩,
            ⟨clientPacket 102 17 [], 2, 102⟩, ⟨clientPacket 103 16 [], 2, 103⟩]) := by
  refine ⟨⟨?_, ?_, ?_, ?_, trivial⟩, fun h => ?_⟩
  · exact fun _ => ⟨rfl, _, ⟨rfl, by decide, rfl, by decide, by decide, by decide⟩, by decide⟩
  · exact fun _ => ⟨rfl, _, ⟨rfl, by decide, rfl, by decide, by decide, by decide⟩, by decide +kernel⟩
  · exact fun _ => ⟨rfl, _, ⟨rfl, by decide, rfl, by decide, by decide, by decide⟩, by decide +kernel⟩
  · exact fun _ => ⟨rfl, _, ⟨rfl, by decide, rfl, by decide, by decide, by decide⟩, by decide +kernel⟩
  · obtain ⟨f, hf, hcovers, -⟩ := h.stream (by decide +kernel)
    have hfirst : some 101 = some f := by rw [← hf]; decide +kernel
    cases hfirst
    exact absurd (hcovers 1 (by decide +kernel)) (by decide +kernel)

end Bklib
