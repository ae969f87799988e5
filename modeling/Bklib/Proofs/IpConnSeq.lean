import Bklib.Lib.Expect
import Bklib.Proofs.ConnIdentity
import Bklib.Proofs.TcpStream

/-!
# `Bklib.Proofs.IpConnSeq`: the sequence numbers that the tracker expects

`IpConnTrack_track_state` notes the sequence number that it expects next of each side: behind a SYN
the one after it, and behind any other segment that of its length. `tcp_seq_next` counts the SYN, the
FIN and the message, whatever the segment has of them. On the segments that a side sends in order the
two agree as long as only the last one has a FIN, or a SYN with a message.

* `seqDiff_zero_iff`: these are the runs in which every segment is an expected one.
-/

set_option autoImplicit false

namespace Bklib

open Bklib.Lib

/-- A packet that `IpConnTrack_track_pkt` has a record for, with the flags that it gives the record:
one of the two sides has sent it. -/
structure ConnCall where
  flags : ConnFlags
  pkt : Netpkt
  trackFlags : ConnFlags
  oneSide : flags.has CONN_PKT_FROM_CLIENT = !flags.has CONN_PKT_FROM_SERVER

/-- The tracker finds the record of a packet with such flags. -/
theorem ConnFound.oneSide {s : IpConnTrack} {m m' : ConnMap} {addrs : List UInt32} {ip : NetpktIp}
    {key key' : IpConnAddr} {p : Nat} {conn : IpConn} {flags : ConnFlags}
    (h : ConnFound s m key (ipConnLocal addrs ip).1 m' key' p conn flags) :
    flags.has CONN_PKT_FROM_CLIENT = !flags.has CONN_PKT_FROM_SERVER := by
  cases h with
  | server =>
      rw [has_serverFlags, serverFlags, has_or, identityFlag_client.local]
      rfl
  | client =>
      rw [(has_clientFlags _).1, (has_clientFlags _).2]
      rfl
  | new =>
      rw [(has_firstFlags _).1, (has_firstFlags _).2]
      rfl

/-- The record takes the packet. -/
def recordStep (conn : IpConn) (c : ConnCall) : IpConn :=
  (ipConnTrackConn conn c.flags c.pkt c.trackFlags).1

/-- The packet, if it is a segment of the side. -/
def ConnCall.segment (side : ConnSide) (c : ConnCall) : Option Netpkt :=
  if sideOf c.flags = side ∧ c.pkt.pktTcp.isSome then some c.pkt else none

/-- A segment of the side leaves the tracker with no sequence difference. -/
def SeqDiffZero (side : ConnSide) (conn : IpConn) (c : ConnCall) : Prop :=
  (c.segment side).isSome →
    (ipConnTrackConn conn c.flags c.pkt c.trackFlags).2.pktTcpSeqDiff = 0

/-- The sequence number of a segment. -/
def tcpSeq (pkt : Netpkt) : TcpSeq := (pkt.pktTcp.map (·.seq)).getD 0

/-- The segments of a side, one where the one before it ends. -/
def InOrder (segments : List Netpkt) : Prop :=
  segments.IsChain fun a b => tcpSeq b = tcpSeqNext a

/-- A segment that the tracker counts as `tcp_seq_next` does: a SYN with nothing else, or no SYN and
no FIN. -/
def CountedAlike (pkt : Netpkt) : Prop :=
  ∀ tcp, pkt.pktTcp = some tcp →
    if tcpSyn tcp then seqOf 32 (pkt.pktLen + if tcpFin tcp then 1 else 0) = 0
    else tcpFin tcp = false

/-- What the tracker expects behind a segment. -/
def trackedNext (pkt : Netpkt) : TcpSeq :=
  match pkt.pktTcp with
  | none     => 0
  | some tcp => if tcpSyn tcp then tcp.seq + 1 else tcp.seq + seqOf 32 pkt.pktLen

/-- The tracker and `tcp_seq_next` agree on the segments that they count alike. -/
theorem tcpSeqNext_eq_iff (pkt : Netpkt) :
    tcpSeqNext pkt = trackedNext pkt ↔ CountedAlike pkt := by
  unfold tcpSeqNext trackedNext CountedAlike
  cases htcp : pkt.pktTcp with
  | none => simp
  | some tcp =>
      simp only [Option.some.injEq, forall_eq']
      have hcancel : ∀ a l : TcpSeq, a + l + 1 = a + 1 ↔ l = 0 := by
        intro a l
        grind
      have hcount : seqOf 32 (pkt.pktLen + 1) = seqOf 32 pkt.pktLen + 1 :=
        (seqOf_add 32 pkt.pktLen 1).symm
      cases hsyn : tcpSyn tcp <;> cases hfin : tcpFin tcp
      · simp
      · simp
      · simp
      · simp only [if_true, hcount]
        rw [BitVec.add_assoc tcp.seq]
        exact hcancel tcp.seq (seqOf 32 pkt.pktLen + 1)

/-! ### What a packet does to its record -/

/-- The sequence number that is expected next, if there is one. -/
def IpConnStats.expect (st : IpConnStats) : Option TcpSeq :=
  if st.tcpSeqNextOk then some st.tcpSeqNext else none

theorem ipConnStatsTrack_none (st : IpConnStats) {pkt : Netpkt} (h : pkt.pktTcp = none) :
    (ipConnStatsTrack st pkt).1.expect = st.expect := by
  unfold ipConnStatsTrack
  rw [h]
  rfl

theorem tcpSeqDiff_eq_zero {a b : TcpSeq} : tcpSeqDiff a b = 0 ↔ a = b := by
  unfold tcpSeqDiff seqDiff
  rw [← BitVec.toInt_zero (w := 32), BitVec.toInt_inj, BitVec.sub_eq_iff_eq_add]
  simp

/-- A segment is an expected one exactly when it has no sequence difference, and then the next one
is expected behind it. -/
theorem ipConnStatsTrack_some (st : IpConnStats) {pkt : Netpkt} (h : pkt.pktTcp.isSome) :
    ((ipConnStatsTrack st pkt).2 = 0 ↔ ∀ x ∈ st.expect, tcpSeq pkt = x) ∧
      ((∀ x ∈ st.expect, tcpSeq pkt = x) →
        (ipConnStatsTrack st pkt).1.expect = some (trackedNext pkt)) := by
  obtain ⟨tcp, htcp⟩ := Option.isSome_iff_exists.mp h
  have hseq : tcpSeq pkt = tcp.seq := by
    rw [tcpSeq, htcp]
    rfl
  have hnext : trackedNext pkt =
      if tcpSyn tcp then tcp.seq + 1 else tcp.seq + seqOf 32 pkt.pktLen := by
    rw [trackedNext, htcp]
  unfold ipConnStatsTrack IpConnStats.expect
  rw [htcp, hseq, hnext]
  dsimp only
  cases hok : st.tcpSeqNextOk with
  | false => simp
  | true =>
      by_cases heq : tcp.seq = st.tcpSeqNext
      · simp [heq]
      · simp [heq, tcpSeqDiff_eq_zero]

/-- The record of a packet from one side has the counters of the other side as they were. -/
theorem stats_ipConnTrackSide (conn : IpConn) (pkt : Netpkt)
    (hone : conn.connPktFlags.has CONN_PKT_FROM_CLIENT = !conn.connPktFlags.has CONN_PKT_FROM_SERVER)
    (side : ConnSide) :
    (ipConnTrackSide conn pkt).1.stats side =
        (if side = sideOf conn.connPktFlags then (ipConnStatsTrack (conn.stats side) pkt).1
        else conn.stats side) ∧
      (ipConnTrackSide conn pkt).2.pktTcpSeqDiff =
        (ipConnStatsTrack (conn.stats (sideOf conn.connPktFlags)) pkt).2 := by
  unfold ipConnTrackSide sideOf
  rw [hone]
  cases conn.connPktFlags.has CONN_PKT_FROM_SERVER with
  | true => cases side <;> exact ⟨rfl, rfl⟩
  | false => cases side <;> exact ⟨rfl, rfl⟩

/-- A packet goes into the counters of its side. -/
theorem stats_recordStep (conn : IpConn) (c : ConnCall) (side : ConnSide) :
    (recordStep conn c).stats side =
        (if side = sideOf c.flags then (ipConnStatsTrack (conn.stats side) c.pkt).1
        else conn.stats side) ∧
      (ipConnTrackConn conn c.flags c.pkt c.trackFlags).2.pktTcpSeqDiff =
        (ipConnStatsTrack (conn.stats (sideOf c.flags)) c.pkt).2 := by
  have hside := stats_ipConnTrackSide { conn with connPktFlags := c.flags } c.pkt c.oneSide side
  have hstats := stats_ipConnTrackConn conn c.flags c.pkt c.trackFlags side
  -- The rest changes nothing of the packet.
  have hdiff : (ipConnTrackConn conn c.flags c.pkt c.trackFlags).2 =
      (ipConnTrackSide { conn with connPktFlags := c.flags } c.pkt).2 := by
    unfold ipConnTrackConn ipConnTrackState
    dsimp only
    repeat' split
    all_goals rfl
  rw [recordStep, hstats, hdiff]
  exact ⟨hside.1.trans (by cases side <;> rfl), hside.2.trans (by cases sideOf c.flags <;> rfl)⟩

/-! ### Runs -/

section
variable (side : ConnSide)

/-- The record as the receiver of the segments of a side. -/
theorem receiver_recordStep : Receiver recordStep (ConnCall.segment side) tcpSeq trackedNext
    fun conn => (conn.stats side).expect where
  skip conn c hnone := by
    show ((recordStep conn c).stats side).expect = _
    rw [(stats_recordStep conn c side).1]
    unfold ConnCall.segment at hnone
    split
    · rename_i hmine
      have htcp : c.pkt.pktTcp = none := by
        cases htcp : c.pkt.pktTcp <;> simp_all
      exact ipConnStatsTrack_none _ htcp
    · rfl
  take conn c pkt hsome htake := by
    show ((recordStep conn c).stats side).expect = _
    unfold ConnCall.segment at hsome
    obtain ⟨⟨hmine, htcp⟩, rfl⟩ := Option.ite_some_none_eq_some.mp hsome
    rw [(stats_recordStep conn c side).1, if_pos hmine.symm]
    exact (ipConnStatsTrack_some _ htcp).2 htake

/-- A segment is an expected one exactly when it has no sequence difference. -/
theorem seqDiffZero_iff (conn : IpConn) (c : ConnCall) :
    SeqDiffZero side conn c ↔
      Expected (ConnCall.segment side) tcpSeq (fun conn => (conn.stats side).expect) conn c := by
  unfold SeqDiffZero Expected
  cases hseg : c.segment side with
  | none => simp
  | some pkt =>
      unfold ConnCall.segment at hseg
      obtain ⟨⟨hmine, htcp⟩, rfl⟩ := Option.ite_some_none_eq_some.mp hseg
      rw [(stats_recordStep conn c side).2, hmine]
      simpa using (ipConnStatsTrack_some (conn.stats side) htcp).1

end

/-- The segments that a side sends in order, among any packets of the other side, have no sequence
difference exactly when the tracker counts all but the last one as `tcp_seq_next` does. -/
theorem seqDiff_zero_iff (key : IpConnAddr) (connState : Int) (connFlags : ConnFlags)
    (side : ConnSide) (calls : List ConnCall)
    (horder : InOrder (calls.filterMap (ConnCall.segment side))) :
    AllSteps (SeqDiffZero side) recordStep (ipConnInit key connState connFlags) calls ↔
      ∀ pkt ∈ (calls.filterMap (ConnCall.segment side)).dropLast, CountedAlike pkt := by
  have hzero : SeqDiffZero side = Expected (ConnCall.segment side) tcpSeq
      (fun conn => (conn.stats side).expect) := by
    funext conn c
    exact propext (seqDiffZero_iff side conn c)
  have hinit : ((ipConnInit key connState connFlags).stats side).expect = none := by
    cases side <;> rfl
  rw [hzero, allSteps_expected_iff (receiver_recordStep side), hinit, ← isChain_left_iff]
  have hfirst : ∀ segments, Consecutive tcpSeq trackedNext none segments ↔
      segments.IsChain fun a b => tcpSeq b = trackedNext a := fun segments => by simp [Consecutive]
  rw [hfirst]
  refine isChain_congr (fun a b hab => ?_) horder
  rw [hab]
  exact tcpSeqNext_eq_iff a

/-- A connection that opens, sends two bytes and closes, with the SYN of the server between. -/
def closingCalls : List ConnCall :=
  [⟨1, clientPacket 100 2 [], 0, rfl⟩, ⟨2, clientPacket 300 18 [], 0, rfl⟩,
    ⟨1, clientPacket 101 16 [7, 8], 0, rfl⟩, ⟨1, clientPacket 103 17 [], 0, rfl⟩]

/-- A connection that closes keeps the difference zero. -/
theorem seqDiff_zero_closing :
    AllSteps (SeqDiffZero .client) recordStep (ipConnInit ⟨6, 1, 2, 1000, 80⟩ CONN_STATE_SYN 0)
      closingCalls := by
  refine (seqDiff_zero_iff _ _ _ .client closingCalls ?_).mpr ?_
  · exact .cons_cons (by decide) (.cons_cons (by decide) (.singleton _))
  · intro pkt hpkt tcp htcp
    have hsegments : (closingCalls.filterMap (ConnCall.segment .client)).dropLast =
      [clientPacket 100 2 [], clientPacket 101 16 [7, 8]] := rfl
    rw [hsegments, List.mem_cons, List.mem_singleton] at hpkt
    rcases hpkt with rfl | rfl
    all_goals
      cases htcp
      decide

/-- The client acknowledges the last segments of the server. -/
def closedCalls : List ConnCall := closingCalls ++ [⟨1, clientPacket 104 16 [], 0, rfl⟩]

/-- The acknowledgement that follows the FIN is one ahead of what the tracker expects. -/
theorem seqDiff_behind_fin :
    InOrder (closedCalls.filterMap (ConnCall.segment .client)) ∧
      ¬ AllSteps (SeqDiffZero .client) recordStep (ipConnInit ⟨6, 1, 2, 1000, 80⟩ CONN_STATE_SYN 0)
        closedCalls := by
  constructor
  · exact .cons_cons (by decide) (.cons_cons (by decide) (.cons_cons (by decide) (.singleton _)))
  · intro h
    exact absurd (h.2.2.2.2.1 rfl) (by decide +kernel)

end Bklib
