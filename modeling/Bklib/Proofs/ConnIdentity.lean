import Mathlib.Data.Sym.Sym2
import Bklib.Lib.Run
import Bklib.Lib.Trace
import Bklib.Proofs.IpConnTrack

/-!
# `Bklib.Proofs.ConnIdentity`: which record a packet belongs to

A log of the tracker lists for every packet the record that took it, with the flags of the packet,
and every record that was deleted. `EventOk` says of a packet what its record and its flags have to
be by the log so far: the live record of an earlier packet between the same two endpoints, or else a
new one, whose first sender is the client from then on.

`Identified` is the invariant of the tracker and its log. A key leads to the live record of its two
endpoints, and the table never has a key together with the reversed one, so the order of the two
searches of `IpConnTrack_track_pkt` does not matter.
-/

set_option autoImplicit false

namespace Bklib

open Bklib.Lib

/-! ### Endpoints -/

/-- An endpoint of a connection. -/
structure Endpoint where
  addr : UInt32
  port : UInt16
  deriving DecidableEq

/-- The protocol and the endpoints of a packet. -/
structure Flow where
  proto : UInt8
  sender : Endpoint
  receiver : Endpoint
  deriving DecidableEq

/-- The ports of the sender and the receiver. -/
def Netpkt.ports (pkt : Netpkt) : UInt16 × UInt16 :=
  match pkt.pktTcp, pkt.pktUdp with
  | some tcp, _        => (tcp.source, tcp.dest)
  | none,     some udp => (udp.source, udp.dest)
  | none,     none     => (0, 0)

/-- The flow of an IP packet. -/
def Netpkt.flow (pkt : Netpkt) : Flow :=
  let ip := pkt.pktIp.getD ⟨0, 0, 0⟩
  ⟨ip.p, ⟨ip.src, pkt.ports.1⟩, ⟨ip.dst, pkt.ports.2⟩⟩

/-- The same protocol and the same two endpoints, in whatever order. -/
def Flow.Same (f g : Flow) : Prop :=
  f.proto = g.proto ∧ s(f.sender, f.receiver) = s(g.sender, g.receiver)

/-- The key of a connection whose client is the sender. -/
def Flow.key (f : Flow) : IpConnAddr where
  proto := f.proto.toUInt32
  clientAddr := f.sender.addr
  serverAddr := f.receiver.addr
  clientPort := f.sender.port.toUInt32
  serverPort := f.receiver.port.toUInt32

@[simp] theorem IpConnAddr.swap_swap (key : IpConnAddr) : key.swap.swap = key := rfl

theorem endpoint_ext_iff {a b : Endpoint} :
    a = b ↔ a.addr = b.addr ∧ a.port.toUInt32 = b.port.toUInt32 := by
  cases a
  cases b
  rw [Endpoint.mk.injEq, UInt16.toUInt32_inj]

theorem Flow.key_eq_iff {f g : Flow} :
    f.key = g.key ↔ f.proto = g.proto ∧ f.sender = g.sender ∧ f.receiver = g.receiver := by
  rw [endpoint_ext_iff, endpoint_ext_iff]
  simp only [Flow.key, IpConnAddr.mk.injEq, UInt8.toUInt32_inj]
  tauto

theorem Flow.key_eq_swap_iff {f g : Flow} :
    f.key = g.key.swap ↔ f.proto = g.proto ∧ f.sender = g.receiver ∧ f.receiver = g.sender := by
  rw [endpoint_ext_iff, endpoint_ext_iff]
  simp only [Flow.key, IpConnAddr.swap, IpConnAddr.mk.injEq, UInt8.toUInt32_inj]
  tauto

/-- Two flows are of one connection when one has the key of the other or the reversed key. -/
theorem Flow.same_iff {f g : Flow} : f.Same g ↔ f.key = g.key ∨ f.key = g.key.swap := by
  rw [Flow.key_eq_iff, Flow.key_eq_swap_iff, Flow.Same, Sym2.eq_iff]
  tauto

theorem Flow.key_ne_swap {f : Flow} (h : f.sender ≠ f.receiver) : f.key ≠ f.key.swap := by
  intro hkey
  exact h (Flow.key_eq_swap_iff.mp hkey).2.1

/-- The key that the tracker looks up first is that of the answer. -/
theorem ipConnServerKey_eq {pkt : Netpkt} {ip : NetpktIp} (hip : pkt.pktIp = some ip) :
    ipConnServerKey pkt ip = pkt.flow.key.swap := by
  unfold ipConnServerKey Netpkt.flow Netpkt.ports Flow.key IpConnAddr.swap
  rw [hip]
  cases pkt.pktTcp with
  | some tcp => rfl
  | none => cases pkt.pktUdp <;> rfl

/-! ### A packet on its record -/

/-- A flag that neither the local addresses nor the stream set. -/
structure IdentityFlag (flag : ConnFlags) : Prop where
  localSrc : CONN_PKT_LOCAL_SRC.has flag = false
  localDst : CONN_PKT_LOCAL_DST.has flag = false
  missedSyn : CONN_PKT_TCP_MISSED_SYN.has flag = false
  futureSeq : CONN_PKT_TCP_FUTURE_SEQ.has flag = false

theorem identityFlag_first : IdentityFlag CONN_PKT_FIRST := ⟨rfl, rfl, rfl, rfl⟩

theorem identityFlag_client : IdentityFlag CONN_PKT_FROM_CLIENT := ⟨rfl, rfl, rfl, rfl⟩

theorem identityFlag_server : IdentityFlag CONN_PKT_FROM_SERVER := ⟨rfl, rfl, rfl, rfl⟩

section
variable {flag : ConnFlags} (hflag : IdentityFlag flag)
include hflag

/-- The local flags are none of the identity. -/
theorem IdentityFlag.localFlags (flags src dst : ConnFlags) :
    (ipConnLocalFlags flags src dst).has flag = false := by
  have hzero : ConnFlags.has 0 flag = false := by simp [ConnFlags.has]
  unfold ipConnLocalFlags
  rw [has_or, Bool.or_eq_false_iff]
  constructor
  · split
    · exact hflag.localSrc
    · exact hzero
  · split
    · exact hflag.localDst
    · exact hzero

/-- The flags of the local addresses. -/
theorem IdentityFlag.local (addrs : List UInt32) (ip : NetpktIp) :
    (ipConnLocal addrs ip).1.has flag = false := by
  have hloop : ∀ (addrs : List UInt32) (r : ConnFlags × Bool), r.1.has flag = false →
      (addrs.foldl (fun r addr =>
        let r := if ip.src = addr then (r.1 ||| CONN_PKT_LOCAL_SRC, true) else r
        if ip.dst = addr then (r.1 ||| CONN_PKT_LOCAL_DST, true) else r) r).1.has flag = false := by
    intro addrs
    induction addrs with
    | nil => intro r hr; exact hr
    | cons addr addrs ih =>
        intro r hr
        have hsrc : (if ip.src = addr then (r.1 ||| CONN_PKT_LOCAL_SRC, true) else r).1.has flag
            = false := by
          split
          · rw [has_or, hr, hflag.localSrc]
            rfl
          · exact hr
        refine ih _ ?_
        dsimp only
        split
        · rw [has_or, hsrc, hflag.localDst]
          rfl
        · exact hsrc
  exact hloop addrs _ (by simp [ConnFlags.has])

/-- Following a stream leaves the flags of the identity. -/
theorem IdentityFlag.stream (flags : ConnFlags) (queue : IpConnTcpQueue) (pkt : Netpkt)
    (buffer : Bool) :
    (ipConnTrackStream flags queue pkt buffer).1.has flag = flags.has flag := by
  have hstart : ∀ tcp, (ipConnTrackStart flags queue tcp).1.has flag = flags.has flag := by
    intro tcp
    unfold ipConnTrackStart
    dsimp only
    generalize (if tcpAck tcp then _ else queue : IpConnTcpQueue) = acked
    split
    · rfl
    · dsimp only
      split
      · rfl
      · rw [has_or, hflag.missedSyn, Bool.or_false]
  unfold ipConnTrackStream
  cases pkt.pktTcp with
  | none => rfl
  | some tcp =>
      dsimp only
      split
      · rw [has_or, hstart, hflag.futureSeq, Bool.or_false]
      · split <;> exact hstart tcp

/-- The flag is in the record what it was found to be. -/
theorem IdentityFlag.conn (conn : IpConn) (flags : ConnFlags) (pkt : Netpkt)
    (trackFlags : ConnFlags) :
    (ipConnTrackConn conn flags pkt trackFlags).1.connPktFlags.has flag = flags.has flag := by
  have hstate : (ipConnTrackState { conn with connPktFlags := flags } pkt).1.connPktFlags.has flag
      = flags.has flag := by
    have hside : (ipConnTrackSide { conn with connPktFlags := flags } pkt).1.connPktFlags.has flag
        = flags.has flag := by
      unfold ipConnTrackSide
      split
      · dsimp only
        rw [has_or, hflag.localFlags, Bool.or_false]
      · split
        · dsimp only
          rw [has_or, hflag.localFlags, Bool.or_false]
        · rfl
    rw [← hside]
    unfold ipConnTrackState
    dsimp only
    split <;> rfl
  rw [← hstate]
  unfold ipConnTrackConn
  dsimp only
  split
  · exact hflag.stream _ _ _ _
  · split
    · exact hflag.stream _ _ _ _
    · rfl

end

/-- The counters of a side. -/
def IpConn.stats (conn : IpConn) : ConnSide → IpConnStats
  | .client => conn.connStatsClient
  | .server => conn.connStatsServer

/-- The counters are what the first part of `IpConnTrack_track_state` makes of them. -/
theorem stats_ipConnTrackConn (conn : IpConn) (flags : ConnFlags) (pkt : Netpkt)
    (trackFlags : ConnFlags) (side : ConnSide) :
    (ipConnTrackConn conn flags pkt trackFlags).1.stats side
      = (ipConnTrackSide { conn with connPktFlags := flags } pkt).1.stats side := by
  have hstate : (ipConnTrackState { conn with connPktFlags := flags } pkt).1.stats side
      = (ipConnTrackSide { conn with connPktFlags := flags } pkt).1.stats side := by
    unfold ipConnTrackState
    dsimp only
    cases side <;> split <;> rfl
  rw [← hstate]
  unfold ipConnTrackConn
  dsimp only
  split
  · cases side <;> rfl
  · split
    · cases side <;> rfl
    · rfl

/-- A packet is counted once. -/
theorem packets_ipConnStatsTrack (st : IpConnStats) (pkt : Netpkt) :
    (ipConnStatsTrack st pkt).1.packets = st.packets + 1 := by
  unfold ipConnStatsTrack
  cases pkt.pktTcp with
  | none => rfl
  | some tcp =>
      dsimp only
      split <;> rfl

/-- A packet counts for its side, and only for that one. -/
theorem packets_ipConnTrackConn (conn : IpConn) {flags : ConnFlags} (pkt : Netpkt)
    (trackFlags : ConnFlags)
    (hfrom : flags.has CONN_PKT_FROM_SERVER = !flags.has CONN_PKT_FROM_CLIENT) (side : ConnSide) :
    ((ipConnTrackConn conn flags pkt trackFlags).1.stats side).packets
      = (conn.stats side).packets + if side = sideOf flags then 1 else 0 := by
  rw [stats_ipConnTrackConn]
  unfold ipConnTrackSide sideOf
  dsimp only
  cases hc : flags.has CONN_PKT_FROM_CLIENT with
  | true =>
      have hs : flags.has CONN_PKT_FROM_SERVER = false := by rw [hfrom, hc]; rfl
      rw [if_pos rfl, hs]
      cases side with
      | client => exact packets_ipConnStatsTrack _ _
      | server => exact (UInt64.add_zero _).symm
  | false =>
      have hs : flags.has CONN_PKT_FROM_SERVER = true := by rw [hfrom, hc]; rfl
      rw [if_neg (by decide), hs, if_pos rfl]
      cases side with
      | client => exact (UInt64.add_zero _).symm
      | server => exact packets_ipConnStatsTrack _ _

/-! ### The log -/

/-- What a user of the tracker does. A record is deleted by its pointer. -/
inductive TrackOp where
  | track (pkt : Netpkt) (trackFlags : ConnFlags)
  | delete (p : Nat)

/-- What happened: a packet was taken by the record at `p`, with these flags afterwards, or it was
ignored, or the record at `p` was deleted. -/
inductive TrackEvent where
  | tracked (p : Nat) (flow : Flow) (flags : ConnFlags)
  | ignored (pkt : Netpkt) (trackFlags : ConnFlags)
  | deleted (p : Nat)

/-- A tracker with its log. -/
structure TrackRun where
  track : IpConnTrack
  log : List TrackEvent

/-- A step of the tracker. -/
def connStep (addrOf : Nat → Nat) (s : TrackRun) : TrackOp → TrackRun
  | .track pkt trackFlags =>
      match ipConnTrackPkt addrOf s.track pkt trackFlags with
      | (track, none, _)   => ⟨track, s.log ++ [.ignored pkt trackFlags]⟩
      | (track, some p, _) =>
          ⟨track, s.log ++ [.tracked p pkt.flow (track.conns[p]?.elim 0 (·.connPktFlags))]⟩
  | .delete p => ⟨ipConnTrackConnDelete s.track p, s.log ++ [.deleted p]⟩

/-- The flow of a packet that the record at `p` took. -/
def TrackEvent.flow? (p : Nat) : TrackEvent → Option Flow
  | .tracked q flow _ => if q = p then some flow else none
  | _                 => none

@[simp] theorem TrackEvent.flow?_ignored (p : Nat) (pkt : Netpkt) (trackFlags : ConnFlags) :
    (TrackEvent.ignored pkt trackFlags).flow? p = none := rfl

@[simp] theorem TrackEvent.flow?_deleted (p q : Nat) : (TrackEvent.deleted q).flow? p = none := rfl

/-- The packets that the record at `p` took. -/
def flowsOf (p : Nat) (log : List TrackEvent) : List Flow := log.filterMap (·.flow? p)

/-- The record at `p` is in use. A record has an index of its own: none is used again. -/
def Live (log : List TrackEvent) (p : Nat) : Prop := flowsOf p log ≠ [] ∧ .deleted p ∉ log

/-- What a user owes: the endpoints of a TCP or UDP packet differ, and only a record in use is
deleted. -/
def TrackOp.Valid (s : TrackRun) : TrackOp → Prop
  | .track pkt _ =>
      pkt.pktTcp.isSome ∨ pkt.pktUdp.isSome → pkt.flow.sender ≠ pkt.flow.receiver
  | .delete p  => Live s.log p

/-- What the log says of an event, by the log before it. -/
def EventOk (localAddr : List UInt32) (pre : List TrackEvent) : TrackEvent → Prop
  | .tracked p flow flags =>
      -- A packet goes to the record of an earlier one exactly when that record is in use and both
      -- are of one connection.
      (∀ q flow' flags', .tracked q flow' flags' ∈ pre →
        (q = p ↔ .deleted q ∉ pre ∧ flow'.Same flow)) ∧
      (flags.has CONN_PKT_FIRST = true ↔ flowsOf p pre = []) ∧
      flags.has CONN_PKT_FROM_SERVER = !flags.has CONN_PKT_FROM_CLIENT ∧
      ∀ first ∈ (flowsOf p pre ++ [flow]).head?,
        (flags.has CONN_PKT_FROM_CLIENT = true ↔ flow.sender = first.sender)
  | .ignored pkt trackFlags => Ignored localAddr pkt trackFlags
  | .deleted _              => True

@[simp] theorem flowsOf_concat (p : Nat) (log : List TrackEvent) (e : TrackEvent) :
    flowsOf p (log ++ [e]) = flowsOf p log ++ (e.flow? p).toList := by
  unfold flowsOf
  rw [List.filterMap_append]
  cases h : e.flow? p <;> simp [h]

theorem flowsOf_of_mem {p : Nat} {log : List TrackEvent} {flow : Flow} {flags : ConnFlags}
    (h : .tracked p flow flags ∈ log) : flow ∈ flowsOf p log :=
  List.mem_filterMap.mpr ⟨_, h, if_pos rfl⟩

/-! ### The invariant -/

/-- The tracker and its log belong together. -/
structure Identified (localAddr : List UInt32) (s : TrackRun) (m : ConnMap) : Prop where
  wf : s.track.Wf m
  addrs : s.track.mLocalAddrs.elts = localAddr
  /-- No key of the table is its own reversal, and the reversed key is not in the table. -/
  swap : ∀ key p, m.get key = some (key, some p) → key ≠ key.swap ∧ m.get key.swap = none
  /-- Records are numbered in the order of their allocation. -/
  used : ∀ p, flowsOf p s.log ≠ [] → p < s.track.conns.length
  deleted : ∀ p, .deleted p ∈ s.log → p < s.track.conns.length
  /-- The records in use are those that a key leads to. -/
  live : ∀ p, Live s.log p ↔ ∃ key, m.get key = some (key, some p)
  /-- The packets of a record have its endpoints, and its client is the first sender. -/
  home : ∀ p conn, s.track.conns[p]? = some conn → ∀ flow ∈ flowsOf p s.log,
    flow.key = conn.connAddr ∨ flow.key = conn.connAddr.swap
  first : ∀ p conn, s.track.conns[p]? = some conn → ∀ flow ∈ (flowsOf p s.log).head?,
    flow.key = conn.connAddr
  /-- Each side counts its packets. -/
  client : ∀ p conn, s.track.conns[p]? = some conn → conn.connStatsClient.packets
    = UInt64.ofNat ((flowsOf p s.log).countP fun flow => flow.key = conn.connAddr)
  server : ∀ p conn, s.track.conns[p]? = some conn → conn.connStatsServer.packets
    = UInt64.ofNat ((flowsOf p s.log).countP fun flow => ¬flow.key = conn.connAddr)
  ok : Allowed (EventOk localAddr) s.log

section
variable {localAddr : List UInt32} {s : TrackRun} {m m' : ConnMap} {flow : Flow} {key : IpConnAddr}
  {p : Nat} {conn : IpConn} {flags₀ flags : ConnFlags}

/-- The record of a packet is the one that its endpoints lead to. -/
theorem ConnFound.key_cases (h : ConnFound s.track m flow.key.swap flags₀ m' key p conn flags) :
    key = flow.key ∨ key = flow.key.swap := by
  cases h with
  | server => exact Or.inr rfl
  | client => exact Or.inl rfl
  | new => exact Or.inl rfl

/-- The direction of a packet, by the key of its record. -/
theorem ConnFound.direction (h : ConnFound s.track m flow.key.swap flags₀ m' key p conn flags)
    (hne : flow.key ≠ flow.key.swap) (haddr : flags₀.has CONN_PKT_FROM_CLIENT = false) :
    flags.has CONN_PKT_FROM_SERVER = !flags.has CONN_PKT_FROM_CLIENT ∧
      (flags.has CONN_PKT_FROM_CLIENT = true ↔ flow.key = key) := by
  cases h with
  | server =>
      have hclient : (serverFlags flags₀).has CONN_PKT_FROM_CLIENT = false := by
        rw [serverFlags, has_or, haddr]
        rfl
      rw [has_serverFlags, hclient]
      exact ⟨rfl, fun h => absurd h (by decide), fun h => absurd h hne⟩
  | client =>
      obtain ⟨hserver, hclient⟩ := has_clientFlags flags₀
      rw [hserver, hclient]
      exact ⟨rfl, fun _ => rfl, fun _ => rfl⟩
  | new =>
      obtain ⟨hserver, hclient⟩ := has_firstFlags flags₀
      rw [hserver, hclient]
      exact ⟨rfl, fun _ => rfl, fun _ => rfl⟩

/-- The reversed key stays out of the table. -/
theorem ConnFound.swap (hs : Identified localAddr s m)
    (h : ConnFound s.track m flow.key.swap flags₀ m' key p conn flags)
    (hne : flow.key ≠ flow.key.swap) :
    ∀ k q, m'.get k = some (k, some q) → k ≠ k.swap ∧ m'.get k.swap = none := by
  intro k q hk
  cases h with
  | server => exact hs.swap k q hk
  | client => exact hs.swap k q hk
  | new connFlags hno hnew =>
      rw [IpConnAddr.swap_swap, ConnMap.get_put] at hk
      rw [IpConnAddr.swap_swap, ConnMap.get_put]
      by_cases hkey : k = flow.key
      · -- The new key: its reversal was looked up before.
        subst hkey
        rw [if_neg hne.symm]
        exact ⟨hne, hno⟩
      · rw [if_neg hkey] at hk
        obtain ⟨hk', hnone⟩ := hs.swap k q hk
        refine ⟨hk', ?_⟩
        have hother : k.swap ≠ flow.key := by
          intro hkey'
          have hk'' : k = flow.key.swap := congrArg IpConnAddr.swap hkey'
          rw [hk'', hno] at hk
          exact absurd hk (by simp)
        rw [if_neg hother, hnone]

/-- A record is new exactly when it took no packet before. -/
theorem ConnFound.used (hs : Identified localAddr s m)
    (h : ConnFound s.track m flow.key.swap flags₀ m' key p conn flags)
    (haddr : flags₀.has CONN_PKT_FIRST = false) :
    .deleted p ∉ s.log ∧ (flags.has CONN_PKT_FIRST = true ↔ flowsOf p s.log = []) := by
  rcases h.first haddr with ⟨hget, -, -, hfirst⟩ | ⟨-, rfl, -, hfirst⟩
  · have hlive := (hs.live p).mpr ⟨_, hget⟩
    rw [hfirst]
    exact ⟨hlive.2, fun h => absurd h (by decide), fun h => absurd h hlive.1⟩
  · rw [hfirst]
    refine ⟨fun hdel => absurd (hs.deleted _ hdel) (Nat.lt_irrefl _), fun _ => ?_, fun _ => rfl⟩
    by_contra hne
    exact absurd (hs.used _ hne) (Nat.lt_irrefl _)

/-- A packet goes to the record of an earlier one exactly when that one is in use and of the same
connection. -/
theorem ConnFound.eq_iff (hs : Identified localAddr s m)
    (h : ConnFound s.track m flow.key.swap flags₀ m' key p conn flags)
    (haddr : flags₀.has CONN_PKT_FIRST = false) {q : Nat} {flow' : Flow}
    (hq : flow' ∈ flowsOf q s.log) :
    q = p ↔ .deleted q ∉ s.log ∧ flow'.Same flow := by
  have hne : flowsOf q s.log ≠ [] := fun h0 => by rw [h0] at hq; exact absurd hq (by simp)
  obtain ⟨conn', hconn'⟩ : ∃ conn', s.track.conns[q]? = some conn' :=
    ⟨_, List.getElem?_eq_getElem (hs.used q hne)⟩
  have hhome := hs.home q conn' hconn' flow' hq
  rw [Flow.same_iff]
  constructor
  · rintro rfl
    obtain ⟨hlive, hfirst⟩ := h.used hs haddr
    refine ⟨hlive, ?_⟩
    -- The record of an earlier packet is not new, so its address is the key that was found.
    have haddr' : conn'.connAddr = key := by
      obtain ⟨k, hk⟩ := (hs.live q).mp ⟨hne, hlive⟩
      cases h with
      | server _ _ hget _ =>
          obtain ⟨q', c, hq', hc, haddr⟩ := hs.wf.conns _ _ hget
          obtain rfl : q = q' := Option.some.inj hq'
          rwa [Option.some.inj (hconn'.symm.trans hc)]
      | client _ _ _ hget _ =>
          obtain ⟨q', c, hq', hc, haddr⟩ := hs.wf.conns _ _ hget
          obtain rfl : q = q' := Option.some.inj hq'
          rwa [Option.some.inj (hconn'.symm.trans hc)]
      | new => exact absurd (hs.used _ hne) (Nat.lt_irrefl _)
    rw [haddr'] at hhome
    rcases h.key_cases with rfl | rfl
    · exact hhome
    · exact hhome.symm
  · rintro ⟨hdel, hsame⟩
    obtain ⟨k, hk⟩ := (hs.live q).mp ⟨hne, hdel⟩
    have hkey : conn'.connAddr = k := by
      obtain ⟨q', c, hq', hc, haddr⟩ := hs.wf.conns _ _ hk
      obtain rfl : q = q' := Option.some.inj hq'
      rwa [Option.some.inj (hconn'.symm.trans hc)]
    rw [hkey] at hhome
    -- The key of the earlier record is one of the two that were looked up.
    have hk' : k = flow.key ∨ k = flow.key.swap := by
      rcases hhome with hhome | hhome <;> rcases hsame with hsame | hsame
      · exact Or.inl (hhome.symm.trans hsame)
      · exact Or.inr (hhome.symm.trans hsame)
      · exact Or.inr (congrArg IpConnAddr.swap (hhome.symm.trans hsame))
      · exact Or.inl (congrArg IpConnAddr.swap (hhome.symm.trans hsame))
    cases h with
    | server _ _ hget _ =>
        rcases hk' with rfl | rfl
        · have hnone := (hs.swap _ _ hk).2
          rw [hget] at hnone
          exact absurd hnone (by simp)
        · exact Option.some.inj (Prod.mk.inj (Option.some.inj (hk.symm.trans hget))).2
    | client _ _ hno hget _ =>
        rcases hk' with rfl | rfl
        · exact Option.some.inj (Prod.mk.inj (Option.some.inj (hk.symm.trans hget))).2
        · rw [hno] at hk
          exact absurd hk (by simp)
    | new _ hno hnew =>
        rcases hk' with rfl | rfl
        · have hk : m.get flow.key.swap.swap = _ := hk
          rw [hnew] at hk
          exact absurd hk (by simp)
        · rw [hno] at hk
          exact absurd hk (by simp)

/-- The record that took packets before is the one in the table. -/
theorem ConnFound.old (hs : Identified localAddr s m)
    (h : ConnFound s.track m flow.key.swap flags₀ m' key p conn flags) :
    (flowsOf p s.log ≠ [] ∧ s.track.conns[p]? = some conn) ∨
      (flowsOf p s.log = [] ∧ flow.key = key ∧ conn.connStatsClient.packets = 0 ∧
        conn.connStatsServer.packets = 0) := by
  cases h with
  | server _ _ hget hconn => exact Or.inl ⟨((hs.live p).mpr ⟨_, hget⟩).1, hconn⟩
  | client _ _ _ hget hconn => exact Or.inl ⟨((hs.live p).mpr ⟨_, hget⟩).1, hconn⟩
  | new =>
      refine Or.inr ⟨?_, rfl, rfl, rfl⟩
      by_contra hne
      exact absurd (hs.used _ hne) (Nat.lt_irrefl _)

/-- What stands in the log of the record before the packet. -/
theorem ConnFound.before (hs : Identified localAddr s m)
    (h : ConnFound s.track m flow.key.swap flags₀ m' key p conn flags) (haddr : conn.connAddr = key) :
    (∀ flow' ∈ flowsOf p s.log, flow'.key = key ∨ flow'.key = key.swap) ∧
      (∀ first ∈ (flowsOf p s.log ++ [flow]).head?, first.key = key) ∧
      conn.connStatsClient.packets
        = UInt64.ofNat ((flowsOf p s.log).countP fun flow => flow.key = key) ∧
      conn.connStatsServer.packets
        = UInt64.ofNat ((flowsOf p s.log).countP fun flow => ¬flow.key = key) := by
  rcases h.old hs with ⟨hne, hconn⟩ | ⟨hnil, hkey, hclient, hserver⟩
  · refine ⟨?_, fun first hfirst => ?_, ?_, ?_⟩
    · rw [← haddr]
      exact hs.home p conn hconn
    · rw [List.head?_append_of_ne_nil _ hne] at hfirst
      rw [← haddr]
      exact hs.first p conn hconn first hfirst
    · rw [hs.client p conn hconn, haddr]
    · rw [hs.server p conn hconn, haddr]
  · rw [hnil, hclient, hserver]
    refine ⟨by simp, fun first hfirst => ?_, rfl, rfl⟩
    rw [List.nil_append, List.head?_cons, Option.mem_some_iff] at hfirst
    rw [← hfirst, hkey]

/-- What the log says of the packet. -/
theorem ConnFound.eventOk (hs : Identified localAddr s m)
    (h : ConnFound s.track m flow.key.swap flags₀ m' key p conn flags) (haddr : conn.connAddr = key)
    (hends : flow.sender ≠ flow.receiver)
    (hflags₀ : ∀ flag, IdentityFlag flag → flags₀.has flag = false) {flags' : ConnFlags}
    (hflags : ∀ flag, IdentityFlag flag → flags'.has flag = flags.has flag) :
    EventOk localAddr s.log (.tracked p flow flags') := by
  have hne := Flow.key_ne_swap hends
  obtain ⟨hdir, hclient⟩ := h.direction hne (hflags₀ _ identityFlag_client)
  refine ⟨fun q flow' flags'' hq => ?_, ?_, ?_, fun first hfirst => ?_⟩
  · exact h.eq_iff hs (hflags₀ _ identityFlag_first) (flowsOf_of_mem hq)
  · rw [hflags _ identityFlag_first]
    exact (h.used hs (hflags₀ _ identityFlag_first)).2
  · rw [hflags _ identityFlag_server, hflags _ identityFlag_client]
    exact hdir
  · have hkey := (h.before hs haddr).2.1 first hfirst
    rw [hflags _ identityFlag_client, hclient, ← hkey]
    constructor
    · exact fun hsame => (Flow.key_eq_iff.mp hsame).2.1
    · intro hsender
      rcases h.key_cases with hcase | hcase
      · rw [hkey, hcase]
      · -- A packet from the server: its sender is the receiver of the first one.
        rw [hcase] at hkey
        have hreceiver := (Flow.key_eq_swap_iff.mp hkey).2.1
        exact absurd (hsender.trans hreceiver) hends

theorem countP_concat_key (flows : List Flow) (q : Flow → Prop) [DecidablePred q] (flow : Flow) :
    UInt64.ofNat ((flows ++ [flow]).countP q)
      = UInt64.ofNat (flows.countP q) + if q flow then 1 else 0 := by
  rw [List.countP_append, List.countP_singleton, UInt64.ofNat_add]
  by_cases hq : q flow <;> simp [hq]

/-- The step lemma for a packet that a record took. -/
theorem Identified.track (hs : Identified localAddr s m) {pkt : Netpkt} {trackFlags : ConnFlags}
    (h : ConnFound s.track m pkt.flow.key.swap flags₀ m' key p conn flags)
    (haddr : conn.connAddr = key) (hends : pkt.flow.sender ≠ pkt.flow.receiver)
    (hflags₀ : ∀ flag, IdentityFlag flag → flags₀.has flag = false) {track' : IpConnTrack}
    {conn' : IpConn} (hconn' : (ipConnTrackConn conn flags pkt trackFlags).1 = conn')
    (hwf : track'.Wf m') (hlocal : track'.mLocalAddrs = s.track.mLocalAddrs)
    (hp : track'.conns[p]? = some conn')
    (hother : ∀ q, q ≠ p → track'.conns[q]? = s.track.conns[q]?) :
    Identified localAddr ⟨track', s.log ++ [.tracked p pkt.flow conn'.connPktFlags]⟩ m' := by
  have hne := Flow.key_ne_swap hends
  have hflags : ∀ flag, IdentityFlag flag → conn'.connPktFlags.has flag = flags.has flag :=
    fun flag hflag => hconn' ▸ hflag.conn conn flags pkt trackFlags
  have hflows : ∀ q, flowsOf q (s.log ++ [.tracked p pkt.flow conn'.connPktFlags])
      = flowsOf q s.log ++ if p = q then [pkt.flow] else [] := by
    intro q
    rw [flowsOf_concat]
    by_cases hq : p = q <;> simp [TrackEvent.flow?, hq]
  have hlt : ∀ q, q < s.track.conns.length → q < track'.conns.length := by
    intro q hq
    by_cases hqp : q = p
    · rw [hqp]
      exact (List.getElem?_eq_some_iff.mp hp).1
    · have hsome := hother q hqp
      rw [List.getElem?_eq_getElem hq] at hsome
      exact (List.getElem?_eq_some_iff.mp hsome).1
  have haddr' : conn'.connAddr = key := by
    rw [← hconn', connAddr_ipConnTrackConn, haddr]
  obtain ⟨hhome, hfirst, hclient, hserver⟩ := h.before hs haddr
  obtain ⟨hdir, hfrom⟩ := h.direction hne (hflags₀ _ identityFlag_client)
  obtain ⟨hdel, -⟩ := h.used hs (hflags₀ _ identityFlag_first)
  -- What is said of a record follows from the record of the packet and from the other ones.
  have hrecord : ∀ {P : IpConn → List Flow → Prop}, P conn' (flowsOf p s.log ++ [pkt.flow]) →
      (∀ q conn, s.track.conns[q]? = some conn → P conn (flowsOf q s.log)) →
      ∀ q conn, track'.conns[q]? = some conn →
        P conn (flowsOf q (s.log ++ [.tracked p pkt.flow conn'.connPktFlags])) := by
    intro P hnew hold q c hc
    rw [hflows]
    by_cases hq : p = q
    · subst hq
      obtain rfl := Option.some.inj (hp.symm.trans hc)
      rw [if_pos rfl]
      exact hnew
    · rw [if_neg hq, List.append_nil]
      rw [hother q (Ne.symm hq)] at hc
      exact hold q c hc
  have hside : ∀ side, (conn'.stats side).packets
      = (conn.stats side).packets + if side = sideOf flags then 1 else 0 :=
    hconn' ▸ packets_ipConnTrackConn conn pkt trackFlags hdir
  have hclientSide : ConnSide.client = sideOf flags ↔ pkt.flow.key = key := by
    rw [← hfrom, sideOf, hdir]
    cases flags.has CONN_PKT_FROM_CLIENT <;> simp
  have hserverSide : ConnSide.server = sideOf flags ↔ ¬pkt.flow.key = key := by
    rw [← hfrom, sideOf, hdir]
    cases flags.has CONN_PKT_FROM_CLIENT <;> simp
  refine ⟨hwf, ?_, h.swap hs hne, ?_, ?_, ?_, ?_, ?_, ?_, ?_, ?_⟩
  · rw [hlocal]
    exact hs.addrs
  · intro q hq
    by_cases hqp : p = q
    · exact hqp ▸ (List.getElem?_eq_some_iff.mp hp).1
    · rw [hflows, if_neg hqp, List.append_nil] at hq
      exact hlt q (hs.used q hq)
  · intro q hq
    rcases List.mem_append.mp hq with hq | hq
    · exact hlt q (hs.deleted q hq)
    · exact absurd hq (by simp)
  · intro q
    have hlive : Live (s.log ++ [.tracked p pkt.flow conn'.connPktFlags]) q
        ↔ q = p ∨ Live s.log q := by
      unfold Live
      rw [hflows]
      by_cases hqp : p = q
      · subst hqp
        simp [hdel]
      · simp [hqp, Ne.symm hqp]
    rw [hlive, hs.live q]
    constructor
    · rintro (rfl | ⟨k, hk⟩)
      · exact ⟨key, h.get⟩
      · by_cases hkey : k = key
        · -- The key of this record in the old table: the record is the same one.
          subst hkey
          cases h with
          | server => exact ⟨_, hk⟩
          | client => exact ⟨_, hk⟩
          | new _ hno hnew => rw [hnew] at hk; exact absurd hk (by simp)
        · exact ⟨k, (h.get_other hkey).trans hk⟩
    · rintro ⟨k, hk⟩
      by_cases hkey : k = key
      · subst hkey
        exact Or.inl (Option.some.inj (Prod.mk.inj (Option.some.inj (hk.symm.trans h.get))).2)
      · rw [h.get_other hkey] at hk
        exact Or.inr ⟨k, hk⟩
  · refine hrecord (P := fun c flows => ∀ flow ∈ flows,
      flow.key = c.connAddr ∨ flow.key = c.connAddr.swap) ?_ hs.home
    rw [haddr']
    intro flow hflow
    rcases List.mem_append.mp hflow with hflow | hflow
    · exact hhome flow hflow
    · rw [List.mem_singleton.mp hflow]
      rcases h.key_cases with hcase | hcase
      · exact Or.inl hcase.symm
      · rw [hcase]
        exact Or.inr rfl
  · refine hrecord (P := fun c flows => ∀ flow ∈ flows.head?, flow.key = c.connAddr) ?_ hs.first
    rw [haddr']
    exact hfirst
  · refine hrecord (P := fun c flows => c.connStatsClient.packets
      = UInt64.ofNat (flows.countP fun flow => flow.key = c.connAddr)) ?_ hs.client
    rw [haddr', countP_concat_key]
    exact (hside .client).trans (congrArg₂ _ hclient (if_congr hclientSide rfl rfl))
  · refine hrecord (P := fun c flows => c.connStatsServer.packets
      = UInt64.ofNat (flows.countP fun flow => ¬flow.key = c.connAddr)) ?_ hs.server
    rw [haddr', countP_concat_key]
    exact (hside .server).trans (congrArg₂ _ hserver (if_congr hserverSide rfl rfl))
  · exact hs.ok.concat (h.eventOk hs haddr hends hflags₀ hflags)

/-- An event that is no packet of a record: what is said of the records stays, and the table may
only lose keys. -/
theorem Identified.other (hs : Identified localAddr s m) {e : TrackEvent}
    (he : ∀ q, e.flow? q = none) {track' : IpConnTrack} (hconns : track'.conns = s.track.conns)
    (hlocal : track'.mLocalAddrs = s.track.mLocalAddrs) (hwf : track'.Wf m')
    (hsub : ∀ k, m'.get k = none ∨ m'.get k = m.get k)
    (hdel : ∀ q, .deleted q = e → Live s.log q)
    (hlive : ∀ q, Live (s.log ++ [e]) q ↔ ∃ key, m'.get key = some (key, some q))
    (hok : EventOk localAddr s.log e) : Identified localAddr ⟨track', s.log ++ [e]⟩ m' := by
  have hflows : ∀ q, flowsOf q (s.log ++ [e]) = flowsOf q s.log := by
    intro q
    rw [flowsOf_concat, he]
    exact List.append_nil _
  have hget : ∀ k x, m'.get k = some x → m.get k = some x := by
    intro k x hk
    rcases hsub k with hnone | hsame
    · rw [hnone] at hk
      exact absurd hk (by simp)
    · rw [← hsame, hk]
  refine ⟨hwf, by rw [hlocal]; exact hs.addrs, fun k q hk => ?_, ?_, ?_, hlive, ?_, ?_, ?_, ?_,
    hs.ok.concat hok⟩
  · obtain ⟨hne, hnone⟩ := hs.swap k q (hget k _ hk)
    exact ⟨hne, (hsub k.swap).elim id fun hsame => hsame.trans hnone⟩
  · intro q hq
    rw [hflows] at hq
    rw [hconns]
    exact hs.used q hq
  · intro q hq
    rw [hconns]
    rcases List.mem_append.mp hq with hq | hq
    · exact hs.deleted q hq
    · exact hs.used q (hdel q (List.mem_singleton.mp hq)).1
  all_goals
    intro q
    rw [hflows, hconns]
  · exact hs.home q
  · exact hs.first q
  · exact hs.client q
  · exact hs.server q

/-- The step lemma for a record that is deleted. -/
theorem Identified.delete (hs : Identified localAddr s m) (hlive : Live s.log p) :
    ∃ m', Identified localAddr ⟨ipConnTrackConnDelete s.track p, s.log ++ [.deleted p]⟩ m' := by
  obtain ⟨key, hget⟩ := (hs.live p).mp hlive
  obtain ⟨p', conn, hp', hconn, haddr⟩ := hs.wf.conns key _ hget
  obtain rfl : p = p' := Option.some.inj hp'
  have hdelete : ipConnTrackConnDelete s.track p
      = { s.track with mConnHash := hashRemove s.track.mConnHash key } := by
    unfold ipConnTrackConnDelete
    rw [hconn, ← haddr]
  -- only the entry of `p` goes away
  have hdel : ∀ k, (m.del key).get k = if k = key then none else m.get k :=
    fun k => KeyMap.get_del_of_eq keyEq_ipConn m key k
  have hsub : ∀ k, (m.del key).get k = none ∨ (m.del key).get k = m.get k := by
    intro k
    rw [hdel]
    split
    · exact Or.inl rfl
    · exact Or.inr rfl
  rw [hdelete]
  refine ⟨m.del key, hs.other (fun _ => rfl) rfl rfl ⟨models_remove hs.wf.models key, ?_⟩ hsub ?_
    (fun q => ?_) trivial⟩
  · intro k e hk
    rcases hsub k with hnone | hsame
    · rw [hnone] at hk
      exact absurd hk (by simp)
    · exact hs.wf.conns k e (hsame.symm.trans hk)
  · intro q hq
    rw [TrackEvent.deleted.inj hq]
    exact hlive
  · have hlive' : Live (s.log ++ [.deleted p]) q ↔ q ≠ p ∧ Live s.log q := by
      unfold Live
      rw [flowsOf_concat, TrackEvent.flow?_deleted]
      simp only [Option.toList_none, List.append_nil, List.mem_append, List.mem_singleton,
        TrackEvent.deleted.injEq, not_or]
      tauto
    rw [hlive', hs.live q]
    constructor
    · rintro ⟨hq, k, hk⟩
      -- another connection has another key
      have hne : k ≠ key := by
        rintro rfl
        exact hq (Option.some.inj (Prod.mk.inj (Option.some.inj (hk.symm.trans hget))).2)
      exact ⟨k, by rw [hdel, if_neg hne, hk]⟩
    · rintro ⟨k, hk⟩
      rw [hdel] at hk
      split at hk
      · exact absurd hk (by simp)
      · rename_i hne
        exact ⟨fun hq => hne (hs.wf.key_eq hk (hq ▸ hget)), k, hk⟩

end

/-- The step lemma for a packet: it is only noted in the log, or its record takes it. -/
theorem identified_track (addrOf : Nat → Nat) {localAddr : List UInt32} {s : TrackRun} {m : ConnMap}
    (hs : Identified localAddr s m) {pkt : Netpkt} {trackFlags : ConnFlags}
    (hop : (TrackOp.track pkt trackFlags).Valid s) :
    Ignored localAddr pkt trackFlags ∧
        Identified localAddr (connStep addrOf s (.track pkt trackFlags)) m ∨
      ∃ m' flags₀ key p conn flags flags',
        ConnFound s.track m pkt.flow.key.swap flags₀ m' key p conn flags ∧
        Identified localAddr (connStep addrOf s (.track pkt trackFlags)) m' ∧
        (connStep addrOf s (.track pkt trackFlags)).log = s.log ++ [.tracked p pkt.flow flags'] := by
  rcases ipConnTrackPkt_spec addrOf hs.wf pkt trackFlags with ⟨hpkt, hignored⟩ |
    ⟨track', m', ip, flags, key, p, conn, pkt', hpkt, hwf, hlocal, hip, hproto, haddr, hfound, hp,
      hother⟩
  · rw [hs.addrs] at hignored
    have hstep : connStep addrOf s (.track pkt trackFlags)
        = ⟨s.track, s.log ++ [.ignored pkt trackFlags]⟩ := by
      simp only [connStep, hpkt]
    rw [hstep]
    refine Or.inl ⟨hignored, hs.other (fun _ => rfl) rfl rfl hs.wf (fun _ => Or.inr rfl)
      (fun q hq => absurd hq (by simp)) (fun q => ?_) hignored⟩
    rw [← hs.live q, Live, flowsOf_concat, TrackEvent.flow?_ignored]
    simp [Live]
  · have hstep : connStep addrOf s (.track pkt trackFlags) = ⟨track', s.log ++
        [.tracked p pkt.flow (ipConnTrackConn conn flags pkt trackFlags).1.connPktFlags]⟩ := by
      simp only [connStep, hpkt, hp, Option.elim_some]
    rw [hstep]
    rw [ipConnServerKey_eq hip] at hfound
    exact Or.inr ⟨m', _, key, p, conn, flags, _, hfound, hs.track hfound haddr (hop hproto)
      (fun flag hflag => hflag.local _ ip) rfl hwf hlocal hp hother, rfl⟩

/-- The step lemma: every step of a valid run keeps the tracker and its log together. -/
theorem identified_step (addrOf : Nat → Nat) {localAddr : List UInt32} {s : TrackRun}
    (hs : ∃ m, Identified localAddr s m) {op : TrackOp} (hop : op.Valid s) :
    ∃ m, Identified localAddr (connStep addrOf s op) m := by
  obtain ⟨m, hs⟩ := hs
  cases op with
  | delete p => exact hs.delete hop
  | track pkt trackFlags =>
      rcases identified_track addrOf hs hop with ⟨-, h⟩ | ⟨m', _, _, _, _, _, _, -, h, -⟩
      · exact ⟨m, h⟩
      · exact ⟨m', h⟩

/-- The tracker starts with no connection to identify. -/
theorem identified_init (localAddr : List UInt32) :
    Identified localAddr ⟨ipConnTrackInit localAddr, []⟩ KeyMap.empty where
  wf := wf_ipConnTrackInit localAddr
  addrs := rfl
  swap key p h := absurd h (by simp)
  used p h := absurd rfl h
  deleted p h := absurd h (by simp)
  live p := ⟨fun h => absurd rfl h.1, fun h => absurd h.choose_spec (by simp)⟩
  home p conn h := absurd h (by simp [ipConnTrackInit])
  first p conn h := absurd h (by simp [ipConnTrackInit])
  client p conn h := absurd h (by simp [ipConnTrackInit])
  server p conn h := absurd h (by simp [ipConnTrackInit])
  ok := allowed_nil _

/-- The run lemma. -/
theorem identified_run (addrOf : Nat → Nat) {localAddr : List UInt32} {ops : List TrackOp}
    (hops : AllSteps TrackOp.Valid (connStep addrOf) ⟨ipConnTrackInit localAddr, []⟩ ops) :
    ∃ m, Identified localAddr (run (connStep addrOf) ⟨ipConnTrackInit localAddr, []⟩ ops) m :=
  run_inv_of_allSteps (I := fun s => ∃ m, Identified localAddr s m)
    (fun _ _ hs hop => identified_step addrOf hs hop) ⟨_, identified_init localAddr⟩ hops

/-- In every run the table has no key together with its reversal, packets go to records by their
endpoints, with the flags that the log asks for, and the two counters of a record add up to its
packets, as far as an `unsigned long` counts. -/
theorem ipConnTrack_identity (addrOf : Nat → Nat) (localAddr : List UInt32) (ops : List TrackOp)
    (hops : AllSteps TrackOp.Valid (connStep addrOf) ⟨ipConnTrackInit localAddr, []⟩ ops) :
    let s := run (connStep addrOf) ⟨ipConnTrackInit localAddr, []⟩ ops
    (∀ key, hashGetEntry s.track.mConnHash key = none ∨
      hashGetEntry s.track.mConnHash key.swap = none) ∧
    Allowed (EventOk localAddr) s.log ∧
    ∀ p conn, s.track.conns[p]? = some conn →
      conn.connStatsClient.packets + conn.connStatsServer.packets
          = UInt64.ofNat (flowsOf p s.log).length ∧
        ((flowsOf p s.log).length < 2 ^ 64 →
          conn.connStatsClient.packets.toNat + conn.connStatsServer.packets.toNat
            = (flowsOf p s.log).length) := by
  intro s
  obtain ⟨m, hs⟩ : ∃ m, Identified localAddr s m := identified_run addrOf hops
  refine ⟨fun key => ?_, hs.ok, fun p conn hconn => ?_⟩
  · rw [hashGetEntry_eq hs.wf.models, hashGetEntry_eq hs.wf.models]
    cases hget : m.get key with
    | none => exact Or.inl rfl
    | some e =>
        obtain ⟨p, rfl⟩ := hs.wf.entry_eq hget
        exact Or.inr (hs.swap key p hget).2
  · have hcount : (flowsOf p s.log).length
        = (flowsOf p s.log).countP (fun flow => flow.key = conn.connAddr)
          + (flowsOf p s.log).countP (fun flow => ¬flow.key = conn.connAddr) := by
      rw [List.length_eq_countP_add_countP (fun flow : Flow => flow.key = conn.connAddr)]
      simp
    rw [hs.client p conn hconn, hs.server p conn hconn, hcount]
    refine ⟨(UInt64.ofNat_add ..).symm, fun hlt => ?_⟩
    rw [UInt64.toNat_ofNat_of_lt' (show _ < 2 ^ 64 by omega),
      UInt64.toNat_ofNat_of_lt' (show _ < 2 ^ 64 by omega)]

/-- A UDP packet between two endpoints. -/
def udpPacket (src dst : UInt32) (source dest : UInt16) : Netpkt where
  pktMsg := fun _ => 0
  pktLen := 0
  pktIp := some ⟨src, dst, 17⟩
  pktTcp := none
  pktUdp := some ⟨source, dest⟩
  pktTcpSeqDiff := 0

/-- A request, its answer, another port of the client, and the answer again after the record was
deleted: now the server is the client. -/
theorem ipConnTrack_identity_reversed :
    let s := run (connStep id) ⟨ipConnTrackInit [], []⟩
      [.track (udpPacket 1 2 1000 53) 0, .track (udpPacket 2 1 53 1000) 0,
        .track (udpPacket 1 2 1001 53) 0, .delete 0, .track (udpPacket 2 1 53 1000) 0]
    Allowed (EventOk []) s.log ∧ (flowsOf 0 s.log).length = 2 ∧
      s.track.conns.map (·.connAddr)
        = [⟨17, 1, 2, 1000, 53⟩, ⟨17, 1, 2, 1001, 53⟩, ⟨17, 2, 1, 53, 1000⟩] := by
  have hvalid : AllSteps TrackOp.Valid (connStep id) ⟨ipConnTrackInit [], []⟩
      [.track (udpPacket 1 2 1000 53) 0, .track (udpPacket 2 1 53 1000) 0,
        .track (udpPacket 1 2 1001 53) 0, .delete 0, .track (udpPacket 2 1 53 1000) 0] := by
    refine ⟨fun _ => by decide, fun _ => by decide, fun _ => by decide, ⟨?_, ?_⟩, fun _ => by decide,
      trivial⟩
    · exact List.ne_nil_of_length_pos (by decide +kernel)
    · -- Every event so far is a packet.
      intro hdel
      have hpkt := List.mem_map_of_mem (f := fun e => (e.flow? 0).isSome || (e.flow? 1).isSome) hdel
      revert hpkt
      decide +kernel
  exact ⟨(ipConnTrack_identity id [] _ hvalid).2.1, by decide +kernel, by decide +kernel⟩

/-- The next packet of the same sender goes to the same record. -/
theorem identified_again (addrOf : Nat → Nat) {s : TrackRun} {m : ConnMap} {pkt : Netpkt} {p : Nat}
    (hs : Identified [] s m) (hget : m.get pkt.flow.key = some (pkt.flow.key, some p))
    (hproto : ¬Ignored [] pkt 0) (hop : (TrackOp.track pkt 0).Valid s) :
    ∃ m', Identified [] (connStep addrOf s (.track pkt 0)) m' ∧
      m'.get pkt.flow.key = some (pkt.flow.key, some p) ∧
      flowsOf p (connStep addrOf s (.track pkt 0)).log = flowsOf p s.log ++ [pkt.flow] := by
  rcases identified_track addrOf hs hop with ⟨h, -⟩ | ⟨m', _, _, q, _, _, _, hfound, hs', hlog⟩
  · exact absurd h hproto
  · have hkey := hfound.get
    cases hfound with
    | server _ _ hget' _ =>
        -- The reversed key is not in the table.
        rw [(hs.swap _ _ hget).2] at hget'
        exact absurd hget' (by simp)
    | client _ _ _ _ _ =>
        obtain rfl : q = p :=
          Option.some.inj (Prod.mk.inj (Option.some.inj (hkey.symm.trans hget))).2
        refine ⟨m, hs', hget, ?_⟩
        rw [hlog, flowsOf_concat, TrackEvent.flow?, if_pos rfl]
        rfl
    | new _ _ hnew =>
        rw [IpConnAddr.swap_swap, hget] at hnew
        exact absurd hnew (by simp)

/-- Many packets of one sender. -/
theorem identified_same (addrOf : Nat → Nat) {pkt : Netpkt} (hproto : ¬Ignored [] pkt 0)
    (hends : pkt.flow.sender ≠ pkt.flow.receiver) (n : Nat) :
    ∃ m, Identified [] (run (connStep addrOf) ⟨ipConnTrackInit [], []⟩
        (List.replicate (n + 1) (.track pkt 0))) m ∧
      m.get pkt.flow.key = some (pkt.flow.key, some 0) ∧
      flowsOf 0 (run (connStep addrOf) ⟨ipConnTrackInit [], []⟩
        (List.replicate (n + 1) (.track pkt 0))).log = List.replicate (n + 1) pkt.flow := by
  have hvalid : ∀ s, (TrackOp.track pkt 0).Valid s := fun _ _ => hends
  induction n with
  | zero =>
      rcases identified_track addrOf (identified_init []) (hvalid _) with ⟨h, -⟩ |
        ⟨m', _, _, p, _, _, flags', hfound, hs, hlog⟩
      · exact absurd h hproto
      · have hget := hfound.get
        cases hfound with
        | server _ _ hget' _ => exact absurd hget' (by simp)
        | client _ _ _ hget' _ => exact absurd hget' (by simp)
        | new =>
            refine ⟨_, hs, hget, ?_⟩
            rw [List.replicate_one, run_cons, run_nil, hlog]
            rfl
  | succ n ih =>
      obtain ⟨m, hs, hget, hflows⟩ := ih
      obtain ⟨m', hs', hget', hflows'⟩ := identified_again addrOf hs hget hproto (hvalid _)
      rw [List.replicate_succ', run_append, run_cons, run_nil]
      refine ⟨m', hs', hget', ?_⟩
      rw [hflows', hflows, ← List.replicate_succ']

/-- A counter is an `unsigned long`: `2 ^ 64` packets of one sender count as none. -/
theorem ipConnTrack_identity_wraps :
    ¬∀ ops, AllSteps TrackOp.Valid (connStep id) ⟨ipConnTrackInit [], []⟩ ops →
      ∀ p conn, (run (connStep id) ⟨ipConnTrackInit [], []⟩ ops).track.conns[p]? = some conn →
        conn.connStatsClient.packets.toNat + conn.connStatsServer.packets.toNat
          = (flowsOf p (run (connStep id) ⟨ipConnTrackInit [], []⟩ ops).log).length := by
  intro hall
  have hproto : ¬Ignored [] (udpPacket 1 2 1000 53) 0 := by
    rintro (h | ⟨-, h⟩ | ⟨h, -⟩)
    · exact absurd h (by simp [udpPacket])
    · exact absurd h (by simp [udpPacket])
    · exact absurd h (by decide)
  have hends : (udpPacket 1 2 1000 53).flow.sender ≠ (udpPacket 1 2 1000 53).flow.receiver := by
    decide
  generalize udpPacket 1 2 1000 53 = pkt at hproto hends
  obtain ⟨n, hn⟩ : ∃ n, n + 1 = 2 ^ 64 := ⟨2 ^ 64 - 1, by decide⟩
  have hvalid : AllSteps TrackOp.Valid (connStep id) ⟨ipConnTrackInit [], []⟩
      (List.replicate (n + 1) (.track pkt 0)) := by
    have hops : AllSteps (fun _ op => op = .track pkt 0) (connStep id) ⟨ipConnTrackInit [], []⟩
        (List.replicate (n + 1) (.track pkt 0)) :=
      allSteps_of_forall_mem fun op hop => List.eq_of_mem_replicate hop
    refine hops.mono fun s op hop => ?_
    rw [hop]
    exact fun _ => hends
  obtain ⟨m, hs, hget, hflows⟩ := identified_same id hproto hends n
  obtain ⟨p, conn, hp, hconn, haddr⟩ := hs.wf.conns _ _ hget
  obtain rfl : 0 = p := Option.some.inj hp
  have hcount := hall _ hvalid 0 conn hconn
  rw [hs.client 0 conn hconn, hs.server 0 conn hconn, hflows, haddr] at hcount
  rw [List.countP_replicate, List.countP_replicate, List.length_replicate] at hcount
  simp [hn] at hcount

end Bklib
