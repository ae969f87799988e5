import Bklib.Model.IpConnTrack
import Bklib.Proofs.HashMap

/-!
# `Bklib.Proofs.IpConnTrack`: the record that a packet goes to

The tracker's table and its records together are a map from connection keys to records
(`IpConnTrack.conn?`). `ipConnTrackPkt_spec` says what a packet does to it: it is ignored, or the
record of its connection, which may be a new one, takes it, and no other record changes.
`queue_ipConnTrackConn` says what the packet does to the two queues of that record.
-/

set_option autoImplicit false

namespace Bklib

open Bklib.Lib

/-! ### Flags -/

theorem has_or (x y flags : ConnFlags) :
    ConnFlags.has (x ||| y) flags = (x.has flags || y.has flags) := by
  unfold ConnFlags.has
  rw [BitVec.and_or_distrib_right, Bool.eq_iff_iff]
  simp [BitVec.or_eq_zero_iff, imp_iff_not_or]

theorem has_and_not (x flags : ConnFlags) : ConnFlags.has (x &&& ~~~flags) flags = false := by
  unfold ConnFlags.has
  rw [BitVec.and_assoc, BitVec.and_comm (~~~flags), BitVec.and_not_self]
  simp

/-- The local flags do not tell the direction. -/
theorem has_ipConnLocalFlags (flags src dst : ConnFlags) :
    (ipConnLocalFlags flags src dst).has CONN_PKT_FROM_SERVER = false ∧
      (ipConnLocalFlags flags src dst).has CONN_PKT_FROM_CLIENT = false := by
  unfold ipConnLocalFlags
  cases flags.has src <;> cases flags.has dst <;> decide

/-! ### Keys -/

/-- The bytes of a word tell it. -/
theorem bytesLe_inj {x y : UInt32} (h : bytesLe x = bytesLe y) : x = y := by
  have hbytes : ∀ z : UInt32, z.toNat = z.toUInt8.toNat + 256 * (z >>> 8).toUInt8.toNat
      + 65536 * (z >>> 16).toUInt8.toNat + 16777216 * (z >>> 24).toUInt8.toNat := by
    intro z
    have hz := z.toNat_lt
    simp only [UInt32.toNat_toUInt8, UInt32.toNat_shiftRight, UInt32.toNat_ofNat,
      Nat.shiftRight_eq_div_pow, Nat.reducePow, Nat.reduceMod]
    omega
  simp only [bytesLe, List.cons.injEq] at h
  apply UInt32.toNat_inj.mp
  rw [hbytes x, hbytes y, h.1, h.2.1, h.2.2.1, h.2.2.2.1]

/-- The bytes of an address tell it. -/
theorem IpConnAddr.bytes_inj {a b : IpConnAddr} (h : a.bytes = b.bytes) : a = b := by
  have hlen : ∀ x y : UInt32, (bytesLe x).length = (bytesLe y).length := fun _ _ => rfl
  obtain ⟨h, h5⟩ := List.append_inj' h (hlen _ _)
  obtain ⟨h, h4⟩ := List.append_inj' h (hlen _ _)
  obtain ⟨h, h3⟩ := List.append_inj' h (hlen _ _)
  obtain ⟨h1, h2⟩ := List.append_inj' h (hlen _ _)
  cases a
  cases b
  rw [IpConnAddr.mk.injEq]
  exact ⟨bytesLe_inj h1, bytesLe_inj h2, bytesLe_inj h3, bytesLe_inj h4, bytesLe_inj h5⟩

/-- The table compares whole keys. -/
theorem keyEq_ipConn (a b : IpConnAddr) : keyEq ipConnHash ipConnCmp a b ↔ a = b := by
  have hcmp : ipConnCmp a b = 0 ↔ a.bytes = b.bytes := memcmp_eq_zero_iff rfl
  constructor
  · exact fun h => IpConnAddr.bytes_inj (hcmp.mp h.2)
  · rintro rfl
    exact ⟨rfl, hcmp.mpr rfl⟩

theorem equivalence_keyEq_ipConn : Equivalence (keyEq ipConnHash ipConnCmp) where
  refl a := (keyEq_ipConn a a).mpr rfl
  symm h := (keyEq_ipConn _ _).mpr ((keyEq_ipConn _ _).mp h).symm
  trans h h' := (keyEq_ipConn _ _).mpr (((keyEq_ipConn _ _).mp h).trans ((keyEq_ipConn _ _).mp h'))

/-- The map that the table stands for: from a key to a pointer. -/
abbrev ConnMap := KeyMap (keySetoid equivalence_keyEq_ipConn) (Option Nat)

theorem ConnMap.get_put (m : ConnMap) (key key' : IpConnAddr) (val : Option Nat) :
    (KeyMap.put m key val).get key' = if key' = key then some (key, val) else m.get key' :=
  KeyMap.get_put_of_eq keyEq_ipConn m key key' val

theorem ConnMap.key_of_get {m : ConnMap} {key : IpConnAddr} {e : IpConnAddr × Option Nat}
    (h : m.get key = some e) : e.1 = key := (keyEq_ipConn _ _).mp (KeyMap.key_of_get h)

/-! ### The records -/

/-- The record that the tracker has for a key. -/
def IpConnTrack.conn? (self : IpConnTrack) (key : IpConnAddr) : Option IpConn :=
  (hashGetEntry self.mConnHash key).bind fun e => e.2.bind (self.conns[·]?)

namespace IpConnTrack

/-- The table stands for the map, which leads every key to its own record. -/
structure Wf (s : IpConnTrack) (m : ConnMap) : Prop where
  models : s.mConnHash.Models equivalence_keyEq_ipConn m
  conns : ∀ key e, m.get key = some e →
    ∃ p conn, e.2 = some p ∧ s.conns[p]? = some conn ∧ conn.connAddr = key

variable {s : IpConnTrack} {m : ConnMap}

theorem Wf.conn?_eq (h : s.Wf m) (key : IpConnAddr) :
    s.conn? key = (m.get key).bind fun e => e.2.bind (s.conns[·]?) := by
  unfold conn?
  rw [hashGetEntry_eq h.models]

theorem Wf.conn?_of_get (h : s.Wf m) {key : IpConnAddr} {e : IpConnAddr × Option Nat} {p : Nat}
    (hget : m.get key = some e) (hval : e.2 = some p) : s.conn? key = s.conns[p]? := by
  rw [h.conn?_eq, hget, Option.bind_some, hval, Option.bind_some]

/-- The tracker finds no connection exactly where the map has none. -/
theorem Wf.conn?_eq_none (h : s.Wf m) {key : IpConnAddr} : s.conn? key = none ↔ m.get key = none := by
  rw [h.conn?_eq]
  cases hget : m.get key with
  | none => simp
  | some e =>
      obtain ⟨p, conn, hval, hp, -⟩ := h.conns key e hget
      simp [hval, hp]

/-- Another table for the same map. -/
theorem Wf.setHash (h : s.Wf m) {hash : HashT IpConnAddr Nat}
    (hmodels : hash.Models equivalence_keyEq_ipConn m) :
    ({ s with mConnHash := hash } : IpConnTrack).Wf m ∧
      ∀ key, ({ s with mConnHash := hash } : IpConnTrack).conn? key = s.conn? key := by
  have hwf : ({ s with mConnHash := hash } : IpConnTrack).Wf m := ⟨hmodels, h.conns⟩
  exact ⟨hwf, fun key => by rw [hwf.conn?_eq, h.conn?_eq]⟩

/-- Different keys lead to different records. -/
theorem Wf.key_eq (h : s.Wf m) {key key' : IpConnAddr} {p : Nat}
    (hget : m.get key = some (key, some p)) (hget' : m.get key' = some (key', some p)) :
    key = key' := by
  obtain ⟨q, conn, hq, hp, rfl⟩ := h.conns key _ hget
  obtain ⟨q', conn', hq', hp', rfl⟩ := h.conns key' _ hget'
  obtain rfl : p = q := Option.some.inj hq
  obtain rfl : p = q' := Option.some.inj hq'
  rw [Option.some.inj (hp.symm.trans hp')]

/-- An entry of the map names its own key. -/
theorem Wf.entry_eq (h : s.Wf m) {key : IpConnAddr} {e : IpConnAddr × Option Nat}
    (hget : m.get key = some e) : ∃ p, e = (key, some p) := by
  obtain ⟨p, conn, hval, -, -⟩ := h.conns key e hget
  exact ⟨p, Prod.ext (ConnMap.key_of_get hget) hval⟩

/-- A record that changes, but not its address. -/
theorem Wf.setConn (h : s.Wf m) {key : IpConnAddr} {p : Nat} (hget : m.get key = some (key, some p))
    {conn : IpConn} (hconn : conn.connAddr = key) :
    ({ s with conns := s.conns.set p conn } : IpConnTrack).Wf m := by
  obtain ⟨p', old, hval', hp, -⟩ := h.conns key _ hget
  obtain rfl : p = p' := Option.some.inj hval'
  have hlt : p < s.conns.length := (List.getElem?_eq_some_iff.mp hp).1
  refine ⟨h.models, fun key' e' hget' => ?_⟩
  by_cases hkey : key' = key
  · subst hkey
    obtain rfl := Option.some.inj (hget.symm.trans hget')
    exact ⟨p, conn, rfl, List.getElem?_set_self hlt, hconn⟩
  · obtain ⟨p', rfl⟩ := h.entry_eq hget'
    obtain ⟨q, conn', hq, hp', hconn'⟩ := h.conns key' _ hget'
    refine ⟨q, conn', hq, ?_, hconn'⟩
    have hne : p ≠ q := by
      intro heq
      obtain rfl : p' = q := Option.some.inj hq
      exact hkey (h.key_eq hget' (heq ▸ hget))
    rw [List.getElem?_set_ne hne]
    exact hp'

end IpConnTrack

/-- A new tracker has no connection. -/
theorem wf_ipConnTrackInit (localAddr : List UInt32) :
    (ipConnTrackInit localAddr).Wf KeyMap.empty := by
  refine ⟨(models_hashInit equivalence_keyEq_ipConn 0 0 0).1, fun key e h => ?_⟩
  rw [KeyMap.get_empty] at h
  exact absurd h (by simp)

/-- The flags of a packet from the server, from the client, and from the client in a new connection,
when `flags` are those of the local addresses. -/
def serverFlags (flags : ConnFlags) : ConnFlags := flags ||| CONN_PKT_FROM_SERVER

def clientFlags (flags : ConnFlags) : ConnFlags :=
  (serverFlags flags &&& ~~~CONN_PKT_FROM_SERVER) ||| CONN_PKT_FROM_CLIENT

def firstFlags (flags : ConnFlags) : ConnFlags := clientFlags flags ||| CONN_PKT_FIRST

theorem has_serverFlags (flags : ConnFlags) :
    (serverFlags flags).has CONN_PKT_FROM_SERVER = true := by
  rw [serverFlags, has_or, Bool.or_eq_true]
  exact Or.inr rfl

/-- The client's packets come from the client. -/
theorem has_clientFlags (flags : ConnFlags) :
    (clientFlags flags).has CONN_PKT_FROM_SERVER = false ∧
      (clientFlags flags).has CONN_PKT_FROM_CLIENT = true := by
  unfold clientFlags
  constructor
  · rw [has_or, has_and_not]
    rfl
  · rw [has_or, Bool.or_eq_true]
    exact Or.inr rfl

/-- The first packet comes from the client. -/
theorem has_firstFlags (flags : ConnFlags) :
    (firstFlags flags).has CONN_PKT_FROM_SERVER = false ∧
      (firstFlags flags).has CONN_PKT_FROM_CLIENT = true := by
  unfold firstFlags
  rw [has_or, has_or, (has_clientFlags flags).1, (has_clientFlags flags).2]
  exact ⟨rfl, rfl⟩

/-- The record at `p` that `ipConnTrackFind` found under a key, with the map afterwards and the flags
of the packet: that of a packet from the server, that of a packet from the client, or a new one for
a packet from the client. -/
inductive ConnFound (s : IpConnTrack) (m : ConnMap) (key : IpConnAddr) (flags : ConnFlags) :
    ConnMap → IpConnAddr → Nat → IpConn → ConnFlags → Prop
  | server (p : Nat) (conn : IpConn) (hget : m.get key = some (key, some p))
      (hconn : s.conns[p]? = some conn) :
      ConnFound s m key flags m key p conn (serverFlags flags)
  | client (p : Nat) (conn : IpConn) (hno : m.get key = none)
      (hget : m.get key.swap = some (key.swap, some p)) (hconn : s.conns[p]? = some conn) :
      ConnFound s m key flags m key.swap p conn (clientFlags flags)
  | new (connFlags : ConnFlags) (hno : m.get key = none) (hnew : m.get key.swap = none) :
      ConnFound s m key flags (m.put key.swap (some s.conns.length)) key.swap s.conns.length
        (ipConnInit key.swap CONN_STATE_SYN connFlags) (firstFlags flags)

/-- The connection found stands in the map. -/
theorem ConnFound.get {s : IpConnTrack} {m m' : ConnMap} {key key' : IpConnAddr} {p : Nat}
    {conn : IpConn} {flags flags' : ConnFlags} (h : ConnFound s m key flags m' key' p conn flags') :
    m'.get key' = some (key', some p) := by
  cases h with
  | server _ _ hget _ => exact hget
  | client _ _ _ hget _ => exact hget
  | new => rw [ConnMap.get_put, if_pos rfl]

/-- The other keys give what they gave. -/
theorem ConnFound.get_other {s : IpConnTrack} {m m' : ConnMap} {key key' : IpConnAddr} {p : Nat}
    {conn : IpConn} {flags flags' : ConnFlags} (h : ConnFound s m key flags m' key' p conn flags')
    {k : IpConnAddr} (hk : k ≠ key') : m'.get k = m.get k := by
  cases h with
  | server => rfl
  | client => rfl
  | new => rw [ConnMap.get_put, if_neg hk]

/-- The flag of a new connection tells whether the record is new. -/
theorem ConnFound.first {s : IpConnTrack} {m m' : ConnMap} {key key' : IpConnAddr} {p : Nat}
    {conn : IpConn} {flags flags' : ConnFlags} (h : ConnFound s m key flags m' key' p conn flags')
    (hflags : flags.has CONN_PKT_FIRST = false) :
    (m.get key' = some (key', some p) ∧ s.conns[p]? = some conn ∧ m' = m ∧
        flags'.has CONN_PKT_FIRST = false) ∨
      (m.get key' = none ∧ p = s.conns.length ∧ m' = m.put key' (some p) ∧
        flags'.has CONN_PKT_FIRST = true) := by
  have hserver : (serverFlags flags).has CONN_PKT_FIRST = false := by
    rw [serverFlags, has_or, hflags]
    rfl
  cases h with
  | server _ _ hget hconn => exact Or.inl ⟨hget, hconn, rfl, hserver⟩
  | client _ _ _ hget hconn =>
      refine Or.inl ⟨hget, hconn, rfl, ?_⟩
      rw [clientFlags, has_or, Bool.or_eq_false_iff]
      refine ⟨?_, rfl⟩
      unfold ConnFlags.has at hserver ⊢
      rw [bne_eq_false_iff_eq] at hserver ⊢
      rw [BitVec.and_assoc, BitVec.and_comm (~~~_), ← BitVec.and_assoc, hserver]
      exact BitVec.zero_and
  | new _ _ hnew =>
      refine Or.inr ⟨hnew, rfl, rfl, ?_⟩
      rw [firstFlags, has_or, Bool.or_eq_true]
      exact Or.inr rfl

/-- Only the record that takes the packet changes. -/
theorem ConnFound.conn?_eq {s s' : IpConnTrack} {m m' : ConnMap} {key key' : IpConnAddr} {p : Nat}
    {conn conn' : IpConn} {flags flags' : ConnFlags}
    (hfound : ConnFound s m key flags m' key' p conn flags') (h : s.Wf m) (h' : s'.Wf m')
    (hp : s'.conns[p]? = some conn') (hother : ∀ q, q ≠ p → s'.conns[q]? = s.conns[q]?)
    (k : IpConnAddr) : s'.conn? k = if k = key' then some conn' else s.conn? k := by
  by_cases hk : k = key'
  · rw [if_pos hk, hk, h'.conn?_of_get hfound.get rfl, hp]
  · rw [if_neg hk, h'.conn?_eq, h.conn?_eq, hfound.get_other hk]
    cases hget : m.get k with
    | none => rfl
    | some e =>
        obtain ⟨q, rfl⟩ := h.entry_eq hget
        rw [← hfound.get_other hk] at hget
        exact hother q fun hq => hk (h'.key_eq hget (hq ▸ hfound.get))

/-- The node that a search finds leads to the record. -/
theorem readVal_of_entryAt {s : IpConnTrack} {m : ConnMap} (h : s.Wf m) {key : IpConnAddr}
    {ref : NodeRef} {e : IpConnAddr × Option Nat} (hentry : s.mConnHash.entryAt ref = some e)
    (hget : m.get key = some e) :
    ∃ p conn, e = (key, some p) ∧ s.mConnHash.readVal ref = some p ∧ s.conns[p]? = some conn ∧
      conn.connAddr = key := by
  obtain ⟨p, conn, hval, hp, hconn⟩ := h.conns key e hget
  exact ⟨p, conn, Prod.ext (ConnMap.key_of_get hget) hval,
    (HashT.readVal_of_entryAt hentry).trans hval, hp, hconn⟩

section
variable (addrOf : Nat → Nat) {s : IpConnTrack} {m : ConnMap}

/-- A new record is the last one, and its key leads to it. -/
theorem ipConnTrackNew_spec (h : s.Wf m) (key : IpConnAddr) (flags : ConnFlags) :
    ∃ s' ref connFlags, ipConnTrackNew addrOf s key flags
        = (s', some ref, flags ||| CONN_PKT_FIRST) ∧
      s'.Wf (m.put key (some s.conns.length)) ∧
      s'.conns = s.conns ++ [ipConnInit key CONN_STATE_SYN connFlags] ∧
      s'.mLocalAddrs = s.mLocalAddrs ∧ s'.mConnHash.readVal ref = some s.conns.length := by
  obtain ⟨hash, ref, hput, hmodels, hentry⟩ :=
    models_hashPut addrOf h.models key (some s.conns.length)
  unfold ipConnTrackNew
  dsimp only
  rw [hput]
  dsimp only
  generalize (_ ||| _ : ConnFlags) = connFlags
  have hwf : ({ s with
      mConnHash := hash
      conns := s.conns ++ [ipConnInit key CONN_STATE_SYN connFlags] } : IpConnTrack).Wf
        (m.put key (some s.conns.length)) := by
    refine ⟨hmodels, fun key' e hget => ?_⟩
    rw [ConnMap.get_put] at hget
    split at hget
    · rename_i hkey
      obtain rfl := Option.some.inj hget
      exact ⟨_, _, rfl, List.getElem?_concat_length, hkey.symm⟩
    · obtain ⟨p, conn, hval, hp, hconn⟩ := h.conns key' e hget
      exact ⟨p, conn, hval,
        (List.getElem?_append_left (List.getElem?_eq_some_iff.mp hp).1).trans hp, hconn⟩
  have hget : (m.put key (some s.conns.length)).get key = some (key, some s.conns.length) := by
    rw [ConnMap.get_put, if_pos rfl]
  obtain ⟨p, conn, he, hread, -, -⟩ := readVal_of_entryAt hwf hentry hget
  obtain rfl : s.conns.length = p := Option.some.inj (Prod.mk.inj he).2
  exact ⟨_, ref, connFlags, rfl, hwf, rfl, rfl, hread⟩

/-- What the search finds: a node that leads to the record of the packet. Only a new record changes
the map and the records. -/
theorem ipConnTrackFind_spec (h : s.Wf m) (key : IpConnAddr) (flags : ConnFlags) :
    ∃ s' m' ref flags' p key' conn, ipConnTrackFind addrOf s key flags = (s', some ref, flags') ∧
      s'.Wf m' ∧ s'.mConnHash.readVal ref = some p ∧ s'.mLocalAddrs = s.mLocalAddrs ∧
      conn.connAddr = key' ∧ ConnFound s m key flags m' key' p conn flags' ∧
      s'.conns[p]? = some conn ∧ ∀ q, q ≠ p → s'.conns[q]? = s.conns[q]? := by
  obtain ⟨hash₁, r₁, hget₁, hmodels₁, hr₁⟩ := models_hashGet h.models key
  obtain ⟨hwf₁, -⟩ := h.setHash hmodels₁
  unfold ipConnTrackFind
  dsimp only
  rw [hget₁]
  rcases hr₁ with ⟨rfl, hno⟩ | ⟨ref, e, rfl, hentry, hget⟩
  · dsimp only
    obtain ⟨hash₂, r₂, hget₂, hmodels₂, hr₂⟩ := models_hashGet hmodels₁ key.swap
    obtain ⟨hwf₂, -⟩ := h.setHash hmodels₂
    rw [hget₂]
    rcases hr₂ with ⟨rfl, hnew⟩ | ⟨ref, e, rfl, hentry, hget⟩
    · -- Neither key is in the table.
      dsimp only
      obtain ⟨s', ref, connFlags, hs', hwf, hconns, hlocal, hread⟩ :=
        ipConnTrackNew_spec addrOf hwf₂ key.swap (clientFlags flags)
      have hconns' : s'.conns = s.conns ++ [ipConnInit key.swap CONN_STATE_SYN connFlags] := hconns
      refine ⟨s', m.put key.swap (some s.conns.length), ref, firstFlags flags, s.conns.length, key.swap,
        ipConnInit key.swap CONN_STATE_SYN connFlags, hs', hwf, hread, hlocal, rfl,
        .new connFlags hno hnew, ?_, fun q hq => ?_⟩
      · rw [hconns', List.getElem?_concat_length]
      · rw [hconns', List.getElem?_append]
        split
        · rfl
        · rw [List.getElem?_eq_none (by rw [List.length_singleton]; omega),
            List.getElem?_eq_none (by omega)]
    · obtain ⟨p, conn, rfl, hread, hp, haddr⟩ := readVal_of_entryAt hwf₂ hentry hget
      exact ⟨_, m, ref, _, p, _, conn, rfl, hwf₂, hread, rfl, haddr, .client p conn hno hget hp, hp,
        fun _ _ => rfl⟩
  · obtain ⟨p, conn, rfl, hread, hp, haddr⟩ := readVal_of_entryAt hwf₁ hentry hget
    exact ⟨_, m, ref, _, p, _, conn, rfl, hwf₁, hread, rfl, haddr, .server p conn hget hp, hp,
      fun _ _ => rfl⟩

/-- Tracking a packet leaves the connection's address. -/
theorem connAddr_ipConnTrackConn (conn : IpConn) (flags : ConnFlags) (pkt : Netpkt)
    (trackFlags : ConnFlags) :
    (ipConnTrackConn conn flags pkt trackFlags).1.connAddr = conn.connAddr := by
  unfold ipConnTrackConn ipConnTrackState ipConnTrackSide
  dsimp only
  repeat' split
  all_goals rfl

/-- The tracker ignores a packet that is neither TCP nor UDP, and, when it tracks local packets
only, one between two other hosts. -/
def Ignored (addrs : List UInt32) (pkt : Netpkt) (trackFlags : ConnFlags) : Prop :=
  pkt.pktIp = none ∨ pkt.pktTcp = none ∧ pkt.pktUdp = none ∨
    trackFlags.has IPCONN_TRACK_LOCAL = true ∧
      ∀ ip, pkt.pktIp = some ip → (ipConnLocal addrs ip).2 = false

/-- What a packet does: it is ignored, or the record of its connection takes it, and no other
record changes. -/
theorem ipConnTrackPkt_spec (h : s.Wf m) (pkt : Netpkt) (trackFlags : ConnFlags) :
    ipConnTrackPkt addrOf s pkt trackFlags = (s, none, pkt) ∧
        Ignored s.mLocalAddrs.elts pkt trackFlags ∨
      ∃ s' m' ip flags key p conn pkt', ipConnTrackPkt addrOf s pkt trackFlags = (s', some p, pkt') ∧
        s'.Wf m' ∧ s'.mLocalAddrs = s.mLocalAddrs ∧ pkt.pktIp = some ip ∧
        (pkt.pktTcp.isSome ∨ pkt.pktUdp.isSome) ∧ conn.connAddr = key ∧
        ConnFound s m (ipConnServerKey pkt ip) (ipConnLocal s.mLocalAddrs.elts ip).1
          m' key p conn flags ∧
        s'.conns[p]? = some (ipConnTrackConn conn flags pkt trackFlags).1 ∧
        ∀ q, q ≠ p → s'.conns[q]? = s.conns[q]? := by
  -- three ways to be ignored: no IP header, no ports, and, where it is asked for, no local end
  unfold ipConnTrackPkt
  cases hip : pkt.pktIp with
  | none => exact Or.inl ⟨rfl, Or.inl hip⟩
  | some ip =>
      dsimp only
      split
      · rename_i hproto
        rw [Bool.and_eq_true, Option.isNone_iff_eq_none, Option.isNone_iff_eq_none] at hproto
        exact Or.inl ⟨rfl, Or.inr (Or.inl hproto)⟩
      · rename_i hproto
        split
        · rename_i hlocal
          rw [Bool.and_eq_true, Bool.not_eq_true'] at hlocal
          refine Or.inl ⟨rfl, Or.inr (Or.inr ⟨hlocal.1, fun ip' hip' => ?_⟩)⟩
          obtain rfl : ip = ip' := Option.some.inj (hip.symm.trans hip')
          exact hlocal.2
        · right
          obtain ⟨s', m', ref, flags, p, key, conn, hfind, hwf, hread, hlocal, haddr, hfound, hp,
            hother⟩ := ipConnTrackFind_spec addrOf h (ipConnServerKey pkt ip)
              (ipConnLocal s.mLocalAddrs.elts ip).1
          -- tracking leaves the address of the record alone, so the table still leads to it
          have hwf' := hwf.setConn hfound.get
            ((connAddr_ipConnTrackConn conn flags pkt trackFlags).trans haddr)
          rw [hfind]
          dsimp only
          rw [Option.bind_some, hread]
          dsimp only
          rw [hp]
          refine ⟨_, m', ip, flags, key, p, conn, _, rfl, hwf', hlocal, rfl, ?_, haddr, hfound, ?_,
            fun q hq => ?_⟩
          · cases htcp : pkt.pktTcp <;> cases hudp : pkt.pktUdp <;> simp_all
          · exact List.getElem?_set_self (List.getElem?_eq_some_iff.mp hp).1
          · exact (List.getElem?_set_ne hq.symm).trans (hother q hq)

end

/-! ### The queues of a record -/

/-- The side that a packet with these flags comes from. -/
def sideOf (flags : ConnFlags) : ConnSide :=
  if flags.has CONN_PKT_FROM_SERVER then .server else .client

/-- The counters do not touch the queues, the address or the direction of the packet, and they
change nothing of the packet but its sequence difference. -/
theorem ipConnTrackState_spec (conn : IpConn) (pkt : Netpkt) :
    ∃ conn' diff, ipConnTrackState conn pkt = (conn', { pkt with pktTcpSeqDiff := diff }) ∧
      (∀ side, conn'.queue side = conn.queue side) ∧
      conn'.connPktFlags.has CONN_PKT_FROM_SERVER = conn.connPktFlags.has CONN_PKT_FROM_SERVER ∧
      conn'.connPktFlags.has CONN_PKT_FROM_CLIENT = conn.connPktFlags.has CONN_PKT_FROM_CLIENT := by
  have hside : ∃ conn' diff, ipConnTrackSide conn pkt = (conn', { pkt with pktTcpSeqDiff := diff }) ∧
      (∀ side, conn'.queue side = conn.queue side) ∧
      conn'.connPktFlags.has CONN_PKT_FROM_SERVER = conn.connPktFlags.has CONN_PKT_FROM_SERVER ∧
      conn'.connPktFlags.has CONN_PKT_FROM_CLIENT = conn.connPktFlags.has CONN_PKT_FROM_CLIENT := by
    unfold ipConnTrackSide
    split
    · refine ⟨_, _, rfl, fun side => by cases side <;> rfl, ?_, ?_⟩
      · rw [has_or, (has_ipConnLocalFlags _ _ _).1, Bool.or_false]
      · rw [has_or, (has_ipConnLocalFlags _ _ _).2, Bool.or_false]
    · split
      · refine ⟨_, _, rfl, fun side => by cases side <;> rfl, ?_, ?_⟩
        · rw [has_or, (has_ipConnLocalFlags _ _ _).1, Bool.or_false]
        · rw [has_or, (has_ipConnLocalFlags _ _ _).2, Bool.or_false]
      · exact ⟨conn, pkt.pktTcpSeqDiff, rfl, fun _ => rfl, rfl, rfl⟩
  obtain ⟨conn', diff, heq, hqueue, hserver, hclient⟩ := hside
  unfold ipConnTrackState
  rw [heq]
  dsimp only
  split
  · exact ⟨_, diff, rfl, fun side => by rw [← hqueue side]; cases side <;> rfl, hserver, hclient⟩
  · exact ⟨_, diff, rfl, hqueue, hserver, hclient⟩

/-- A packet goes into the queue of its side. -/
theorem queue_ipConnTrackConn (conn : IpConn) {flags : ConnFlags} (pkt : Netpkt)
    (trackFlags : ConnFlags)
    (hfrom : flags.has CONN_PKT_FROM_SERVER = true ∨ flags.has CONN_PKT_FROM_CLIENT = true)
    (side : ConnSide) :
    ∃ flags' diff, (ipConnTrackConn conn flags pkt trackFlags).1.queue side
      = if side = sideOf flags then
          (ipConnTrackStream flags' (conn.queue side) { pkt with pktTcpSeqDiff := diff }
            (trackFlags.has IPCONN_TRACK_BUFFER)).2.1
        else conn.queue side := by
  obtain ⟨conn', diff, hstate, hqueue, hserver, hclient⟩ :=
    ipConnTrackState_spec { conn with connPktFlags := flags } pkt
  have hqueue' : conn'.queue side = conn.queue side := by rw [hqueue]; cases side <;> rfl
  have hserver' : conn'.connPktFlags.has CONN_PKT_FROM_SERVER = flags.has CONN_PKT_FROM_SERVER :=
    hserver
  have hclient' : conn'.connPktFlags.has CONN_PKT_FROM_CLIENT = flags.has CONN_PKT_FROM_CLIENT :=
    hclient
  refine ⟨conn'.connPktFlags, diff, ?_⟩
  unfold ipConnTrackConn sideOf
  rw [hstate]
  dsimp only
  rw [hserver', hclient', ← hqueue']
  cases hs : flags.has CONN_PKT_FROM_SERVER with
  | true => cases side <;> rfl
  | false =>
      have hc : flags.has CONN_PKT_FROM_CLIENT = true := by
        rw [hs] at hfrom
        exact hfrom.resolve_left (by simp)
      rw [hc]
      cases side <;> rfl

end Bklib
