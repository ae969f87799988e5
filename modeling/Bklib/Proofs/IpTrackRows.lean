import Bklib.Proofs.IpTrack

/-!
# `Bklib.Proofs.IpTrackRows`: what the connection recorder stores

`IpTrackRun` keeps, next to the recorder, a list of all packets that were recorded, each with what is
to be stored of it. A flush leaves the last packet of a connection out and forgets it
(`flushRows`), so a connection that was flushed has fewer rows than packets, and it never catches up.

`Lossy` is the invariant of the recorder and the list. A connection was never flushed, and then all
its packets are still in its own list, or some packet of it is lost.
-/

set_option autoImplicit false

namespace Bklib

open Bklib.Lib

variable {T : Type}

/-- A packet that was recorded: its connection with the log, its own time, direction and raw length,
and the data that it put into the queue of its side. -/
structure IpTrackPktRecord (T : Type) where
  connId : Nat
  fname : List UInt8
  time : T
  fromServer : Int
  rawLen : Int
  msg : List UInt8

/-- A recorder and the packets that it was to store. -/
structure IpTrackRun (T : Type) where
  track : IpTrack T
  records : List (IpTrackPktRecord T)

namespace IpTrack

section
variable (clock : MstimeOps T) (addrOf : Nat → Nat)

/-- The record of a packet, when it is recorded. -/
def recordOf (s : IpTrack T) (now : T) (pktbuf : Int → UInt8) (pktlen : Int) :
    Option (IpTrackPktRecord T) :=
  (pktConn? addrOf s pktbuf pktlen).bind fun (p, conn) =>
    let side : ConnSide :=
      if conn.connPktFlags.has CONN_PKT_FROM_SERVER then .server else .client
    let before := (s.ipconntrack.conns[p]?.map fun old => (old.queue side).buf.elts.length).getD 0
    ((ipTrackPktbuf clock addrOf s now pktbuf pktlen).1.varg? p).map fun varg =>
      { connId := varg.connId
        fname := varg.fname
        time := now
        fromServer := if side = .server then 1 else 0
        rawLen := pktlen
        msg := (conn.queue side).buf.elts.drop before }

/-- A step of the recorder, with the list of recorded packets. -/
def recStep (r : IpTrackRun T) (op : IpTrackOp T) : IpTrackRun T where
  track := step clock addrOf r.track op
  records := r.records ++
    (match op with
      | .packet now pktbuf pktlen => (recordOf clock addrOf r.track now pktbuf pktlen).toList
      | _                         => [])

end

end IpTrack

/-- A packet that the tracker takes. -/
def IpTrackOp.IsTracked : IpTrackOp T → Prop
  | .packet _ pktbuf pktlen => IpTrack.Tracked pktbuf pktlen
  | _                       => False

namespace IpTrackRun

/-- The number of rows of a connection, and of its recorded packets. -/
def rowCount (r : IpTrackRun T) (c : Nat) : Nat := r.track.pktRows.countP (·.connId = c)

def recCount (r : IpTrackRun T) (c : Nat) : Nat := r.records.countP (·.connId = c)

/-- Every recorded packet of the connection has its row, once and with its own data, and the log of
the connection grew by the data of these packets. -/
def Complete (files : List UInt8 → List UInt8) (r : IpTrackRun T) (c : Nat) : Prop :=
  ((r.track.pktRows.filter (·.connId = c)).map fun row =>
      (row.time, row.fromServer, row.msgLen, row.rawLen)).Perm
    ((r.records.filter (·.connId = c)).map fun rec =>
      (rec.time, rec.fromServer, (rec.msg.length : Int), rec.rawLen)) ∧
  ∀ rec ∈ r.records, rec.connId = c → r.track.files rec.fname
    = files rec.fname ++ (r.records.filter (·.connId = c)).flatMap (·.msg)

/-- A connection with fewer rows than packets is not complete. -/
theorem not_complete {files : List UInt8 → List UInt8} {r : IpTrackRun T} {c : Nat}
    (h : r.rowCount c < r.recCount c) : ¬r.Complete files c := by
  rintro ⟨hperm, -⟩
  have hlen := hperm.length_eq
  rw [List.length_map, List.length_map, ← List.countP_eq_length_filter,
    ← List.countP_eq_length_filter] at hlen
  exact absurd hlen (Nat.ne_of_lt h)

/-- Some packet of the connection `c`, of which `n` packets are waiting, is lost. -/
def Lost (r : IpTrackRun T) (c n : Nat) : Prop := r.rowCount c + n < r.recCount c

/-- The connection `c` was never flushed: its `n` packets are all waiting. -/
def Waiting (r : IpTrackRun T) (c n : Nat) : Prop :=
  r.rowCount c = 0 ∧ r.recCount c = n ∧ 0 < n

/-- Every connection was never flushed, or lost a packet. -/
structure Lossy (r : IpTrackRun T) (m : ConnMap) : Prop where
  le_rowid : ∀ key p varg, m.get key = some (key, some p) → r.track.varg? p = some varg →
    varg.connId ≤ r.track.rowid
  inj : ∀ key p varg key' p' varg', m.get key = some (key, some p) → r.track.varg? p = some varg →
    m.get key' = some (key', some p') → r.track.varg? p' = some varg' →
    varg.connId = varg'.connId → p = p'
  live : ∀ key p varg, m.get key = some (key, some p) → r.track.varg? p = some varg →
    r.Lost varg.connId varg.vpkt.elts.length ∨ r.Waiting varg.connId varg.vpkt.elts.length
  dead : ∀ c, (∀ key p varg, m.get key = some (key, some p) → r.track.varg? p = some varg →
      varg.connId ≠ c) →
    r.rowCount c = 0 ∧ r.recCount c = 0 ∨ r.Lost c 0
  fresh : ∀ c, r.track.rowid < c → r.rowCount c = 0 ∧ r.recCount c = 0

end IpTrackRun

namespace IpTrack

/-! ## A flush -/

/-- A flush inserts a row for every packet but one. -/
theorem flushRows_spec (connId : Nat) (vpkts : List (IpTrackConnVargPkt T)) :
    (flushRows connId vpkts).length = vpkts.length - 1 ∧
      ∀ row ∈ flushRows connId vpkts, row.connId = connId := by
  constructor
  · unfold flushRows
    rw [List.filterMap_length_eq_length.mpr, List.length_range']
    intro j hj
    have hj' := List.mem_range'_1.mp hj
    rw [List.getElem?_eq_getElem (show 0 < vpkts.length by omega),
      List.getElem?_eq_getElem (show j < vpkts.length by omega)]
    rfl
  · intro row hrow
    obtain ⟨j, -, hj⟩ := List.mem_filterMap.mp hrow
    obtain ⟨first, -, hfirst⟩ := Option.bind_eq_some_iff.mp hj
    obtain ⟨vpkt, -, rfl⟩ := Option.map_eq_some_iff.mp hfirst
    rfl

section
variable {clock : MstimeOps T} {s s' : IpTrack T} {m m' : ConnMap} {key : IpConnAddr} {p : Nat}
  {varg : IpTrackConnVarg T}

/-- The rows of the flushed connection grow by all its packets but one. -/
theorem Flushed.rowCount (hf : Flushed clock s s' m m' key p varg)
    (records : List (IpTrackPktRecord T)) (c : Nat) :
    (⟨s', records⟩ : IpTrackRun T).rowCount c = (⟨s, records⟩ : IpTrackRun T).rowCount c
      + if varg.connId = c then varg.vpkt.elts.length - 1 else 0 := by
  obtain ⟨rows, hrows, hmap⟩ := hf.rows
  obtain ⟨hlen, hid⟩ := flushRows_spec varg.connId varg.vpkt.elts
  have hcount : rows.countP (fun row => decide (row.connId = c))
      = (flushRows varg.connId varg.vpkt.elts).countP fun row => decide (row.connId = c) := by
    rw [← hmap, List.countP_map]
    rfl
  unfold IpTrackRun.rowCount
  rw [hrows, List.countP_append, hcount]
  congr 1
  split
  · rename_i hc
    rw [← hlen, List.countP_eq_length]
    intro row hrow
    exact decide_eq_true ((hid row hrow).trans hc)
  · rename_i hc
    rw [List.countP_eq_zero]
    intro row hrow
    rw [decide_eq_true_eq, hid row hrow]
    exact hc

/-- The record of a live connection is what it was, but the list of the flushed one is empty. -/
theorem Flushed.varg_of_live (hf : Flushed clock s s' m m' key p varg) (hwf : s.Wf m)
    {k : IpConnAddr} {q : Nat} {v' : IpTrackConnVarg T} (hk : m'.get k = some (k, some q))
    (hv' : s'.varg? q = some v') :
    ∃ v, s.varg? q = some v ∧ v'.connId = v.connId ∧
      v'.vpkt.elts.length = if p = q then 0 else v.vpkt.elts.length := by
  obtain ⟨v, hv⟩ := Option.isSome_iff_exists.mp (hwf.varg k q (hf.sub k _ hk))
  obtain ⟨fd, off, hnew⟩ := hf.vargs k q v hk hv
  obtain rfl := Option.some.inj (hv'.symm.trans hnew)
  refine ⟨v, hv, rfl, ?_⟩
  dsimp only
  split <;> rfl

end

end IpTrack

namespace IpTrackRun

/-- The connection of a key, if it is live, lost a packet. -/
def LostAt (r : IpTrackRun T) (m : ConnMap) (key : IpConnAddr) : Prop :=
  ∀ p varg, m.get key = some (key, some p) → r.track.varg? p = some varg →
    r.Lost varg.connId varg.vpkt.elts.length

section
variable {clock : MstimeOps T} {r : IpTrackRun T} {s' : IpTrack T} {m m' : ConnMap}
  {key : IpConnAddr} {p : Nat} {varg : IpTrackConnVarg T}

/-- A flush loses a packet of its connection, unless it had lost one before. -/
theorem Lossy.lost_flushed (h : r.Lossy m) (hget : m.get key = some (key, some p))
    (hvarg : r.track.varg? p = some varg) (hf : IpTrack.Flushed clock r.track s' m m' key p varg) :
    (⟨s', r.records⟩ : IpTrackRun T).Lost varg.connId 0 := by
  have hrows := hf.rowCount r.records varg.connId
  rw [if_pos rfl] at hrows
  have hlive := h.live key p varg hget hvarg
  unfold Lost Waiting at *
  rw [hrows]
  show r.rowCount _ + _ + 0 < r.recCount _
  omega

/-- A flush keeps the table lossy, loses a packet at its own connection and leaves the losses of the
others. -/
theorem Lossy.flush (h : r.Lossy m) (hwf : r.track.Wf m) (hget : m.get key = some (key, some p))
    (hvarg : r.track.varg? p = some varg) (hf : IpTrack.Flushed clock r.track s' m m' key p varg) :
    (⟨s', r.records⟩ : IpTrackRun T).Lossy m' ∧ (⟨s', r.records⟩ : IpTrackRun T).LostAt m' key ∧
      ∀ k, r.LostAt m k → (⟨s', r.records⟩ : IpTrackRun T).LostAt m' k := by
  have hrows := hf.rowCount r.records
  have hlost := h.lost_flushed hget hvarg hf
  -- The rows of another connection stay.
  have hother : ∀ c, varg.connId ≠ c →
      (⟨s', r.records⟩ : IpTrackRun T).rowCount c = r.rowCount c := by
    intro c hc
    rw [hrows, if_neg hc]
    rfl
  have hself : ∀ k q v', m'.get k = some (k, some q) → s'.varg? q = some v' → p = q →
      (⟨s', r.records⟩ : IpTrackRun T).Lost v'.connId v'.vpkt.elts.length := by
    rintro k q v' hk hv' rfl
    obtain ⟨v, hv, hid, hlen⟩ := hf.varg_of_live hwf hk hv'
    obtain rfl := Option.some.inj (hvarg.symm.trans hv)
    rw [if_pos rfl] at hlen
    rw [hid, hlen]
    exact hlost
  -- Another live connection has its rows and its packets.
  have hkeep : ∀ k q v', m'.get k = some (k, some q) → s'.varg? q = some v' → p ≠ q →
      ∃ v, m.get k = some (k, some q) ∧ r.track.varg? q = some v ∧ v'.connId = v.connId ∧
        v'.vpkt.elts.length = v.vpkt.elts.length ∧ varg.connId ≠ v.connId := by
    intro k q v' hk hv' hpq
    obtain ⟨v, hv, hid, hlen⟩ := hf.varg_of_live hwf hk hv'
    rw [if_neg hpq] at hlen
    exact ⟨v, hf.sub k _ hk, hv, hid, hlen,
      fun hc => hpq (h.inj key p varg k q v hget hvarg (hf.sub k _ hk) hv hc)⟩
  have hlostKeep : ∀ k, r.LostAt m k → (⟨s', r.records⟩ : IpTrackRun T).LostAt m' k := by
    intro k hk q v' hq hv'
    by_cases hpq : p = q
    · exact hself k q v' hq hv' hpq
    · obtain ⟨v, hm, hv, hid, hlen, hne⟩ := hkeep k q v' hq hv' hpq
      have hold := hk q v hm hv
      unfold Lost at hold ⊢
      rw [hid, hlen, hother _ hne]
      exact hold
  refine ⟨⟨fun k q v' hk hv' => ?_, fun k q v' k' q' w' hk hv' hk' hw' hvw => ?_,
    fun k q v' hk hv' => ?_, fun c hc => ?_, fun c hc => ?_⟩, fun q v' hq hv' => ?_, hlostKeep⟩
  · obtain ⟨v, hv, hid, -⟩ := hf.varg_of_live hwf hk hv'
    rw [hid, show s'.rowid = r.track.rowid from hf.rowid]
    exact h.le_rowid k q v (hf.sub k _ hk) hv
  · obtain ⟨v, hv, hid, -⟩ := hf.varg_of_live hwf hk hv'
    obtain ⟨w, hw, hid', -⟩ := hf.varg_of_live hwf hk' hw'
    exact h.inj k q v k' q' w (hf.sub k _ hk) hv (hf.sub k' _ hk') hw
      (hid.symm.trans (hvw.trans hid'))
  · by_cases hpq : p = q
    · exact Or.inl (hself k q v' hk hv' hpq)
    · obtain ⟨v, hm, hv, hid, hlen, hne⟩ := hkeep k q v' hk hv' hpq
      have hold := h.live k q v hm hv
      unfold Lost Waiting at hold ⊢
      rw [hid, hlen, hother _ hne]
      exact hold
  · by_cases hcv : varg.connId = c
    · rw [← hcv]
      exact Or.inr hlost
    · have hdead : r.rowCount c = 0 ∧ r.recCount c = 0 ∨ r.Lost c 0 := by
        refine h.dead c fun k q v hk hv => ?_
        by_cases hkey : k = key
        · subst hkey
          obtain rfl : p = q :=
            Option.some.inj (Prod.mk.inj (Option.some.inj (hget.symm.trans hk))).2
          obtain rfl := Option.some.inj (hvarg.symm.trans hv)
          exact hcv
        · -- It is live after the flush too.
          have hk' : m'.get k = some (k, some q) := (hf.keep k hkey).trans hk
          obtain ⟨fd, off, hv'⟩ := hf.vargs k q v hk' hv
          have hne := hc k q _ hk' hv'
          exact hne
      unfold Lost at hdead ⊢
      rw [hother c hcv]
      exact hdead
  · have hold := h.fresh c (by rw [← hf.rowid]; exact hc)
    have hcv : varg.connId ≠ c := by
      have hle := h.le_rowid key p varg hget hvarg
      have hlt : r.track.rowid < c := by rw [← hf.rowid]; exact hc
      omega
    rw [hother c hcv]
    exact hold
  · have hpq : p = q :=
      Option.some.inj (Prod.mk.inj (Option.some.inj (hget.symm.trans (hf.sub key _ hq)))).2
    exact hself key q v' hq hv' hpq

end

/-! ## A packet -/

section
variable {clock : MstimeOps T} {addrOf : Nat → Nat} {r : IpTrackRun T} {s' : IpTrack T}
  {m m' : ConnMap} {key : IpConnAddr} {p : Nat} {varg : IpTrackConnVarg T}
  {vpkt : IpTrackConnVargPkt T}

/-- A recorded packet is one more in the list of its connection. -/
theorem Lossy.record (h : r.Lossy m)
    (hrec : IpTrack.Recorded clock r.track s' m m' key p varg vpkt) {rec : IpTrackPktRecord T}
    (hid : rec.connId = varg.connId) : (⟨s', r.records ++ [rec]⟩ : IpTrackRun T).Lossy m' := by
  have hrows : ∀ c, (⟨s', r.records ++ [rec]⟩ : IpTrackRun T).rowCount c = r.rowCount c := by
    intro c
    unfold rowCount
    rw [show s'.pktRows = r.track.pktRows from hrec.rows]
  have hrecs : ∀ c, (⟨s', r.records ++ [rec]⟩ : IpTrackRun T).recCount c
      = r.recCount c + if varg.connId = c then 1 else 0 := by
    intro c
    unfold recCount
    rw [List.countP_append, List.countP_singleton, hid]
    by_cases hc : varg.connId = c <;> simp [hc]
  have hlen : ∀ v', s'.varg? p = some v' →
      v'.connId = varg.connId ∧ v'.vpkt.elts.length = varg.vpkt.elts.length + 1 := by
    intro v' hv'
    obtain rfl := Option.some.inj (hrec.varg.symm.trans hv')
    refine ⟨rfl, ?_⟩
    rw [elts_arrayAppend, List.length_append, List.length_singleton]
  -- Another live connection is live before, with the same record.
  have hother : ∀ k q v', m'.get k = some (k, some q) → s'.varg? q = some v' → q ≠ p →
      m.get k = some (k, some q) ∧ r.track.varg? q = some v' := by
    intro k q v' hk hv' hq
    have hkey : k ≠ key := by
      rintro rfl
      exact hq (Option.some.inj (Prod.mk.inj (Option.some.inj (hk.symm.trans hrec.get))).2)
    exact ⟨(hrec.get_other k hkey).symm.trans hk, (hrec.varg_other q hq).symm.trans hv'⟩
  -- The number of the connection is its own, and below the last one.
  have hown : varg.connId ≤ s'.rowid ∧ r.track.rowid ≤ s'.rowid ∧ s'.rowid ≤ r.track.rowid + 1 ∧
      (r.track.rowid < s'.rowid → varg.connId = s'.rowid) ∧
      (∀ k q v, q ≠ p → m.get k = some (k, some q) → r.track.varg? q = some v →
        v.connId ≠ varg.connId) ∧
      (r.Lost varg.connId varg.vpkt.elts.length ∨ r.Waiting varg.connId varg.vpkt.elts.length ∨
        r.rowCount varg.connId = 0 ∧ r.recCount varg.connId = 0 ∧ varg.vpkt.elts.length = 0) := by
    cases hrec.conn with
    | old hget _ hvarg hrowid =>
        have hle := h.le_rowid key p varg hget hvarg
        refine ⟨by omega, by omega, by omega, fun hlt => by omega, fun k q v hq hk hv hc => ?_, ?_⟩
        · exact hq (h.inj k q v key p varg hk hv hget hvarg hc)
        · rcases h.live key p varg hget hvarg with hlost | hwait
          · exact Or.inl hlost
          · exact Or.inr (Or.inl hwait)
    | new _ _ _ _ hvpkt hnew hrowid =>
        have hfresh := h.fresh varg.connId (by omega)
        refine ⟨by omega, by omega, by omega, fun _ => by omega, fun k q v _ hk hv hc => ?_, ?_⟩
        · have hle := h.le_rowid k q v hk hv
          omega
        · exact Or.inr (Or.inr ⟨hfresh.1, hfresh.2, by rw [hvpkt]; rfl⟩)
  obtain ⟨hle, hrowid, hrowid', hlast, hne, hcount⟩ := hown
  refine ⟨fun k q v' hk hv' => ?_, fun k q v' k' q' w' hk hv' hk' hw' hvw => ?_,
    fun k q v' hk hv' => ?_, fun c hc => ?_, fun c hc => ?_⟩
  · show v'.connId ≤ s'.rowid
    by_cases hq : q = p
    · subst hq
      rw [(hlen v' hv').1]
      exact hle
    · obtain ⟨hm, hv⟩ := hother k q v' hk hv' hq
      exact (h.le_rowid k q v' hm hv).trans hrowid
  · by_cases hq : q = p
    · by_cases hq' : q' = p
      · rw [hq, hq']
      · subst hq
        obtain ⟨hm, hw⟩ := hother k' q' w' hk' hw' hq'
        exact absurd (hvw.symm.trans (hlen v' hv').1) (hne k' q' w' hq' hm hw)
    · obtain ⟨hm, hv⟩ := hother k q v' hk hv' hq
      by_cases hq' : q' = p
      · subst hq'
        exact absurd (hvw.trans (hlen w' hw').1) (hne k q v' hq hm hv)
      · obtain ⟨hm', hw⟩ := hother k' q' w' hk' hw' hq'
        exact h.inj k q v' k' q' w' hm hv hm' hw hvw
  · unfold Lost Waiting
    by_cases hq : q = p
    · subst hq
      obtain ⟨hvid, hvlen⟩ := hlen v' hv'
      rw [hrows, hrecs, hvid, hvlen, if_pos rfl]
      unfold Lost Waiting at hcount
      omega
    · obtain ⟨hm, hv⟩ := hother k q v' hk hv' hq
      rw [hrows, hrecs, if_neg (hne k q v' hq hm hv).symm]
      exact h.live k q v' hm hv
  · have hcv : varg.connId ≠ c := by
      obtain ⟨v', hv'⟩ := Option.isSome_iff_exists.mp (hrec.wf.varg key p hrec.get)
      rw [← (hlen v' hv').1]
      have hc' := hc key p v' hrec.get hv'
      exact hc'
    unfold Lost
    rw [hrows, hrecs, if_neg hcv]
    refine h.dead c fun k q v hk hv => ?_
    by_cases hq : q = p
    · subst hq
      cases hrec.conn with
      | old _ _ hvarg _ =>
          obtain rfl := Option.some.inj (hvarg.symm.trans hv)
          exact hcv
      | new _ _ hp _ _ _ _ =>
          unfold IpTrack.varg? at hv
          rw [List.getElem?_eq_none hp] at hv
          exact absurd hv (by simp)
    · have hkey : k ≠ key := by
        rintro rfl
        cases hrec.conn with
        | old hget _ _ _ =>
            exact hq (Option.some.inj (Prod.mk.inj (Option.some.inj (hk.symm.trans hget))).2)
        | new hget _ _ _ _ _ _ =>
            rw [hget] at hk
            exact absurd hk (by simp)
      have hc' := hc k q v ((hrec.get_other k hkey).trans hk) ((hrec.varg_other q hq).trans hv)
      exact hc'
  · have hc' : s'.rowid < c := hc
    have hcv : varg.connId ≠ c := by omega
    rw [hrows, hrecs, if_neg hcv]
    exact h.fresh c (by omega)

end

/-! ## Runs -/

section
variable (clock : MstimeOps T) (addrOf : Nat → Nat) {r : IpTrackRun T} {m : ConnMap}

/-- The recorder of a step that touches no connection. -/
theorem Lossy.congr (h : r.Lossy m) {s' : IpTrack T} (hvarg : ∀ p, s'.varg? p = r.track.varg? p)
    (hrowid : s'.rowid = r.track.rowid) (hrows : s'.pktRows = r.track.pktRows) :
    (⟨s', r.records⟩ : IpTrackRun T).Lossy m := by
  have hcount : ∀ c, (⟨s', r.records⟩ : IpTrackRun T).rowCount c = r.rowCount c := by
    intro c
    unfold rowCount
    rw [show (⟨s', r.records⟩ : IpTrackRun T).track.pktRows = r.track.pktRows from hrows]
  have hvarg' : ∀ p, (⟨s', r.records⟩ : IpTrackRun T).track.varg? p = r.track.varg? p := hvarg
  obtain ⟨hle, hinj, hlive, hdead, hfresh⟩ := h
  constructor
  all_goals
    unfold Lost at *
    unfold Waiting at *
    simp only [hcount, hvarg', hrowid]
  · exact hle
  · exact hinj
  · exact hlive
  · exact hdead
  · exact hfresh

/-- A packet is recorded exactly when the tracker takes it. -/
theorem recordOf_isSome (hwf : r.track.Wf m) (now : T) (pktbuf : Int → UInt8) (pktlen : Int) :
    (IpTrack.recordOf clock addrOf r.track now pktbuf pktlen).isSome ↔
      IpTrack.Tracked pktbuf pktlen := by
  unfold IpTrack.recordOf
  rcases IpTrack.pktbuf_spec clock addrOf hwf now pktbuf pktlen with ⟨-, hnot, hconn⟩ |
    ⟨htracked, m', key, p, varg, vpkt, conn, hconn, hrec⟩
  · rw [hconn]
    exact iff_of_false (by simp) hnot
  · rw [hconn, Option.bind_some]
    dsimp only
    rw [hrec.varg]
    exact iff_of_true rfl htracked

/-- The step lemma: no lost packet is ever made good. -/
theorem lossy_step (h : r.Lossy m) (hwf : r.track.Wf m) (hcounts : r.track.Counts m)
    (op : IpTrackOp T) :
    ∃ m', (IpTrack.recStep clock addrOf r op).Lossy m' ∧
      (IpTrack.recStep clock addrOf r op).track.Wf m' ∧
      (IpTrack.recStep clock addrOf r op).track.Counts m' := by
  cases op with
  | packet now pktbuf pktlen =>
      unfold IpTrack.recStep
      dsimp only
      rcases IpTrack.pktbuf_spec clock addrOf hwf now pktbuf pktlen with ⟨hsame, -, hconn⟩ |
        ⟨-, m', key, p, varg, vpkt, conn, hconn, hrec⟩
      · -- a packet of no connection makes no record
        have hnone : IpTrack.recordOf clock addrOf r.track now pktbuf pktlen = none := by
          unfold IpTrack.recordOf
          rw [hconn]
          rfl
        rw [hnone, show IpTrack.step clock addrOf r.track (.packet now pktbuf pktlen) = r.track from
          hsame, Option.toList_none, List.append_nil]
        exact ⟨m, h, hwf, hcounts⟩
      · have hsome : ∃ rec, IpTrack.recordOf clock addrOf r.track now pktbuf pktlen = some rec ∧
            rec.connId = varg.connId := by
          unfold IpTrack.recordOf
          rw [hconn, Option.bind_some]
          dsimp only
          rw [hrec.varg]
          exact ⟨_, rfl, rfl⟩
        obtain ⟨rec, hrecord, hid⟩ := hsome
        rw [hrecord, Option.toList_some]
        exact ⟨m', h.record hrec hid, hrec.wf, (hrec.counts hcounts).1⟩
  | closed p =>
      obtain ⟨hwf', hcounts', -, hvarg⟩ := IpTrack.closed_spec hwf hcounts p
      unfold IpTrack.recStep
      rw [List.append_nil]
      exact ⟨m, h.congr hvarg rfl rfl, hwf', hcounts'⟩
  | tick time =>
      unfold IpTrack.recStep
      rw [List.append_nil]
      exact ⟨m, h.congr (fun _ => rfl) rfl rfl, ⟨hwf.track, hwf.length, hwf.varg, hwf.max⟩,
        ⟨hcounts.drift, hcounts.le_max⟩⟩
  | flush node =>
      obtain ⟨hwf₁, hcounts₁, -⟩ := IpTrack.atNode_spec hwf hcounts node
      -- looking for the node changes no row
      have h₁ : (⟨r.track.atNode node, r.records⟩ : IpTrackRun T).Lossy m :=
        h.congr (fun _ => rfl) rfl rfl
      unfold IpTrack.recStep
      rw [List.append_nil]
      rcases IpTrack.flushNode_spec clock hwf hcounts node with ⟨-, hsame⟩ |
        ⟨m', key, p, varg, -, hget, hvarg, -, hflushed⟩
      · rw [show IpTrack.step clock addrOf r.track (.flush node) = r.track.atNode node from hsame]
        exact ⟨m, h₁, hwf₁, hcounts₁⟩
      · exact ⟨m', (h₁.flush hwf₁ hget hvarg hflushed).1, hflushed.wf, hflushed.counts⟩

/-- What the calls of a flush of all connections keep, when `seen` are the entries so far. -/
def FlushInv (records : List (IpTrackPktRecord T)) (m : ConnMap)
    (seen : List (IpConnAddr × Option Nat)) (t : HashT IpConnAddr Nat) (arg : IpTrack T) : Prop :=
  ∃ m', (arg.setHash t).Wf m' ∧ (arg.setHash t).Counts m' ∧
    (⟨arg.setHash t, records⟩ : IpTrackRun T).Lossy m' ∧
    (∀ k e, m'.get k = some e → m.get k = some e) ∧
    ∀ e ∈ seen, (⟨arg.setHash t, records⟩ : IpTrackRun T).LostAt m' e.1

/-- The flush of all visits each connection for itself. -/
theorem visitsOwn_flush (records : List (IpTrackPktRecord T)) (m : ConnMap) :
    VisitsOwn (ipTrackForeachFlush clock) (FlushInv records m) := by
  rintro seen t ref arg e ⟨m₁, hwf, hcounts, hlossy, hsub, hseen⟩ - ⟨x, hx, hentry⟩ hat
  obtain ⟨k, hkx, he⟩ := Option.map_eq_some_iff.mp hentry
  obtain ⟨k', -, heat⟩ := Option.map_eq_some_iff.mp hat
  -- The entry of the node is in the map, so it has a record.
  have hget : m₁.get e.1 = some e := by
    refine (hwf.track.models.get_iff e.1 e).mpr ⟨?_, equivalence_keyEq_ipConn.refl _⟩
    exact List.mem_filterMap.mpr ⟨x, hx.mem_nodes, hentry⟩
  have hkey : k = e.1 := by rw [← he]
  rcases IpTrack.flushNode_spec clock hwf hcounts ref with ⟨hread, -⟩ |
    ⟨m', key, p, varg, hread, hgetp, hvarg, ⟨y, hy, hky⟩, hflushed⟩
  · obtain ⟨q, hq⟩ := hwf.track.entry_eq hget
    have hval : (t.patchAt ref).readVal ref = e.2 := by rw [← heat]
    rw [hq] at hval
    exact absurd (hread.symm.trans hval) (by simp)
  · obtain ⟨hwf₁, hcounts₁, -⟩ := IpTrack.atNode_spec hwf hcounts ref
    have hlossy₁ : (⟨(arg.setHash t).atNode ref, records⟩ : IpTrackRun T).Lossy m₁ :=
      hlossy.congr (fun _ => rfl) rfl rfl
    obtain ⟨hlossy', hlost, hkeep⟩ := hlossy₁.flush hwf₁ hgetp hvarg hflushed
    -- The node of the call is the one of the key.
    have hxy : x = y := by
      obtain ⟨xs, hxs, hxi⟩ := hx
      obtain ⟨ys, hys, hyi⟩ := hy
      obtain rfl := Option.some.inj (hxs.symm.trans hys)
      exact Option.some.inj (hxi.symm.trans hyi)
    have hkeyp : key = e.1 := by
      rw [← hxy] at hky
      rw [← hkey]
      exact (Option.some.inj (hkx.symm.trans hky)).symm
    generalize hs' : IpTrack.flushNode clock (arg.setHash t) ref = s' at hflushed hlossy' hlost hkeep
    have hcall : ipTrackForeachFlush clock (t.patchAt ref) ref arg
        = (s'.ipconntrack.mConnHash, s', 0) := by
      have hread' : (t.patchAt ref).readVal ref = some p := hread
      rw [← hs']
      unfold IpTrack.flushNode ipTrackForeachFlush
      dsimp only [IpTrack.setHash]
      rw [hread']
    refine ⟨_, _, hcall, ?_, m', hflushed.wf, hflushed.counts, hlossy', fun k e' hk => ?_,
      fun e' he' => ?_⟩
    · obtain ⟨hconf, -, hview⟩ := t.patchAt_spec ref
      have hown := hflushed.own ref x
        (show ∃ xs, (t.patchAt ref).view[ref.bucket]? = some xs ∧ xs[ref.idx]? = some x by
          rw [hview]
          exact hx)
        (hxy ▸ hky)
      exact ⟨hown.wf, hown.conf, hview ▸ hown.view⟩
    · exact hsub k e' (hflushed.sub k e' hk)
    · rcases List.mem_append.mp he' with hold | hnew
      · exact hkeep e'.1 (hseen e' hold)
      · rw [List.mem_singleton.mp hnew, ← hkeyp]
        exact hlost

/-- After a flush of all connections, every connection that recorded a packet lost one. -/
theorem flushAll_lost (h : r.Lossy m) (hwf : r.track.Wf m) (hcounts : r.track.Counts m) (time : T)
    (c : Nat) :
    let r' : IpTrackRun T := ⟨ipTrackFlushAll clock r.track time, r.records⟩
    r'.rowCount c = 0 ∧ r'.recCount c = 0 ∨ r'.Lost c 0 := by
  have hstart : FlushInv r.records m [] r.track.ipconntrack.mConnHash { r.track with time := time } :=
    ⟨m, ⟨hwf.track, hwf.length, hwf.varg, hwf.max⟩, ⟨hcounts.drift, hcounts.le_max⟩,
      h.congr (fun _ => rfl) rfl rfl, fun _ _ hk => hk, fun e he => absurd he List.not_mem_nil⟩
  obtain ⟨seen, t, arg, hforeach, hperm, -, m', hwf', -, hlossy', hsub, hseen⟩ :=
    hashForeach_visits (visitsOwn_flush clock r.records m) hstart hwf.track.models.wf
  intro r'
  have hr' : r' = ⟨arg.setHash t, r.records⟩ := by
    show (⟨ipTrackFlushAll clock r.track time, r.records⟩ : IpTrackRun T) = _
    unfold ipTrackFlushAll
    rw [hforeach]
  rw [hr']
  by_cases hlive : ∃ key p varg, m'.get key = some (key, some p) ∧
      (arg.setHash t).varg? p = some varg ∧ varg.connId = c
  · -- A connection that is still live was there at the start, so it was flushed.
    obtain ⟨key, p, varg, hget, hvarg, rfl⟩ := hlive
    have hmem : (key, some p) ∈ seen :=
      hperm.mem_iff.mpr ((hwf.track.models.get_iff key _).mp (hsub key _ hget)).1
    have hlost := hseen _ hmem p varg hget hvarg
    unfold Lost at hlost ⊢
    omega
  · refine hlossy'.dead c fun key p varg hget hvarg hc => hlive ⟨key, p, varg, hget, hvarg, hc⟩

/-- The run lemma: the invariant holds, and packets were recorded exactly when some were tracked. -/
theorem lossy_run (h : r.Lossy m) (hwf : r.track.Wf m) (hcounts : r.track.Counts m)
    (ops : List (IpTrackOp T)) :
    (∃ m', (run (IpTrack.recStep clock addrOf) r ops).Lossy m' ∧
        (run (IpTrack.recStep clock addrOf) r ops).track.Wf m' ∧
        (run (IpTrack.recStep clock addrOf) r ops).track.Counts m') ∧
      ((run (IpTrack.recStep clock addrOf) r ops).records = [] ↔
        r.records = [] ∧ ∀ op ∈ ops, ¬op.IsTracked) := by
  induction ops generalizing r m with
  | nil => exact ⟨⟨m, h, hwf, hcounts⟩, by simp⟩
  | cons op ops ih =>
      obtain ⟨m₁, h₁, hwf₁, hcounts₁⟩ := lossy_step clock addrOf h hwf hcounts op
      obtain ⟨hinv, hrecords⟩ := ih h₁ hwf₁ hcounts₁
      refine ⟨hinv, ?_⟩
      have hstep : (IpTrack.recStep clock addrOf r op).records = [] ↔
          r.records = [] ∧ ¬op.IsTracked := by
        unfold IpTrack.recStep
        rw [List.append_eq_nil_iff]
        refine and_congr_right fun _ => ?_
        cases op with
        | packet now pktbuf pktlen =>
            have hsome := recordOf_isSome clock addrOf hwf now pktbuf pktlen
            dsimp only
            rw [IpTrackOp.IsTracked, ← hsome]
            cases IpTrack.recordOf clock addrOf r.track now pktbuf pktlen <;> simp
        | closed => exact iff_of_true rfl id
        | tick => exact iff_of_true rfl id
        | flush => exact iff_of_true rfl id
      rw [run_cons, hrecords, hstep, List.forall_mem_cons, and_assoc]

/-- A recorder without connections. -/
theorem lossy_init (logDir : List UInt8) (rowid : Nat) (files : List UInt8 → List UInt8) :
    (⟨ipTrackInit clock logDir rowid files, []⟩ : IpTrackRun T).Lossy KeyMap.empty := by
  have hno : ∀ {key : IpConnAddr} {p : Nat},
      (KeyMap.empty : ConnMap).get key ≠ some (key, some p) := by
    intro key p hget
    rw [KeyMap.get_empty] at hget
    exact absurd hget (by simp)
  exact ⟨fun _ _ _ hget => absurd hget hno, fun _ _ _ _ _ _ hget => absurd hget hno,
    fun _ _ _ hget => absurd hget hno, fun _ _ => Or.inl ⟨rfl, rfl⟩, fun _ _ => ⟨rfl, rfl⟩⟩

end

end IpTrackRun

open IpTrackRun in
/-- After a flush of all connections, everything that was recorded is stored exactly when nothing was
recorded: a flush leaves out the last packet of every connection. -/
theorem ipTrack_complete_iff {T : Type} (clock : MstimeOps T) (addrOf : Nat → Nat)
    (logDir : List UInt8) (rowid : Nat) (files : List UInt8 → List UInt8) (ops : List (IpTrackOp T))
    (time : T) :
    let r := run (IpTrack.recStep clock addrOf) ⟨ipTrackInit clock logDir rowid files, []⟩ ops
    (∀ c, Complete files ⟨ipTrackFlushAll clock r.track time, r.records⟩ c) ↔
      ∀ op ∈ ops, ¬op.IsTracked := by
  intro r
  obtain ⟨hwf, hcounts, -⟩ := IpTrack.counts_init clock logDir rowid files
  obtain ⟨⟨m, hlossy, hwf', hcounts'⟩, hrecords⟩ :=
    lossy_run clock addrOf (lossy_init clock logDir rowid files) hwf hcounts ops
  have hrecords' : r.records = [] ↔ ∀ op ∈ ops, ¬op.IsTracked := hrecords.trans (and_iff_right rfl)
  rw [← hrecords']
  have hflush := flushAll_lost clock hlossy hwf' hcounts' time
  constructor
  · intro hcomplete
    by_contra hne
    -- The connection of any recorded packet has fewer rows than packets.
    obtain ⟨rec, hrec⟩ := List.exists_mem_of_ne_nil _ hne
    refine not_complete ?_ (hcomplete rec.connId)
    have hpos : 0 < r.records.countP (·.connId = rec.connId) :=
      List.countP_pos_iff.mpr ⟨rec, hrec, by simp⟩
    rcases hflush rec.connId with ⟨-, hzero⟩ | hlost
    · have hzero' : r.records.countP (·.connId = rec.connId) = 0 := hzero
      omega
    · exact hlost
  · intro hnil c
    rw [hnil]
    refine ⟨?_, fun rec hrec => absurd hrec List.not_mem_nil⟩
    have hrows : (ipTrackFlushAll clock r.track time).pktRows.countP (·.connId = c) = 0 := by
      rcases hflush c with ⟨hzero, -⟩ | hlost
      · exact hzero
      · have hlost' : _ < r.records.countP (·.connId = c) := hlost
        rw [hnil, List.countP_nil] at hlost'
        exact absurd hlost' (Nat.not_lt_zero _)
    have hempty : (ipTrackFlushAll clock r.track time).pktRows.filter (·.connId = c) = [] := by
      rw [← List.length_eq_zero_iff, ← List.countP_eq_length_filter]
      exact hrows
    show (((ipTrackFlushAll clock r.track time).pktRows.filter (·.connId = c)).map _).Perm _
    rw [hempty]
    exact List.Perm.refl _

/-- One packet and a flush of all connections: the packet is not stored. -/
theorem ipTrack_complete_lost :
    let r : IpTrackRun Nat := run (IpTrack.recStep secondsClock id)
      ⟨ipTrackInit secondsClock [] 0 fun _ => [], []⟩ [.packet 0 udpFrame 44]
    ¬IpTrackRun.Complete (fun _ => []) ⟨ipTrackFlushAll secondsClock r.track 5, r.records⟩ 1 := by
  apply IpTrackRun.not_complete
  decide +kernel

end Bklib
