import Mathlib.Data.Set.Card
import Bklib.Proofs.ConnIdentity
import Bklib.Proofs.HashForeach
import Bklib.Model.IpTrack

/-!
# `Bklib.Proofs.IpTrack`: the open logs of the connection recorder

`fd_open` is meant to be the number of live connections whose log is open. `openKeys` is the set of
these connections, by their keys, and `IpTrack.drift` is what the count lacks. The count goes up with
a log that is opened and down with one that is closed, so packets and flushes keep the drift. Only
the end of a connection does not: it takes one from the count whether the log is open or not
(`drift_ipTrackFlush`).
-/

set_option autoImplicit false

namespace Bklib

open Bklib.Lib

variable {T : Type}

/-! ## Records -/

namespace IpTrack

/-- The log of the connection `p` is open. -/
def logOpen (s : IpTrack T) (p : Nat) : Bool := (s.varg? p).any (·.fd)

/-- The number of live connections whose log is open. -/
def openLogs (s : IpTrack T) : Nat :=
  (hashEntries s.ipconntrack.mConnHash).countP fun e => e.2.any s.logOpen

/-- A connection's data after one record's change. -/
theorem varg?_modifyRec (s : IpTrack T) (p q : Nat) (f : IpTrackConn T → IpTrackConn T) :
    (s.modifyRec p f).varg? q
      = s.recs[q]?.bind fun conn => (if p = q then f conn else conn).connVarg := by
  unfold varg? modifyRec
  rw [List.getElem?_modify]
  cases s.recs[q]? <;> rfl

/-- A connection's data after one of them changes. -/
theorem varg?_modifyVarg (s : IpTrack T) (p q : Nat)
    (f : IpTrackConnVarg T → IpTrackConnVarg T) :
    (s.modifyVarg p f).varg? q = (s.varg? q).map fun varg => if p = q then f varg else varg := by
  rw [modifyVarg, varg?_modifyRec, varg?]
  cases s.recs[q]? with
  | none => rfl
  | some conn => by_cases hpq : p = q <;> simp [hpq]

/-- Whether a log is open after one connection's change. -/
theorem logOpen_modifyVarg (s : IpTrack T) (p q : Nat) (f : IpTrackConnVarg T → IpTrackConnVarg T) :
    (s.modifyVarg p f).logOpen q
      = if p = q then (s.varg? q).any fun varg => (f varg).fd else s.logOpen q := by
  unfold logOpen
  rw [varg?_modifyVarg]
  by_cases hpq : p = q
  · simp only [if_pos hpq]
    cases s.varg? q <;> rfl
  · simp only [if_neg hpq]
    cases s.varg? q <;> rfl

/-! ### Open logs -/

/-- The live connections whose log is open. -/
def openKeys (s : IpTrack T) (m : ConnMap) : Set IpConnAddr :=
  { key | ∃ p, m.get key = some (key, some p) ∧ s.logOpen p = true }

theorem mem_openKeys (s : IpTrack T) (m : ConnMap) (key : IpConnAddr) :
    key ∈ s.openKeys m ↔ ∃ p, m.get key = some (key, some p) ∧ s.logOpen p = true := Iff.rfl

/-- What `fd_open` lacks to the number of open logs. -/
noncomputable def drift (s : IpTrack T) (m : ConnMap) : Int := (s.openKeys m).ncard - s.fdOpen

/-- The recorder is well formed: a record goes with every record of the tracker, and a live one has
its `conn_varg`. -/
structure Wf (s : IpTrack T) (m : ConnMap) : Prop where
  track : s.ipconntrack.Wf m
  length : s.recs.length = s.ipconntrack.conns.length
  varg : ∀ key p, m.get key = some (key, some p) → (s.varg? p).isSome
  max : 0 ≤ s.fdMax

/-- The number of open logs is right or too low, and low enough for one more log. -/
structure Counts (s : IpTrack T) (m : ConnMap) : Prop where
  drift : 0 ≤ s.drift m
  le_max : s.fdOpen ≤ s.fdMax + 1

variable {s : IpTrack T} {m : ConnMap}

/-- The entries of the table are those of the map. -/
theorem mem_hashEntries (h : s.ipconntrack.Wf m) (e : IpConnAddr × Option Nat) :
    e ∈ hashEntries s.ipconntrack.mConnHash ↔ ∃ p, e = (e.1, some p) ∧ m.get e.1 = some e := by
  rw [(perm_hashEntries h.models.wf).mem_iff]
  have hget := h.models.get_iff e.1 e
  have hself : keyEq ipConnHash ipConnCmp e.1 e.1 := equivalence_keyEq_ipConn.refl _
  constructor
  · intro he
    have hm := hget.mpr ⟨he, hself⟩
    obtain ⟨p, hp⟩ := h.entry_eq hm
    exact ⟨p, hp, hm⟩
  · rintro ⟨p, -, hm⟩
    exact (hget.mp hm).1

/-- Every connection stands in the table once. -/
theorem nodup_hashEntries (h : s.ipconntrack.Wf m) :
    ((hashEntries s.ipconntrack.mConnHash).map Prod.fst).Nodup := by
  have hdistinct : s.ipconntrack.mConnHash.entries.Pairwise
      fun e e' => ¬keyEq ipConnHash ipConnCmp e.1 e'.1 :=
    h.models.hash_eq ▸ h.models.cmp_eq ▸ h.models.wf.distinct
  have hpair := (pairwise_ne_perm equivalence_keyEq_ipConn (perm_hashEntries h.models.wf)).mpr
    hdistinct
  rw [List.Nodup, List.pairwise_map]
  exact hpair.imp fun hne hab => hne (by rw [hab]; exact equivalence_keyEq_ipConn.refl _)

/-- The count of the open logs in the table. -/
theorem openLogs_eq (h : s.ipconntrack.Wf m) :
    s.openLogs = (s.openKeys m).ncard ∧ (s.openKeys m).Finite := by
  classical
  let open? : IpConnAddr × Option Nat → Bool := fun e => e.2.any s.logOpen
  have hset : s.openKeys m
      = (((hashEntries s.ipconntrack.mConnHash).filter open?).map Prod.fst).toFinset := by
    ext key
    rw [Finset.mem_coe, List.mem_toFinset, List.mem_map]
    constructor
    · rintro ⟨p, hget, hopen⟩
      refine ⟨(key, some p), List.mem_filter.mpr ⟨?_, hopen⟩, rfl⟩
      exact (mem_hashEntries h _).mpr ⟨p, rfl, hget⟩
    · rintro ⟨e, he, rfl⟩
      obtain ⟨hmem, hopen⟩ := List.mem_filter.mp he
      obtain ⟨p, hp, hget⟩ := (mem_hashEntries h e).mp hmem
      refine ⟨p, hp ▸ hget, ?_⟩
      have hopen' : e.2.any s.logOpen = true := hopen
      rwa [hp] at hopen'
  have hnodup : (((hashEntries s.ipconntrack.mConnHash).filter open?).map Prod.fst).Nodup :=
    (nodup_hashEntries h).sublist (List.Sublist.map _ List.filter_sublist)
  refine ⟨?_, hset ▸ Finset.finite_toSet _⟩
  rw [hset, Set.ncard_coe_finset, List.toFinset_card_of_nodup hnodup, List.length_map, openLogs,
    List.countP_eq_length_filter]

/-- The open connections, when the map and the open logs are the same. -/
theorem openKeys_congr {s' : IpTrack T} (h : ∀ p, s'.logOpen p = s.logOpen p) :
    s'.openKeys m = s.openKeys m := by
  unfold openKeys
  simp only [h]

theorem drift_congr {s' : IpTrack T} (h : ∀ p, s'.logOpen p = s.logOpen p)
    (hfd : s'.fdOpen = s.fdOpen) : s'.drift m = s.drift m := by
  unfold drift
  rw [openKeys_congr h, hfd]

end IpTrack

/-! ## Opening and closing -/

/-- A record without the state of its log. -/
def IpTrackConn.shut (conn : IpTrackConn T) : IpTrackConn T :=
  { conn with connVarg := conn.connVarg.map fun varg => { varg with fd := false, off := 0 } }

namespace IpTrack

variable {s s' s'' : IpTrack T} {m : ConnMap}

/-- Nothing but logs, files and rows of `pkt` changed, and the drift did not. -/
structure LogsOnly (s s' : IpTrack T) (m : ConnMap) : Prop where
  track : s'.ipconntrack.Wf m
  conf : s'.ipconntrack.mConnHash.toHashConf = s.ipconntrack.mConnHash.toHashConf
  view : s'.ipconntrack.mConnHash.view = s.ipconntrack.mConnHash.view
  conns : s'.ipconntrack.conns = s.ipconntrack.conns
  recs : s'.recs.map IpTrackConn.shut = s.recs.map IpTrackConn.shut
  rowid : s'.rowid = s.rowid
  fdMax : s'.fdMax = s.fdMax
  time : s'.time = s.time
  drift : s'.drift m = s.drift m

theorem LogsOnly.refl (h : s.ipconntrack.Wf m) : LogsOnly s s m :=
  ⟨h, rfl, rfl, rfl, rfl, rfl, rfl, rfl, rfl⟩

theorem LogsOnly.trans (h : LogsOnly s s' m) (h' : LogsOnly s' s'' m) : LogsOnly s s'' m :=
  ⟨h'.track, h'.conf.trans h.conf, h'.view.trans h.view, h'.conns.trans h.conns, h'.recs.trans h.recs,
    h'.rowid.trans h.rowid, h'.fdMax.trans h.fdMax, h'.time.trans h.time, h'.drift.trans h.drift⟩

/-- What is left of a record is what was there, but for its log. -/
theorem LogsOnly.record (h : LogsOnly s s' m) (p : Nat) :
    s'.recs[p]?.map IpTrackConn.shut = s.recs[p]?.map IpTrackConn.shut := by
  rw [← List.getElem?_map, ← List.getElem?_map, h.recs]

/-- A step that only logs leaves a connection all but its descriptor and its offset. -/
theorem LogsOnly.varg (h : LogsOnly s s' m) {p : Nat} {varg : IpTrackConnVarg T}
    (hvarg : s.varg? p = some varg) :
    ∃ fd off, s'.varg? p = some { varg with fd := fd, off := off } := by
  have hrec := h.record p
  unfold varg? at hvarg ⊢
  cases hs : s.recs[p]? with
  | none => rw [hs] at hvarg; exact absurd hvarg (by simp)
  | some conn =>
      rw [hs] at hrec hvarg
      obtain ⟨conn', hs', hshut⟩ := Option.map_eq_some_iff.mp hrec
      have hconn : conn.connVarg = some varg := hvarg
      have hv := congrArg IpTrackConn.connVarg hshut
      simp only [IpTrackConn.shut, hconn, Option.map_some] at hv
      obtain ⟨varg', hvarg', heq⟩ := Option.map_eq_some_iff.mp hv
      rw [hs', Option.bind_some, hvarg']
      refine ⟨varg'.fd, varg'.off, ?_⟩
      cases varg
      cases varg'
      simp only [IpTrackConnVarg.mk.injEq] at heq ⊢
      simp [heq]

/-- Such a step keeps the table well formed. -/
theorem LogsOnly.wf (h : LogsOnly s s' m) (hs : s.Wf m) : s'.Wf m where
  track := h.track
  length := by
    have hlen := congrArg List.length h.recs
    rw [List.length_map, List.length_map] at hlen
    rw [hlen, h.conns, hs.length]
  varg key p hget := by
    obtain ⟨varg, hvarg⟩ := Option.isSome_iff_exists.mp (hs.varg key p hget)
    obtain ⟨fd, off, hvarg'⟩ := h.varg hvarg
    rw [hvarg']
    rfl
  max := h.fdMax ▸ hs.max

/-- A change of the log of one connection is none of the rest. -/
theorem recs_shut_modifyVarg (s : IpTrack T) (p : Nat) (f : IpTrackConnVarg T → IpTrackConnVarg T)
    (hf : ∀ varg, ({ f varg with fd := false, off := 0 } : IpTrackConnVarg T)
      = { varg with fd := false, off := 0 }) :
    (s.modifyVarg p f).recs.map IpTrackConn.shut = s.recs.map IpTrackConn.shut := by
  apply List.ext_getElem?
  intro i
  unfold modifyVarg modifyRec
  rw [List.getElem?_map, List.getElem?_map, List.getElem?_modify]
  cases s.recs[i]? with
  | none => rfl
  | some conn =>
      by_cases hp : p = i
      · simp only [hp, if_true, Option.map_eq_map, Option.map_some, Option.some.injEq]
        unfold IpTrackConn.shut
        cases conn.connVarg with
        | none => rfl
        | some varg => simp only [Option.map_some, hf]
      · simp [hp]

/-- `fclose` of an open log. -/
theorem closeLog_spec (h : s.Wf m) {key : IpConnAddr} {p : Nat}
    (hget : m.get key = some (key, some p)) (hopen : s.logOpen p = true) :
    LogsOnly s (ipTrackCloseLog s p) m ∧ (ipTrackCloseLog s p).fdOpen = s.fdOpen - 1 ∧
      ∀ q, (ipTrackCloseLog s p).logOpen q = if p = q then false else s.logOpen q := by
  have hlog : ∀ q, (ipTrackCloseLog s p).logOpen q = if p = q then false else s.logOpen q := by
    intro q
    have hmod := s.logOpen_modifyVarg p q fun varg => { varg with fd := false }
    rw [show (ipTrackCloseLog s p).logOpen q
      = (s.modifyVarg p fun varg => { varg with fd := false }).logOpen q from rfl, hmod]
    by_cases hpq : p = q
    · simp only [if_pos hpq]
      cases s.varg? q <;> rfl
    · simp only [if_neg hpq]
  -- The set of open connections loses this one.
  have hkeys : (ipTrackCloseLog s p).openKeys m = s.openKeys m \ {key} := by
    ext k
    rw [Set.mem_sdiff, mem_openKeys, mem_openKeys, Set.mem_singleton_iff]
    constructor
    · rintro ⟨q, hq, hopenq⟩
      rw [hlog] at hopenq
      split at hopenq
      · exact absurd hopenq (by simp)
      · rename_i hpq
        refine ⟨⟨q, hq, hopenq⟩, fun hk => hpq ?_⟩
        rw [hk, hget] at hq
        exact Option.some.inj (Prod.mk.inj (Option.some.inj hq)).2
    · rintro ⟨⟨q, hq, hopenq⟩, hk⟩
      refine ⟨q, hq, ?_⟩
      have hpq : p ≠ q := by
        rintro rfl
        exact hk (h.track.key_eq hq hget)
      rw [hlog, if_neg hpq]
      exact hopenq
  have hmem : key ∈ s.openKeys m := ⟨p, hget, hopen⟩
  have hfin := (openLogs_eq h.track).2
  have hrecs := s.recs_shut_modifyVarg p
  refine ⟨⟨h.track, rfl, rfl, rfl, hrecs _ fun _ => rfl, rfl, rfl, rfl, ?_⟩, rfl, hlog⟩
  have hcard := Set.ncard_sdiff_singleton_add_one hmem hfin
  unfold drift
  rw [hkeys, show (ipTrackCloseLog s p).fdOpen = s.fdOpen - 1 from rfl]
  omega

/-- `fopen` of a log that is not open. -/
theorem openLog_spec (h : s.Wf m) {key : IpConnAddr} {p : Nat}
    (hget : m.get key = some (key, some p)) (hclosed : s.logOpen p = false) :
    LogsOnly s (ipTrackOpenLog s p) m ∧ (ipTrackOpenLog s p).fdOpen = s.fdOpen + 1 ∧
      ∀ q, (ipTrackOpenLog s p).logOpen q = if p = q then true else s.logOpen q := by
  have hsome := h.varg key p hget
  have hlog : ∀ q, (ipTrackOpenLog s p).logOpen q = if p = q then true else s.logOpen q := by
    intro q
    have hmod := s.logOpen_modifyVarg p q
      fun varg => { varg with fd := true, off := (s.files varg.fname).length }
    rw [show (ipTrackOpenLog s p).logOpen q
      = (s.modifyVarg p fun varg =>
          { varg with fd := true, off := (s.files varg.fname).length }).logOpen q from rfl, hmod]
    by_cases hpq : p = q
    · subst hpq
      obtain ⟨varg, hvarg⟩ := Option.isSome_iff_exists.mp hsome
      simp [hvarg]
    · simp only [if_neg hpq]
  -- one key more has an open log, and one file more is open: the drift stays
  have hkeys : (ipTrackOpenLog s p).openKeys m = insert key (s.openKeys m) := by
    ext k
    rw [Set.mem_insert_iff, mem_openKeys, mem_openKeys]
    constructor
    · rintro ⟨q, hq, hopenq⟩
      by_cases hpq : p = q
      · exact Or.inl (h.track.key_eq hq (hpq ▸ hget))
      · rw [hlog, if_neg hpq] at hopenq
        exact Or.inr ⟨q, hq, hopenq⟩
    · rintro (rfl | ⟨q, hq, hopenq⟩)
      · exact ⟨p, hget, by rw [hlog, if_pos rfl]⟩
      · refine ⟨q, hq, ?_⟩
        rw [hlog, hopenq, ite_self]
  -- the record of `key` is `p`, whose log was closed
  have hnot : key ∉ s.openKeys m := by
    rintro ⟨q, hq, hopenq⟩
    obtain rfl : p = q := Option.some.inj (Prod.mk.inj (Option.some.inj (hget.symm.trans hq))).2
    rw [hclosed] at hopenq
    exact absurd hopenq (by decide)
  have hfin := (openLogs_eq h.track).2
  have hrecs := s.recs_shut_modifyVarg p
  refine ⟨⟨h.track, rfl, rfl, rfl, hrecs _ fun _ => rfl, rfl, rfl, rfl, ?_⟩, rfl, hlog⟩
  have hcard := Set.ncard_insert_of_notMem hnot hfin
  unfold drift
  rw [hkeys, show (ipTrackOpenLog s p).fdOpen = s.fdOpen + 1 from rfl]
  omega

/-- Writing to a log changes its file and where the log ends. -/
theorem writeLog_spec (h : s.Wf m) (p : Nat) (data : List UInt8) :
    LogsOnly s (ipTrackWriteLog s p data) m ∧
      (ipTrackWriteLog s p data).fdOpen = s.fdOpen ∧
      (ipTrackWriteLog s p data).pktRows = s.pktRows ∧
      ∀ q, (ipTrackWriteLog s p data).logOpen q = s.logOpen q := by
  unfold ipTrackWriteLog
  cases hvarg : s.varg? p with
  | none => exact ⟨LogsOnly.refl h.track, rfl, rfl, fun _ => rfl⟩
  | some varg =>
      dsimp only
      have hlog : ∀ q, (s.modifyVarg p fun varg =>
          { varg with off := varg.off + data.length }).logOpen q = s.logOpen q := by
        intro q
        rw [logOpen_modifyVarg, ite_eq_right_iff]
        intro _
        rfl
      have hrecs := s.recs_shut_modifyVarg p
      refine ⟨⟨h.track, rfl, rfl, rfl, hrecs _ fun _ => rfl, rfl, rfl, rfl, ?_⟩, rfl, rfl, hlog⟩
      exact drift_congr hlog rfl

/-! ### The log to close -/

section
variable (clock : MstimeOps T)

/-- What `IpTrack_foreach_lru_varg` does with an entry of the table. -/
def lruVisit (s : IpTrack T) (lru : Option Nat) (e : IpConnAddr × Option Nat) : Option Nat :=
  match e.2.bind fun p => s.recs[p]?.map fun conn => (p, conn) with
  | none           => lru
  | some (p, conn) =>
      let older := match lru.bind (s.recs[·]?) with
        | none     => true
        | some old => clock.less conn.connTimeLast old.connTimeLast
      if conn.connVarg.any (·.fd) && older then some p else lru

/-- The callback leaves the table it is called on. -/
theorem visits_lruVisit (s : IpTrack T) :
    Visits (ipTrackForeachLruVarg clock s) (lruVisit clock s) := by
  intro t ref lru e he
  obtain ⟨k, -, rfl⟩ := Option.map_eq_some_iff.mp he
  unfold ipTrackForeachLruVarg lruVisit
  dsimp only
  cases (t.readVal ref).bind fun p => s.recs[p]?.map fun conn => (p, conn) <;> rfl

/-- A connection is taken when its log is open and it is the first such one, or older. -/
theorem lruVisit_spec (s : IpTrack T) (lru : Option Nat) (e : IpConnAddr × Option Nat) :
    (lruVisit clock s lru e = none → lru = none ∧ ∀ p, e.2 = some p → s.logOpen p = false) ∧
      ∀ q, lruVisit clock s lru e = some q → lru = some q ∨ e.2 = some q ∧ s.logOpen q = true := by
  unfold lruVisit logOpen varg?
  cases hval : e.2 with
  | none => exact ⟨fun h => ⟨h, fun p hp => absurd hp (by simp)⟩, fun q h => Or.inl h⟩
  | some p =>
      cases hrec : s.recs[p]? with
      | none =>
          simp only [Option.bind_some, hrec, Option.map_none]
          refine ⟨fun h => ⟨h, fun q hq => ?_⟩, fun q h => Or.inl h⟩
          rw [← Option.some.inj hq, hrec]
          rfl
      | some conn =>
          simp only [Option.bind_some, hrec, Option.map_some]
          -- Without a log so far, an open one is taken whatever its age.
          have hfirst : lru = none → (match lru.bind (s.recs[·]?) with
              | none => true
              | some old => clock.less conn.connTimeLast old.connTimeLast) = true := by
            rintro rfl
            rfl
          generalize (match lru.bind (s.recs[·]?) with
            | none => true
            | some old => clock.less conn.connTimeLast old.connTimeLast) = older at hfirst ⊢
          by_cases hopen : (conn.connVarg.any (·.fd) && older) = true
          · rw [if_pos hopen]
            refine ⟨fun h => absurd h (by simp), fun q hq => Or.inr ⟨hq, ?_⟩⟩
            rw [Bool.and_eq_true] at hopen
            rw [← Option.some.inj hq, hrec]
            exact hopen.1
          · rw [if_neg hopen]
            refine ⟨fun h => ⟨h, fun q hq => ?_⟩, fun q h => Or.inl h⟩
            rw [← Option.some.inj hq, hrec, Option.bind_some]
            rw [hfirst h, Bool.and_true, Bool.not_eq_true] at hopen
            exact hopen

/-- The search over a list of connections. -/
theorem foldl_lruVisit (s : IpTrack T) (l : List (IpConnAddr × Option Nat)) (lru : Option Nat) :
    (l.foldl (lruVisit clock s) lru = none →
        lru = none ∧ ∀ e ∈ l, ∀ p, e.2 = some p → s.logOpen p = false) ∧
      ∀ q, l.foldl (lruVisit clock s) lru = some q →
        lru = some q ∨ ∃ e ∈ l, e.2 = some q ∧ s.logOpen q = true := by
  induction l generalizing lru with
  | nil => exact ⟨fun h => ⟨h, fun e he => absurd he List.not_mem_nil⟩, fun q h => Or.inl h⟩
  | cons e l ih =>
      obtain ⟨hnone, hsome⟩ := lruVisit_spec clock s lru e
      obtain ⟨ihnone, ihsome⟩ := ih (lruVisit clock s lru e)
      constructor
      · intro h
        obtain ⟨hfirst, hrest⟩ := ihnone h
        refine ⟨(hnone hfirst).1, fun e' he' => ?_⟩
        rcases List.mem_cons.mp he' with rfl | hl
        · exact (hnone hfirst).2
        · exact hrest e' hl
      · intro q h
        rcases ihsome q h with hfirst | ⟨e', he', hq⟩
        · rcases hsome q hfirst with hlru | hq
          · exact Or.inl hlru
          · exact Or.inr ⟨e, List.mem_cons_self, hq⟩
        · exact Or.inr ⟨e', List.mem_cons_of_mem e he', hq⟩

/-- The search finds an open log of a live connection, if there is one. -/
theorem lru_spec (h : s.Wf m) :
    ∃ s' lru, ipTrackLru clock s = (s', lru) ∧ LogsOnly s s' m ∧ s'.fdOpen = s.fdOpen ∧
      s'.pktRows = s.pktRows ∧ (∀ q, s'.logOpen q = s.logOpen q) ∧
      (lru = none → s.openKeys m = ∅) ∧
      ∀ q, lru = some q → ∃ key, m.get key = some (key, some q) ∧ s.logOpen q = true := by
  obtain ⟨t, l, hforeach, hperm, hconf, hcount, hview⟩ :=
    hashForeach_spec (visits_lruVisit clock s) h.track.models.wf none
  have hmodels : t.Models equivalence_keyEq_ipConn m :=
    h.track.models.congr (h.track.models.wf.congr hconf hview hcount) hconf fun e => by
      rw [HashT.entries_congr hconf hview]
  obtain ⟨htrack, -⟩ := h.track.setHash hmodels
  obtain ⟨hnone, hsome⟩ := foldl_lruVisit clock s l none
  refine ⟨s.setHash t, l.foldl (lruVisit clock s) none, by simp only [ipTrackLru, hforeach], ?_, rfl,
    rfl, fun _ => rfl, fun hlru => ?_, fun q hq => ?_⟩
  · exact ⟨htrack, hconf, hview, rfl, rfl, rfl, rfl, rfl, drift_congr (fun _ => rfl) rfl⟩
  · rw [Set.eq_empty_iff_forall_notMem]
    rintro key ⟨p, hget, hopen⟩
    have hmem := hperm.mem_iff.mpr ((h.track.models.get_iff key _).mp hget).1
    rw [(hnone hlru).2 _ hmem p rfl] at hopen
    exact absurd hopen (by decide)
  · rcases hsome q hq with hlru | ⟨e, he, hval, hopen⟩
    · exact absurd hlru (by simp)
    · have hmem := (h.track.models.get_iff e.1 e).mpr
        ⟨hperm.mem_iff.mp he, equivalence_keyEq_ipConn.refl _⟩
      refine ⟨e.1, ?_, hopen⟩
      rw [hmem, ← hval]

/-- With a count that is not too high, there is room for one more log afterwards. -/
theorem evict_spec (h : s.Wf m) (hdrift : 0 ≤ s.drift m) (hmax : s.fdOpen ≤ s.fdMax + 1) :
    ∃ s', ipTrackEvict clock s = (s', true) ∧ LogsOnly s s' m ∧ s'.fdOpen ≤ s.fdMax ∧
      s'.pktRows = s.pktRows ∧ ∀ q, s.logOpen q = false → s'.logOpen q = false := by
  unfold ipTrackEvict
  by_cases hfull : s.fdOpen > s.fdMax
  · rw [if_pos hfull]
    obtain ⟨s₁, lru, hlru, hlogs, hfd, hrows, hopen, hnone, hsome⟩ := lru_spec clock h
    rw [hlru]
    cases lru with
    | none =>
        -- There would be no open log, and the count would be too high.
        have hmax := h.max
        rw [drift, hnone rfl, Set.ncard_empty] at hdrift
        omega
    | some q =>
        obtain ⟨key, hget, hq⟩ := hsome q rfl
        obtain ⟨hclose, hfd', hopen'⟩ :=
          closeLog_spec (hlogs.wf h) hget ((hopen q).trans hq)
        refine ⟨_, rfl, hlogs.trans hclose, by omega, hrows, fun p hp => ?_⟩
        rw [hopen', hopen, hp, ite_self]
  · rw [if_neg hfull]
    exact ⟨s, rfl, LogsOnly.refl h.track, by omega, rfl, fun _ hp => hp⟩

end

/-! ### The packets of a flush -/

/-- The length of the data of packet `idx` of the list. -/
def msgLen (vpkts : List (IpTrackConnVargPkt T)) (vpkt : IpTrackConnVargPkt T) (idx : Nat) : Int :=
  vpkt.endOff - ipTrackPktOff vpkts vpkt.queue idx

/-- The row that a flush inserts for packet `idx`, but for the place in the log. -/
def flushRow (connId : Nat) (vpkts : List (IpTrackConnVargPkt T))
    (first vpkt : IpTrackConnVargPkt T) (idx : Nat) : IpTrackPktRow T where
  connId := connId
  time := vpkt.time
  fromServer := vpkt.fromServer
  msgOff := 0
  msgLen := msgLen vpkts vpkt idx
  rawLen := first.rawLen

/-- Some of the `n` packets from `idx` on has data. -/
def HasData (vpkts : List (IpTrackConnVargPkt T)) (idx n : Nat) : Prop :=
  ∃ j vpkt, idx ≤ j ∧ j < idx + n ∧ vpkts[j]? = some vpkt ∧ 0 < msgLen vpkts vpkt j

theorem hasData_zero (vpkts : List (IpTrackConnVargPkt T)) (idx : Nat) : ¬HasData vpkts idx 0 := by
  rintro ⟨j, vpkt, hle, hlt, -⟩
  omega

/-- There is data among the first packets if the first has some, or the others. -/
theorem hasData_succ {vpkts : List (IpTrackConnVargPkt T)} {vpkt : IpTrackConnVargPkt T} {idx : Nat}
    (hvpkt : vpkts[idx]? = some vpkt) (n : Nat) :
    HasData vpkts idx (n + 1) ↔ 0 < msgLen vpkts vpkt idx ∨ HasData vpkts (idx + 1) n := by
  constructor
  · rintro ⟨j, v, hle, hlt, hv, hpos⟩
    rcases Nat.eq_or_lt_of_le hle with rfl | hgt
    · obtain rfl := Option.some.inj (hv.symm.trans hvpkt)
      exact Or.inl hpos
    · exact Or.inr ⟨j, v, hgt, by omega, hv, hpos⟩
  · rintro (hpos | ⟨j, v, hle, hlt, hv, hpos⟩)
    · exact ⟨idx, vpkt, le_rfl, by omega, hvpkt, hpos⟩
    · exact ⟨j, v, by omega, by omega, hv, hpos⟩

section
variable (clock : MstimeOps T)

/-- One round of a flush: the row is inserted, and the log is open when the packet has data. -/
theorem flushPkt_spec (h : s.Wf m) (hcounts : s.Counts m) {key : IpConnAddr} {p : Nat}
    (hget : m.get key = some (key, some p)) {varg : IpTrackConnVarg T}
    (hvarg : s.varg? p = some varg) (vpkts : List (IpTrackConnVargPkt T))
    (first vpkt : IpTrackConnVargPkt T) (idx : Nat) :
    ∃ s', ipTrackFlushPkt clock s p vpkts first vpkt idx = (s', true) ∧ LogsOnly s s' m ∧
      s'.Counts m ∧
      s'.pktRows
        = s.pktRows ++ [{ flushRow varg.connId vpkts first vpkt idx with msgOff := varg.off }] ∧
      (s'.logOpen p = true ↔ s.logOpen p = true ∨ 0 < msgLen vpkts vpkt idx) := by
  obtain ⟨p', conn, hp', hconn, -⟩ := h.track.conns key _ hget
  obtain rfl : p = p' := Option.some.inj hp'
  -- The row is inserted before anything else.
  have hinsert : LogsOnly s (ipTrackInsertPkt s varg first vpkt (msgLen vpkts vpkt idx)) m :=
    ⟨h.track, rfl, rfl, rfl, rfl, rfl, rfl, rfl, drift_congr (fun _ => rfl) rfl⟩
  have hwf := hinsert.wf h
  unfold ipTrackFlushPkt
  simp only [hvarg, hconn]
  rw [← show msgLen vpkts vpkt idx = (vpkt.endOff : Int) - ipTrackPktOff vpkts vpkt.queue idx from rfl]
  generalize hs₁ : ipTrackInsertPkt s varg first vpkt (msgLen vpkts vpkt idx) = s₁ at hinsert hwf ⊢
  have hrows₁ : s₁.pktRows
      = s.pktRows ++ [{ flushRow varg.connId vpkts first vpkt idx with msgOff := varg.off }] := by
    rw [← hs₁]
    rfl
  have hopen₁ : s₁.logOpen p = varg.fd := by
    rw [← hs₁]
    show (s.varg? p).any (·.fd) = varg.fd
    rw [hvarg]
    rfl
  have hopen : s.logOpen p = varg.fd := by
    unfold logOpen
    rw [hvarg]
    rfl
  have hfd₁ : s₁.fdOpen = s.fdOpen := by rw [← hs₁]; rfl
  have hdrift₁ : 0 ≤ s₁.drift m := hinsert.drift ▸ hcounts.drift
  have hmax₁ : s₁.fdOpen ≤ s₁.fdMax + 1 := by
    rw [hfd₁, hinsert.fdMax]
    exact hcounts.le_max
  by_cases hdata : msgLen vpkts vpkt idx > 0
  · rw [if_pos hdata]
    generalize ((conn.queue vpkt.queue).buf.elts.drop _).take _ = data
    cases hfd : varg.fd with
    | true =>
        obtain ⟨hwrite, hfdOpen, hrows, hlog⟩ := writeLog_spec hwf p data
        refine ⟨_, rfl, hinsert.trans hwrite, ⟨?_, ?_⟩, hrows.trans hrows₁, ?_⟩
        · rw [hwrite.drift]
          exact hdrift₁
        · rw [hfdOpen, hwrite.fdMax]
          exact hmax₁
        · rw [hlog, hopen₁, hopen, hfd]
          simp
    | false =>
        obtain ⟨s₂, hevict, hlogs₂, hroom, hrows₂, hclosed⟩ := evict_spec clock hwf hdrift₁ hmax₁
        rw [hfd] at hopen₁
        obtain ⟨hopenLog, hfdOpen₃, hlog₃⟩ := openLog_spec (hlogs₂.wf hwf) hget (hclosed p hopen₁)
        obtain ⟨hwrite, hfdOpen, hrows, hlog⟩ :=
          writeLog_spec (hopenLog.wf (hlogs₂.wf hwf)) p data
        have hall := (hlogs₂.trans hopenLog).trans hwrite
        simp only [Bool.false_eq_true, if_false, hevict]
        refine ⟨_, rfl, hinsert.trans hall, ⟨?_, ?_⟩, ?_, ?_⟩
        · rw [hall.drift]
          exact hdrift₁
        · rw [hfdOpen, hfdOpen₃, hall.fdMax]
          omega
        · rw [hrows, show (ipTrackOpenLog s₂ p).pktRows = s₂.pktRows from rfl, hrows₂, hrows₁]
        · rw [hlog, hlog₃, if_pos rfl]
          exact ⟨fun _ => Or.inr hdata, fun _ => rfl⟩
  · rw [if_neg hdata]
    refine ⟨s₁, rfl, hinsert, ⟨hdrift₁, hmax₁⟩, hrows₁, ?_⟩
    rw [hopen₁, hopen]
    exact ⟨Or.inl, fun h => h.resolve_right hdata⟩

/-- The loop of a flush, from packet `idx` on. -/
theorem flushLoop_spec {key : IpConnAddr} {p : Nat} (hget : m.get key = some (key, some p))
    {vpkts : List (IpTrackConnVargPkt T)} {first : IpTrackConnVargPkt T}
    (hfirst : vpkts[0]? = some first) {connId : Nat} (n idx : Nat) (hn : idx + n ≤ vpkts.length)
    {s : IpTrack T} (h : s.Wf m) (hcounts : s.Counts m) {varg : IpTrackConnVarg T}
    (hvarg : s.varg? p = some varg) (hid : varg.connId = connId) :
    ∃ s' rows, ipTrackFlushLoop clock p vpkts idx n s = s' ∧ LogsOnly s s' m ∧ s'.Counts m ∧
      s'.pktRows = s.pktRows ++ rows ∧
      rows.map (fun row => { row with msgOff := 0 })
        = (List.range' idx n).filterMap
            (fun j => vpkts[j]?.map fun vpkt => flushRow connId vpkts first vpkt j) ∧
      (s'.logOpen p = true ↔ s.logOpen p = true ∨ HasData vpkts idx n) := by
  induction n generalizing idx s varg with
  | zero =>
      refine ⟨s, [], rfl, LogsOnly.refl h.track, hcounts, (List.append_nil _).symm, rfl, ?_⟩
      exact ⟨Or.inl, fun ho => ho.resolve_right (hasData_zero vpkts idx)⟩
  | succ n ih =>
      have hvpkt : vpkts[idx]? = some vpkts[idx] := List.getElem?_eq_getElem (by omega)
      generalize vpkts[idx] = vpkt at hvpkt
      obtain ⟨s₁, hpkt, hlogs₁, hcounts₁, hrows₁, hopen₁⟩ :=
        flushPkt_spec clock h hcounts hget hvarg vpkts first vpkt idx
      obtain ⟨fd, off, hvarg₁⟩ := hlogs₁.varg hvarg
      obtain ⟨s', rows, hloop, hlogs', hcounts', hrows', hmap, hopen'⟩ :=
        ih (idx + 1) (by omega) (hlogs₁.wf h) hcounts₁ hvarg₁ hid
      refine ⟨s', { flushRow varg.connId vpkts first vpkt idx with msgOff := varg.off } :: rows, ?_,
        hlogs₁.trans hlogs', hcounts', ?_, ?_, ?_⟩
      · simp only [ipTrackFlushLoop, hfirst, hvpkt, hpkt, hloop]
      · rw [hrows', hrows₁, List.append_assoc, List.singleton_append]
      · rw [List.range'_succ, List.map_cons, hmap, List.filterMap_cons, hvpkt, hid]
        rfl
      · rw [hopen', hopen₁, hasData_succ hvpkt, or_assoc]

end

/-! ### The end of a flush -/

/-- Records that change, but not their addresses. -/
theorem wf_modifyConns {track : IpConnTrack} (h : track.Wf m) (p : Nat) (f : IpConn → IpConn)
    (hf : ∀ conn, (f conn).connAddr = conn.connAddr) :
    ({ track with conns := track.conns.modify p f } : IpConnTrack).Wf m := by
  refine ⟨h.models, fun key e hget => ?_⟩
  obtain ⟨q, conn, hq, hconn, haddr⟩ := h.conns key e hget
  refine ⟨q, if p = q then f conn else conn, hq, ?_, ?_⟩
  · rw [List.getElem?_modify, hconn]
    rfl
  · split
    · rw [hf, haddr]
    · exact haddr

/-- The packets are gone, and the logs are as they were. -/
theorem clear_spec (h : s.Wf m) (p : Nat) :
    (ipTrackClear s p).Wf m ∧ (∀ q, (ipTrackClear s p).logOpen q = s.logOpen q) ∧
      ∀ q, (ipTrackClear s p).varg? q = (s.varg? q).map fun varg =>
        if p = q then { varg with vpkt := arrayClear varg.vpkt } else varg := by
  have hvarg : ∀ q, (ipTrackClear s p).varg? q = (s.varg? q).map fun varg =>
      if p = q then { varg with vpkt := arrayClear varg.vpkt } else varg :=
    fun q => s.varg?_modifyVarg p q _
  refine ⟨⟨wf_modifyConns h.track p _ fun _ => rfl, ?_, fun key q hget => ?_, h.max⟩, fun q => ?_,
    hvarg⟩
  · show (s.recs.modify p _).length = (s.ipconntrack.conns.modify p _).length
    rw [List.length_modify, List.length_modify, h.length]
  · rw [hvarg, Option.isSome_map]
    exact h.varg key q hget
  · unfold logOpen
    rw [hvarg]
    cases s.varg? q with
    | none => rfl
    | some varg => by_cases hpq : p = q <;> simp [hpq]

/-- The end of a connection: the count is one lower, and so is the number of open logs when the log
was open. -/
theorem close_spec (h : s.Wf m) {key : IpConnAddr} {p : Nat}
    (hget : m.get key = some (key, some p)) (varg : IpTrackConnVarg T) :
    (ipTrackClose s p varg).Wf (m.del key) ∧
      (s.logOpen p = true → (ipTrackClose s p varg).drift (m.del key) = s.drift m) ∧
      (s.logOpen p = false → (ipTrackClose s p varg).drift (m.del key) = s.drift m + 1) ∧
      (∀ q, p ≠ q → (ipTrackClose s p varg).varg? q = s.varg? q) ∧
      (ipTrackClose s p varg).ipconntrack.mConnHash = hashRemove s.ipconntrack.mConnHash key ∧
      ∀ k e, (m.del key).get k = some e → m.get k = some e ∧ e.2 ≠ some p := by
  obtain ⟨p', conn, hp', hconn, haddr⟩ := h.track.conns key _ hget
  obtain rfl : p = p' := Option.some.inj hp'
  have hdel : ∀ k, (m.del key).get k = if k = key then none else m.get k :=
    fun k => KeyMap.get_del_of_eq keyEq_ipConn m key k
  have hsub : ∀ k e, (m.del key).get k = some e → m.get k = some e ∧ e.2 ≠ some p := by
    intro k e hk
    rw [hdel] at hk
    split at hk
    · exact absurd hk (by simp)
    · rename_i hne
      refine ⟨hk, fun hp => hne ?_⟩
      obtain ⟨q, rfl⟩ := h.track.entry_eq hk
      obtain rfl : q = p := Option.some.inj hp
      exact h.track.key_eq hk hget
  have hdelete : ipConnTrackConnDelete s.ipconntrack p
      = { s.ipconntrack with mConnHash := hashRemove s.ipconntrack.mConnHash key } := by
    unfold ipConnTrackConnDelete
    rw [hconn, ← haddr]
  have hvarg : ∀ q, p ≠ q → (ipTrackClose s p varg).varg? q = s.varg? q := by
    intro q hpq
    have hmod := s.varg?_modifyRec p q fun conn => { conn with connVarg := none }
    simp only [if_neg hpq] at hmod
    exact hmod
  have htrack : (ipTrackClose s p varg).ipconntrack.Wf (m.del key) := by
    rw [show (ipTrackClose s p varg).ipconntrack = ipConnTrackConnDelete s.ipconntrack p from rfl,
      hdelete]
    exact ⟨models_remove h.track.models key, fun k e hk => h.track.conns k e (hsub k e hk).1⟩
  -- The set of open connections is that before without this one.
  have hkeys : (ipTrackClose s p varg).openKeys (m.del key) = s.openKeys m \ {key} := by
    ext k
    rw [Set.mem_sdiff, mem_openKeys, mem_openKeys, Set.mem_singleton_iff]
    constructor
    · rintro ⟨q, hq, hopen⟩
      obtain ⟨hm, hne⟩ := hsub k _ hq
      have hpq : p ≠ q := fun hpq => hne (congrArg some hpq.symm)
      refine ⟨⟨q, hm, ?_⟩, ?_⟩
      · unfold logOpen at hopen ⊢
        rwa [hvarg q hpq] at hopen
      · rintro rfl
        rw [hdel, if_pos rfl] at hq
        exact absurd hq (by simp)
    · rintro ⟨⟨q, hq, hopen⟩, hk⟩
      have hpq : p ≠ q := by
        rintro rfl
        exact hk (h.track.key_eq hq hget)
      refine ⟨q, by rw [hdel, if_neg hk, hq], ?_⟩
      unfold logOpen at hopen ⊢
      rwa [hvarg q hpq]
  have hfd : (ipTrackClose s p varg).fdOpen = s.fdOpen - 1 := rfl
  refine ⟨⟨htrack, ?_, fun k q hq => ?_, h.max⟩, fun hopen => ?_, fun hclosed => ?_, hvarg,
    congrArg IpConnTrack.mConnHash hdelete, hsub⟩
  · rw [show (ipTrackClose s p varg).ipconntrack = ipConnTrackConnDelete s.ipconntrack p from rfl,
      hdelete]
    show (s.recs.modify p _).length = s.ipconntrack.conns.length
    rw [List.length_modify, h.length]
  · obtain ⟨hm, hne⟩ := hsub k _ hq
    rw [hvarg q fun hpq => hne (congrArg some hpq.symm)]
    exact h.varg k q hm
  · have hcard := Set.ncard_sdiff_singleton_add_one
      (show key ∈ s.openKeys m from ⟨p, hget, hopen⟩) (openLogs_eq h.track).2
    unfold drift
    rw [hkeys, hfd]
    omega
  · have hnot : key ∉ s.openKeys m := by
      rintro ⟨q, hq, hopen⟩
      obtain rfl : p = q := Option.some.inj (Prod.mk.inj (Option.some.inj (hget.symm.trans hq))).2
      rw [hclosed] at hopen
      exact absurd hopen (by decide)
    unfold drift
    rw [hkeys, Set.sdiff_singleton_eq_self hnot, hfd]
    omega

/-! ### A flush -/

/-- The rows that a flush inserts, but for their places in the log: those of all packets except the
last, with the raw length of the first. -/
def flushRows (connId : Nat) (vpkts : List (IpTrackConnVargPkt T)) : List (IpTrackPktRow T) :=
  (List.range' 0 (vpkts.length - 1)).filterMap fun j =>
    vpkts[0]?.bind fun first => vpkts[j]?.map fun vpkt => flushRow connId vpkts first vpkt j

/-- The flush ends the connection `p` although its log is not open, and no packet opens it. -/
def ClosesUnopened (clock : MstimeOps T) (s : IpTrack T) (p : Nat) : Prop :=
  ∃ conn varg, s.recs[p]? = some conn ∧ conn.connVarg = some varg ∧
    ipTrackExpired clock s conn = true ∧ varg.fd = false ∧
    ¬HasData varg.vpkt.elts 0 (arrayCount varg.vpkt - 1)

/-- What a flush of the connection `p` does. -/
structure Flushed (clock : MstimeOps T) (s s' : IpTrack T) (m m' : ConnMap) (key : IpConnAddr)
    (p : Nat) (varg : IpTrackConnVarg T) : Prop where
  wf : s'.Wf m'
  counts : s'.Counts m'
  rowid : s'.rowid = s.rowid
  sub : ∀ k e, m'.get k = some e → m.get k = some e
  keep : ∀ k, k ≠ key → m'.get k = m.get k
  own : ∀ ref x, s.ipconntrack.mConnHash.PlaceOf ref x → s.ipconntrack.mConnHash.keyOf x = some key →
    OwnNode s.ipconntrack.mConnHash ref s'.ipconntrack.mConnHash
  vargs : ∀ k q v, m'.get k = some (k, some q) → s.varg? q = some v → ∃ fd off,
    s'.varg? q
      = some { v with fd := fd, off := off, vpkt := if p = q then arrayClear v.vpkt else v.vpkt }
  rows : ∃ rows, s'.pktRows = s.pktRows ++ rows ∧
    rows.map (fun row => { row with msgOff := 0 }) = flushRows varg.connId varg.vpkt.elts
  drift : ¬ClosesUnopened clock s p → s'.drift m' = s.drift m
  drift_succ : ClosesUnopened clock s p → s'.drift m' = s.drift m + 1

section
variable (clock : MstimeOps T)

/-- The loop over all packets but the last. -/
theorem flushAllPkts_spec (h : s.Wf m) (hcounts : s.Counts m) {key : IpConnAddr} {p : Nat}
    (hget : m.get key = some (key, some p)) {varg : IpTrackConnVarg T}
    (hvarg : s.varg? p = some varg) :
    ∃ s' rows, ipTrackFlushLoop clock p varg.vpkt.elts 0 (arrayCount varg.vpkt - 1) s = s' ∧
      LogsOnly s s' m ∧ s'.Counts m ∧ s'.pktRows = s.pktRows ++ rows ∧
      rows.map (fun row => { row with msgOff := 0 }) = flushRows varg.connId varg.vpkt.elts ∧
      (s'.logOpen p = true ↔
        s.logOpen p = true ∨ HasData varg.vpkt.elts 0 (arrayCount varg.vpkt - 1)) := by
  unfold arrayCount
  cases helts : varg.vpkt.elts with
  | nil =>
      refine ⟨s, [], rfl, LogsOnly.refl h.track, hcounts, (List.append_nil _).symm, rfl, ?_⟩
      exact ⟨Or.inl, fun ho => ho.resolve_right (hasData_zero [] 0)⟩
  | cons first rest =>
      obtain ⟨s', rows, hloop, hlogs, hcounts', hrows, hmap, hopen⟩ :=
        flushLoop_spec clock hget (List.getElem?_cons_zero (a := first) (l := rest))
          ((first :: rest).length - 1) 0 (by omega) h hcounts hvarg rfl
      exact ⟨s', rows, hloop, hlogs, hcounts', hrows, hmap, hopen⟩

/-- What a flush of one connection does, as `Flushed` states it. -/
theorem flush_spec (h : s.Wf m) (hcounts : s.Counts m) {key : IpConnAddr} {p : Nat}
    (hget : m.get key = some (key, some p)) :
    ∃ m' varg, s.varg? p = some varg ∧
      Flushed clock s (ipTrackFlush clock s p) m m' key p varg := by
  obtain ⟨varg, hvarg⟩ := Option.isSome_iff_exists.mp (h.varg key p hget)
  obtain ⟨conn, hconn, hconnVarg⟩ := Option.bind_eq_some_iff.mp hvarg
  obtain ⟨s₁, rows, hloop, hlogs, hcounts₁, hrows, hmap, hopen⟩ :=
    flushAllPkts_spec clock h hcounts hget hvarg
  obtain ⟨hwf₂, hopen₂, hvarg₂⟩ := clear_spec (hlogs.wf h) p
  have hdrift₂ : (ipTrackClear s₁ p).drift m = s.drift m :=
    (drift_congr hopen₂ rfl).trans hlogs.drift
  have hcounts₂ : (ipTrackClear s₁ p).Counts m :=
    ⟨by rw [hdrift₂]; exact hcounts.drift, hcounts₁.le_max⟩
  have hvargs : ∀ q v, s.varg? q = some v → ∃ fd off, (ipTrackClear s₁ p).varg? q
      = some { v with fd := fd, off := off, vpkt := if p = q then arrayClear v.vpkt else v.vpkt } := by
    intro q v hv
    obtain ⟨fd, off, hv₁⟩ := hlogs.varg hv
    refine ⟨fd, off, ?_⟩
    rw [hvarg₂, hv₁, Option.map_some]
    by_cases hpq : p = q <;> simp [hpq]
  obtain ⟨fd, off, hvargp⟩ := hvargs p varg hvarg
  have hexpired : ipTrackExpired clock (ipTrackClear s₁ p) conn = ipTrackExpired clock s conn := by
    unfold ipTrackExpired
    rw [show (ipTrackClear s₁ p).time = s₁.time from rfl, hlogs.time]
  have hflush : ipTrackFlush clock s p
      = if ipTrackExpired clock s conn then
          ipTrackClose (ipTrackClear s₁ p) p
            { varg with fd := fd, off := off, vpkt := if p = p then arrayClear varg.vpkt else varg.vpkt }
        else ipTrackClear s₁ p := by
    unfold ipTrackFlush
    simp only [hconn, hvarg, hloop, hvargp, hexpired]
  have hfd : s.logOpen p = varg.fd := by
    unfold logOpen
    rw [hvarg]
    rfl
  have hcloses : ClosesUnopened clock s p ↔
      ipTrackExpired clock s conn = true ∧ (ipTrackClear s₁ p).logOpen p = false := by
    rw [hopen₂, ← Bool.not_eq_true, hopen, hfd]
    constructor
    · rintro ⟨conn', varg', hconn', hvarg', hexp, hfd', hdata⟩
      obtain rfl := Option.some.inj (hconn.symm.trans hconn')
      obtain rfl := Option.some.inj (hconnVarg.symm.trans hvarg')
      exact ⟨hexp, fun ho => ho.elim (fun ht => by rw [hfd'] at ht; exact absurd ht (by decide)) hdata⟩
    · rintro ⟨hexp, ho⟩
      rw [not_or, Bool.not_eq_true] at ho
      exact ⟨conn, varg, hconn, hconnVarg, hexp, ho.1, ho.2⟩
  cases hexp : ipTrackExpired clock s conn with
  | false =>
      rw [hexp, if_neg (by decide)] at hflush
      rw [hflush]
      exact ⟨m, varg, hvarg, hwf₂, hcounts₂, hlogs.rowid, fun _ _ hk => hk, fun _ _ => rfl,
        fun _ _ _ _ => ⟨hwf₂.track.models.wf, hlogs.conf, Or.inl hlogs.view⟩,
        fun _ q v _ hv => hvargs q v hv, ⟨rows, hrows, hmap⟩, fun _ => hdrift₂,
        fun hc => absurd (hcloses.mp hc).1 (by rw [hexp]; decide)⟩
  | true =>
      rw [hexp, if_pos rfl] at hflush
      obtain ⟨hwf₃, hdrift₃, hdrift₃', hvarg₃, htable, hsub⟩ := close_spec hwf₂ hget
        { varg with fd := fd, off := off, vpkt := if p = p then arrayClear varg.vpkt else varg.vpkt }
      rw [hflush]
      refine ⟨m.del key, varg, hvarg, hwf₃, ⟨?_, ?_⟩, hlogs.rowid, fun k e hk => (hsub k e hk).1,
        fun k hk => ?_, fun ref x hx hkey => ?_, fun k q v hk hv => ?_, ⟨rows, hrows, hmap⟩,
        fun hc => ?_, fun hc => ?_⟩
      · have hdrift := hcounts₂.drift
        cases ho : (ipTrackClear s₁ p).logOpen p with
        | true => rw [hdrift₃ ho]; exact hdrift
        | false => rw [hdrift₃' ho]; omega
      · have hmax := hcounts₂.le_max
        show (ipTrackClear s₁ p).fdOpen - 1 ≤ (ipTrackClear s₁ p).fdMax + 1
        omega
      · rw [KeyMap.get_del_of_eq keyEq_ipConn, if_neg hk]
      · -- The node of the connection is the only one that goes.
        have hmodels := hwf₂.track.models
        have heq : Equivalence (keyEq (ipTrackClear s₁ p).ipconntrack.mConnHash.mHash
            (ipTrackClear s₁ p).ipconntrack.mConnHash.mCmp) := by
          rw [hmodels.hash_eq, hmodels.cmp_eq]
          exact equivalence_keyEq_ipConn
        have hplace : (ipTrackClear s₁ p).ipconntrack.mConnHash.PlaceOf ref x := hx.congr hlogs.view
        have hkey' : (ipTrackClear s₁ p).ipconntrack.mConnHash.keyOf x = some key := by
          rw [show (ipTrackClear s₁ p).ipconntrack.mConnHash.toHashConf
            = s.ipconntrack.mConnHash.toHashConf from hlogs.conf]
          exact hkey
        refine ⟨hwf₃.track.models.wf, ?_, Or.inr ?_⟩
        · rw [htable, (hashRemove_spec heq hmodels.wf key).2.1]
          exact hlogs.conf
        · rw [htable, hashRemove_place heq hmodels.wf hplace hkey']
          exact congrArg (List.modify · ref.bucket _) hlogs.view
      · have hpq : p ≠ q := fun hpq => (hsub k _ hk).2 (congrArg some hpq.symm)
        rw [hvarg₃ q hpq]
        exact hvargs q v hv
      · cases ho : (ipTrackClear s₁ p).logOpen p with
        | true => rw [hdrift₃ ho, hdrift₂]
        | false => exact absurd (hcloses.mpr ⟨hexp, ho⟩) hc
      · rw [hdrift₃' (hcloses.mp hc).2, hdrift₂]

end

/-! ### A packet -/

/-- The parser finds the headers that the tracker needs. -/
def Tracked (pktbuf : Int → UInt8) (pktlen : Int) : Prop :=
  (netpktParseEther (netpktInit pktbuf 0 pktlen)).1 = 0 ∧
    (netpktParseEther (netpktInit pktbuf 0 pktlen)).2.pktIp.isSome ∧
    ((netpktParseEther (netpktInit pktbuf 0 pktlen)).2.pktTcp.isSome ∨
      (netpktParseEther (netpktInit pktbuf 0 pktlen)).2.pktUdp.isSome)

/-- The connection that the tracker gives a packet to, as it is afterwards. -/
def pktConn? (addrOf : Nat → Nat) (s : IpTrack T) (pktbuf : Int → UInt8) (pktlen : Int) :
    Option (Nat × IpConn) :=
  match netpktParseEther (netpktInit pktbuf 0 pktlen) with
  | (i, pkt) =>
      if i ≠ 0 ∨ pkt.pktIp.isNone then none
      else
        match ipConnTrackPkt addrOf s.ipconntrack pkt.netpkt IPCONN_TRACK_BUFFER with
        | (track, p, _) => p.bind fun p => track.conns[p]?.map fun conn => (p, conn)

/-- The connection of a packet is an old one, or one that starts with it. -/
inductive PktConn (s : IpTrack T) (rowid : Nat) (m m' : ConnMap) (key : IpConnAddr) (p : Nat)
    (varg : IpTrackConnVarg T) : Prop
  | old (hget : m.get key = some (key, some p)) (hmap : m' = m) (hvarg : s.varg? p = some varg)
      (hrowid : rowid = s.rowid)
  | new (hget : m.get key = none) (hmap : m' = m.put key (some p)) (hp : s.recs.length ≤ p)
      (hfd : varg.fd = false) (hvpkt : varg.vpkt.elts = []) (hid : varg.connId = s.rowid + 1)
      (hrowid : rowid = s.rowid + 1)

/-- What a packet does that is recorded as `vpkt` of the connection `p`. -/
structure Recorded (clock : MstimeOps T) (s s' : IpTrack T) (m m' : ConnMap) (key : IpConnAddr)
    (p : Nat) (varg : IpTrackConnVarg T) (vpkt : IpTrackConnVargPkt T) : Prop where
  wf : s'.Wf m'
  get : m'.get key = some (key, some p)
  get_other : ∀ k, k ≠ key → m'.get k = m.get k
  conn : PktConn s s'.rowid m m' key p varg
  varg : s'.varg? p
    = some { varg with vpkt := (arrayAppend (ipTrackConnVargPktZero clock) 0 varg.vpkt vpkt).1 }
  varg_other : ∀ q, q ≠ p → s'.varg? q = s.varg? q
  rows : s'.pktRows = s.pktRows
  fdOpen : s'.fdOpen = s.fdOpen
  fdMax : s'.fdMax = s.fdMax

/-- A list that differs from another one at most at `p`, where it has an element, is as long as the
other one, or longer by this element. -/
theorem length_of_getElem?_other {α : Type} {xs ys : List α} {p : Nat} (hp : p < ys.length)
    (hother : ∀ q, q ≠ p → ys[q]? = xs[q]?) :
    (p < xs.length ∧ ys.length = xs.length) ∨ (p = xs.length ∧ ys.length = xs.length + 1) := by
  have hlt : ∀ q, q ≠ p → (q < ys.length ↔ q < xs.length) := by
    intro q hq
    rw [← not_le, ← not_le, ← List.getElem?_eq_none_iff, ← List.getElem?_eq_none_iff, hother q hq]
  have hend := hlt ys.length
  have hend' := hlt xs.length
  have hnext := hlt (xs.length + 1)
  omega

section
variable (clock : MstimeOps T) (addrOf : Nat → Nat)

/-- The tracker's part of a packet. -/
theorem touch_spec (h : s.Wf m) {track : IpConnTrack} {p : Nat} {conn : IpConn}
    (hconn : track.conns[p]? = some conn)
    (hother : ∀ q, q ≠ p → track.conns[q]? = s.ipconntrack.conns[q]?) (now : T) :
    (ipTrackTouch clock s track p now).recs.length = track.conns.length ∧
      (ipTrackTouch clock s track p now).recs[p]?.isSome ∧
      ∀ q, (ipTrackTouch clock s track p now).varg? q = s.varg? q := by
  have hp : p < track.conns.length := (List.getElem?_eq_some_iff.mp hconn).1
  have hlen : s.recs.length = s.ipconntrack.conns.length := h.length
  have hgrow := length_of_getElem?_other hp fun q hq => (hother q hq).trans rfl
  rw [← hlen] at hgrow
  unfold ipTrackTouch varg?
  -- a record that the tracker knew, or the one it has just appended
  rcases hgrow with ⟨hlt, hlen'⟩ | ⟨rfl, hlen'⟩
  · rw [if_pos hlt]
    dsimp only
    refine ⟨by rw [List.length_modify, hlen'], ?_, fun q => ?_⟩
    · rw [List.getElem?_modify, List.getElem?_eq_getElem hlt]
      rfl
    · rw [List.getElem?_modify]
      cases s.recs[q]? with
      | none => rfl
      | some r => by_cases hpq : p = q <;> simp [hpq]
  · rw [if_neg (Nat.lt_irrefl _)]
    dsimp only
    refine ⟨by rw [List.length_modify, List.length_append, List.length_singleton, hlen'], ?_,
      fun q => ?_⟩
    · rw [List.getElem?_modify, List.getElem?_concat_length]
      rfl
    · rw [List.getElem?_modify]
      by_cases hq : q < s.recs.length
      · rw [List.getElem?_append_left hq]
        cases s.recs[q]? with
        | none => rfl
        | some r => simp [show s.recs.length ≠ q by omega]
      · rw [List.getElem?_eq_none (show s.recs.length ≤ q by omega)]
        by_cases hqe : s.recs.length = q
        · subst hqe
          rw [List.getElem?_concat_length]
          simp [ipTrackConnInit]
        · rw [List.getElem?_eq_none (by simp; omega)]
          rfl

theorem not_isLocal_buffer : IPCONN_TRACK_BUFFER.has IPCONN_TRACK_LOCAL = false := by decide

/-- The local flags do not mark a new connection, whatever the record does with them. -/
theorem has_first_trackConn (conn : IpConn) (flags : ConnFlags) (pkt : Netpkt) :
    (ipConnTrackConn conn flags pkt IPCONN_TRACK_BUFFER).1.connPktFlags.has CONN_PKT_FIRST
      = flags.has CONN_PKT_FIRST :=
  identityFlag_first.conn conn flags pkt IPCONN_TRACK_BUFFER

/-- `array_add` to the list of the connection `p`. -/
theorem record_spec {s : IpTrack T} {p : Nat} {varg : IpTrackConnVarg T}
    (hvarg : s.varg? p = some varg) (vpkt : IpTrackConnVargPkt T) :
    (ipTrackRecord clock s p vpkt).varg? p
        = some { varg with vpkt := (arrayAppend (ipTrackConnVargPktZero clock) 0 varg.vpkt vpkt).1 } ∧
      (∀ q, q ≠ p → (ipTrackRecord clock s p vpkt).varg? q = s.varg? q) ∧
      (ipTrackRecord clock s p vpkt).recs.length = s.recs.length := by
  have hmod := fun q => s.varg?_modifyVarg p q fun varg =>
    { varg with vpkt := (arrayAppend (ipTrackConnVargPktZero clock) 0 varg.vpkt vpkt).1 }
  refine ⟨?_, fun q hq => ?_, List.length_modify ..⟩
  · rw [ipTrackRecord, hmod, hvarg, Option.map_some, if_pos rfl]
  · rw [ipTrackRecord, hmod]
    simp only [if_neg hq.symm]
    exact Option.map_id'

/-- A new connection has a `conn_varg` without packets, and its log is not open. -/
theorem newConn_spec (s : IpTrack T) {p : Nat} (hrec : s.recs[p]?.isSome) (conn : IpConn) (now : T) :
    ∃ varg, varg.fd = false ∧ varg.vpkt.elts = [] ∧ varg.connId = s.rowid + 1 ∧
      (ipTrackNewConn s p conn now).varg? p = some varg ∧
      (∀ q, q ≠ p → (ipTrackNewConn s p conn now).varg? q = s.varg? q) ∧
      (ipTrackNewConn s p conn now).recs.length = s.recs.length := by
  let varg : IpTrackConnVarg T :=
    { vpkt := arrayInit 0
      fd := false
      off := 0
      fname := ipTrackFname s.logDir conn.connAddr (s.rowid + 1)
      connId := s.rowid + 1 }
  have hmod := fun q => s.varg?_modifyRec p q fun conn => { conn with connVarg := some varg }
  obtain ⟨r, hr⟩ := Option.isSome_iff_exists.mp hrec
  refine ⟨varg, rfl, rfl, rfl, ?_, fun q hq => ?_, List.length_modify ..⟩
  · refine (hmod p).trans ?_
    rw [hr, Option.bind_some, if_pos rfl]
  · refine (hmod q).trans ?_
    simp only [if_neg hq.symm]
    rfl

/-- The packet is recorded at the end, when the connection has its `conn_varg`. -/
theorem recorded_of_varg (h : s.Wf m) {s₂ : IpTrack T} {m' : ConnMap} {key : IpConnAddr} {p : Nat}
    {varg : IpTrackConnVarg T} (hwf : s₂.ipconntrack.Wf m')
    (hlen : s₂.recs.length = s₂.ipconntrack.conns.length) (hget : m'.get key = some (key, some p))
    (hother : ∀ k, k ≠ key → m'.get k = m.get k) (hconn : PktConn s s₂.rowid m m' key p varg)
    (hvarg : s₂.varg? p = some varg) (hvargs : ∀ q, q ≠ p → s₂.varg? q = s.varg? q)
    (hrows : s₂.pktRows = s.pktRows) (hfdOpen : s₂.fdOpen = s.fdOpen) (hfdMax : s₂.fdMax = s.fdMax)
    (vpkt : IpTrackConnVargPkt T) :
    Recorded clock s (ipTrackRecord clock s₂ p vpkt) m m' key p varg vpkt := by
  obtain ⟨hself, hothers, hlen'⟩ := record_spec clock hvarg vpkt
  refine ⟨⟨hwf, hlen'.trans hlen, fun k q hk => ?_, hfdMax ▸ h.max⟩, hget, hother, hconn, hself,
    fun q hq => (hothers q hq).trans (hvargs q hq), hrows, hfdOpen, hfdMax⟩
  by_cases hq : q = p
  · rw [hq, hself]
    rfl
  · have hk' : k ≠ key := by
      rintro rfl
      exact hq (Option.some.inj (Prod.mk.inj (Option.some.inj (hk.symm.trans hget))).2)
    rw [hothers q hq, hvargs q hq]
    exact h.varg k q ((hother k hk').symm.trans hk)

/-- What a packet does: it is not tracked and changes nothing, or it is recorded. -/
theorem pktbuf_spec (h : s.Wf m) (now : T) (pktbuf : Int → UInt8) (pktlen : Int) :
    (ipTrackPktbuf clock addrOf s now pktbuf pktlen).1 = s ∧ ¬Tracked pktbuf pktlen ∧
        pktConn? addrOf s pktbuf pktlen = none ∨
      Tracked pktbuf pktlen ∧ ∃ m' key p varg vpkt conn,
        pktConn? addrOf s pktbuf pktlen = some (p, conn) ∧
        Recorded clock s (ipTrackPktbuf clock addrOf s now pktbuf pktlen).1 m m' key p varg vpkt := by
  unfold ipTrackPktbuf Tracked pktConn?
  rcases netpktParseEther (netpktInit pktbuf 0 pktlen) with ⟨i, pkt⟩
  dsimp only
  by_cases hi : i ≠ 0
  · rw [if_pos hi]
    exact Or.inl ⟨rfl, fun ht => hi ht.1, if_pos (Or.inl hi)⟩
  rw [if_neg hi]
  by_cases hip : pkt.pktIp.isNone = true
  · rw [if_pos hip]
    refine Or.inl ⟨rfl, fun ht => ?_, if_pos (Or.inr hip)⟩
    rw [Option.isNone_iff_eq_none] at hip
    rw [hip] at ht
    exact absurd ht.2.1 (by decide)
  rw [if_neg hip, if_neg (not_or.mpr ⟨hi, hip⟩)]
  rcases ipConnTrackPkt_spec addrOf h.track pkt.netpkt IPCONN_TRACK_BUFFER with
    ⟨hnone, hignored⟩ | ⟨track, m', ip, flags, key, p, conn, pkt', htrack, hwf, -, hpktIp, hproto,
      haddr, hfound, hp, hother⟩
  · rw [hnone]
    refine Or.inl ⟨rfl, fun ht => ?_, rfl⟩
    rcases hignored with hno | ⟨htcp, hudp⟩ | ⟨hlocal, -⟩
    · exact hip (by rw [Option.isNone_iff_eq_none]; exact Option.map_eq_none_iff.mp hno)
    · rw [Option.map_eq_none_iff.mp htcp, Option.map_eq_none_iff.mp hudp] at ht
      exact absurd ht.2.2 (by decide)
    · rw [not_isLocal_buffer] at hlocal
      exact absurd hlocal (by decide)
  · refine Or.inr ⟨⟨not_not.mp hi, ?_, ?_⟩, ?_⟩
    · rw [Option.isSome_iff_ne_none, ne_eq, ← Option.isNone_iff_eq_none]
      exact hip
    · simpa only [NetpktMem.netpkt, Option.isSome_map] using hproto
    rw [htrack]
    dsimp only
    rw [Option.bind_some, hp, Option.map_some]
    dsimp only
    have hget := hfound.get
    have hfirst := has_first_trackConn conn flags pkt.netpkt
    generalize (ipConnTrackConn conn flags pkt.netpkt IPCONN_TRACK_BUFFER).1 = conn' at hp hfirst ⊢
    obtain ⟨hlen, hrec, hvargs⟩ := touch_spec clock h hp hother now
    generalize hs₁ : ipTrackTouch clock s track p now = s₁ at hlen hrec hvargs ⊢
    have htrack₁ : s₁.ipconntrack = track := by rw [← hs₁]; rfl
    have hrows₁ : s₁.pktRows = s.pktRows := by rw [← hs₁]; rfl
    have hrowid₁ : s₁.rowid = s.rowid := by rw [← hs₁]; rfl
    have hfdOpen₁ : s₁.fdOpen = s.fdOpen := by rw [← hs₁]; rfl
    have hfdMax₁ : s₁.fdMax = s.fdMax := by rw [← hs₁]; rfl
    rcases hfound.first (identityFlag_first.local _ ip) with ⟨hold, -, hmap, hflag⟩ |
      ⟨hnew, hpnew, hmap, hflag⟩
    · -- The record of the connection has its `conn_varg`.
      rw [hfirst, hflag]
      simp only [Bool.false_eq_true, if_false]
      obtain ⟨varg, hvarg⟩ := Option.isSome_iff_exists.mp (h.varg key p hold)
      have hvarg₁ : s₁.varg? p = some varg := (hvargs p).trans hvarg
      rw [hvarg₁]
      exact ⟨m', key, p, varg, _, conn', rfl, recorded_of_varg clock h (htrack₁ ▸ hwf)
        (by rw [hlen, htrack₁]) hget (fun k hk => hfound.get_other hk)
        (.old hold hmap hvarg hrowid₁) hvarg₁ (fun q _ => hvargs q) hrows₁ hfdOpen₁ hfdMax₁ _⟩
    · -- The record is new, and so is its `conn_varg`.
      rw [hfirst, hflag]
      simp only [if_true]
      obtain ⟨varg, hfd, helts, hid, hvarg₂, hvargs₂, hlen₂⟩ := newConn_spec s₁ hrec conn' now
      rw [hvarg₂]
      refine ⟨m', key, p, varg, _, conn', rfl, recorded_of_varg clock h (htrack₁ ▸ hwf)
        (hlen₂.trans (by rw [hlen, ← htrack₁]; rfl)) hget (fun k hk => hfound.get_other hk)
        (.new hnew hmap ?_ hfd helts ?_ ?_) hvarg₂ (fun q hq => (hvargs₂ q hq).trans (hvargs q))
        hrows₁ hfdOpen₁ hfdMax₁ _⟩
      · rw [hpnew, h.length]
      · rw [hid, hrowid₁]
      · rw [← hrowid₁]
        rfl

end

/-- A packet opens and closes no log. -/
theorem Recorded.counts {clock : MstimeOps T} {m' : ConnMap} {key : IpConnAddr} {p : Nat}
    {varg : IpTrackConnVarg T} {vpkt : IpTrackConnVargPkt T}
    (hrec : Recorded clock s s' m m' key p varg vpkt) (hcounts : s.Counts m) :
    s'.Counts m' ∧ s'.drift m' = s.drift m := by
  have hself : s'.logOpen p = varg.fd := by
    unfold logOpen
    rw [hrec.varg]
    rfl
  have hlog : ∀ q, q ≠ p → s'.logOpen q = s.logOpen q := by
    intro q hq
    unfold logOpen
    rw [hrec.varg_other q hq]
  have hkeys : s'.openKeys m' = s.openKeys m := by
    ext k
    rw [mem_openKeys, mem_openKeys]
    by_cases hk : k = key
    · subst hk
      rw [hrec.get]
      cases hrec.conn with
      | old hget _ hvarg _ =>
          have hold : s.logOpen p = varg.fd := by
            unfold logOpen
            rw [hvarg]
            rfl
          rw [hget]
          constructor
          · rintro ⟨q, hq, hopen⟩
            obtain rfl : p = q := Option.some.inj (Prod.mk.inj (Option.some.inj hq)).2
            exact ⟨p, rfl, by rw [hold, ← hself, hopen]⟩
          · rintro ⟨q, hq, hopen⟩
            obtain rfl : p = q := Option.some.inj (Prod.mk.inj (Option.some.inj hq)).2
            exact ⟨p, rfl, by rw [hself, ← hold, hopen]⟩
      | new hget _ _ hfd _ _ _ =>
          rw [hget]
          constructor
          · rintro ⟨q, hq, hopen⟩
            obtain rfl : p = q := Option.some.inj (Prod.mk.inj (Option.some.inj hq)).2
            rw [hself, hfd] at hopen
            exact absurd hopen (by decide)
          · rintro ⟨q, hq, -⟩
            exact absurd hq (by simp)
    · rw [hrec.get_other k hk]
      -- Another key leads to another record.
      have hne : ∀ q, m.get k = some (k, some q) → q ≠ p := by
        rintro q hq rfl
        exact hk (hrec.wf.track.key_eq ((hrec.get_other k hk).trans hq) hrec.get)
      exact exists_congr fun q => and_congr_right fun hq => by rw [hlog q (hne q hq)]
  have hdrift : s'.drift m' = s.drift m := by
    unfold drift
    rw [hkeys, hrec.fdOpen]
  refine ⟨⟨by rw [hdrift]; exact hcounts.drift, ?_⟩, hdrift⟩
  rw [hrec.fdOpen, hrec.fdMax]
  exact hcounts.le_max

end IpTrack

/-! ## Runs -/

/-- What happens to the recorder: a packet arrives at the time `now`, a connection is marked closed,
the clock is read, or a connection is flushed, the one of a node of the table. -/
inductive IpTrackOp (T : Type) where
  | packet (now : T) (pktbuf : Int → UInt8) (pktlen : Int)
  | closed (p : Nat)
  | tick (time : T)
  | flush (node : NodeRef)

namespace IpTrack

section
variable (clock : MstimeOps T) (addrOf : Nat → Nat) {s : IpTrack T} {m : ConnMap}

/-- The recorder when `hash_foreach` calls `IpTrack_foreach_flush` for a node. -/
def atNode (s : IpTrack T) (node : NodeRef) : IpTrack T :=
  s.setHash (s.ipconntrack.mConnHash.patchAt node)

/-- The call of `IpTrack_foreach_flush` for a node. -/
def flushNode (s : IpTrack T) (node : NodeRef) : IpTrack T :=
  match ipTrackForeachFlush clock (s.ipconntrack.mConnHash.patchAt node) node s with
  | (hash, s, _) => s.setHash hash

/-- A step of the recorder. -/
def step (s : IpTrack T) : IpTrackOp T → IpTrack T
  | .packet now pktbuf pktlen => (ipTrackPktbuf clock addrOf s now pktbuf pktlen).1
  | .closed p                 => s.modifyRec p fun conn => { conn with connClosed := true }
  | .tick time                => { s with time := time }
  | .flush node               => flushNode clock s node

/-- A flush of the node does not end a connection whose log is not open. -/
def KeepsCount (s : IpTrack T) : IpTrackOp T → Prop
  | .flush node =>
      ∀ p, (s.ipconntrack.mConnHash.patchAt node).readVal node = some p → ¬ClosesUnopened clock s p
  | _           => True

/-- A flush of all connections is a flush of one after the other. -/
theorem flushAll_eq_run (s : IpTrack T) (time : T) :
    ∃ nodes : List NodeRef, ipTrackFlushAll clock s time
      = run (step clock addrOf) s (.tick time :: nodes.map .flush) := by
  have hret : ∀ (t : HashT IpConnAddr Nat) (ref : NodeRef) (self : IpTrack T),
      (ipTrackForeachFlush clock t ref self).2.2 = 0 := by
    intro t ref self
    unfold ipTrackForeachFlush
    cases t.readVal ref <;> rfl
  obtain ⟨refs, r, hr, hforeach⟩ := hashForeach_eq_foldl hret s.ipconntrack.mConnHash
    { s with time := time }
  -- The table and the recorder of each call are those of the recorder that the calls before made.
  have hcalls : ∀ (refs : List NodeRef) (t : HashT IpConnAddr Nat) (self : IpTrack T),
      (refs.foldl (callAt (ipTrackForeachFlush clock)) (t, self)).2.setHash
          (refs.foldl (callAt (ipTrackForeachFlush clock)) (t, self)).1
        = run (step clock addrOf) (self.setHash t) (refs.map .flush) := by
    intro refs
    induction refs with
    | nil => intro t self; rfl
    | cons ref refs ih =>
        intro t self
        have hcall : step clock addrOf (self.setHash t) (.flush ref)
            = (callAt (ipTrackForeachFlush clock) (t, self) ref).2.setHash
              (callAt (ipTrackForeachFlush clock) (t, self) ref).1 := by
          show flushNode clock (self.setHash t) ref = _
          unfold flushNode callAt ipTrackForeachFlush
          dsimp only [setHash]
        rw [List.foldl_cons, List.map_cons, run_cons, hcall]
        exact ih _ _
  refine ⟨refs, ?_⟩
  unfold ipTrackFlushAll
  rw [hforeach, ← hr]
  exact hcalls refs _ _

/-- A node whose pointers are fresh is no other node. -/
theorem atNode_spec (h : s.Wf m) (hcounts : s.Counts m) (node : NodeRef) :
    (s.atNode node).Wf m ∧ (s.atNode node).Counts m ∧ (s.atNode node).drift m = s.drift m := by
  have hdrift : (s.atNode node).drift m = s.drift m := drift_congr (fun _ => rfl) rfl
  obtain ⟨hconf, hcount, hview⟩ := s.ipconntrack.mConnHash.patchAt_spec node
  have hmodels : (s.ipconntrack.mConnHash.patchAt node).Models equivalence_keyEq_ipConn m :=
    h.track.models.congr (h.track.models.wf.congr hconf hview hcount) hconf fun e => by
      rw [HashT.entries_congr hconf hview]
  refine ⟨⟨(h.track.setHash hmodels).1, h.length, h.varg, h.max⟩, ⟨?_, hcounts.le_max⟩, hdrift⟩
  rw [hdrift]
  exact hcounts.drift

/-- What a flush of a node does: nothing, or it flushes the connection of the node. -/
theorem flushNode_spec (h : s.Wf m) (hcounts : s.Counts m) (node : NodeRef) :
    ((s.ipconntrack.mConnHash.patchAt node).readVal node = none ∧
        flushNode clock s node = s.atNode node) ∨
      ∃ m' key p varg, (s.ipconntrack.mConnHash.patchAt node).readVal node = some p ∧
        m.get key = some (key, some p) ∧ s.varg? p = some varg ∧
        (∃ x, s.ipconntrack.mConnHash.PlaceOf node x ∧
          s.ipconntrack.mConnHash.keyOf x = some key) ∧
        Flushed clock (s.atNode node) (flushNode clock s node) m m' key p varg := by
  have hat := atNode_spec h hcounts node
  unfold flushNode ipTrackForeachFlush
  cases hread : (s.ipconntrack.mConnHash.patchAt node).readVal node with
  | none => exact Or.inl ⟨rfl, rfl⟩
  | some p =>
      obtain ⟨x, key, hplace, hkey, hget⟩ := h.track.models.readVal_patchAt hread
      obtain ⟨m', varg, hvarg, hflushed⟩ := flush_spec clock hat.1 hat.2.1 hget
      exact Or.inr ⟨m', key, p, varg, rfl, hget, hvarg, ⟨x, hplace, hkey⟩, hflushed⟩

/-- A connection that is marked closed keeps its `conn_varg`. -/
theorem closed_spec (h : s.Wf m) (hcounts : s.Counts m) (p : Nat) :
    (s.modifyRec p fun conn => { conn with connClosed := true }).Wf m ∧
      (s.modifyRec p fun conn => { conn with connClosed := true }).Counts m ∧
      (s.modifyRec p fun conn => { conn with connClosed := true }).drift m = s.drift m ∧
      ∀ q, (s.modifyRec p fun conn => { conn with connClosed := true }).varg? q = s.varg? q := by
  have hvarg : ∀ q,
      (s.modifyRec p fun conn => { conn with connClosed := true }).varg? q = s.varg? q := by
    intro q
    refine (s.varg?_modifyRec p q fun conn => { conn with connClosed := true }).trans ?_
    unfold varg?
    cases s.recs[q]? with
    | none => rfl
    | some conn => by_cases hpq : p = q <;> simp [hpq]
  have hdrift : (s.modifyRec p fun conn => { conn with connClosed := true }).drift m = s.drift m :=
    drift_congr (fun q => by unfold logOpen; rw [hvarg]) rfl
  refine ⟨⟨h.track, ?_, fun key q hget => ?_, h.max⟩, ⟨?_, hcounts.le_max⟩, hdrift, hvarg⟩
  · exact (List.length_modify ..).trans h.length
  · rw [hvarg]
    exact h.varg key q hget
  · rw [hdrift]
    exact hcounts.drift

/-- The step lemma: the recorder stays well formed, and the count stays exact when no flush ends a
connection whose log is not open. -/
theorem counts_step (h : s.Wf m) (hcounts : s.Counts m) (op : IpTrackOp T) :
    ∃ m', (step clock addrOf s op).Wf m' ∧ (step clock addrOf s op).Counts m' ∧
      (KeepsCount clock s op ↔ (step clock addrOf s op).drift m' = s.drift m) := by
  cases op with
  | packet now pktbuf pktlen =>
      rcases pktbuf_spec clock addrOf h now pktbuf pktlen with ⟨hsame, -⟩ |
        ⟨-, m', key, p, varg, vpkt, conn, -, hrec⟩
      · rw [show step clock addrOf s (.packet now pktbuf pktlen) = s from hsame]
        exact ⟨m, h, hcounts, iff_of_true trivial rfl⟩
      · obtain ⟨hcounts', hdrift⟩ := hrec.counts hcounts
        exact ⟨m', hrec.wf, hcounts', iff_of_true trivial hdrift⟩
  | closed p =>
      obtain ⟨hwf, hcounts', hdrift, -⟩ := closed_spec h hcounts p
      exact ⟨m, hwf, hcounts', iff_of_true trivial hdrift⟩
  | tick time =>
      exact ⟨m, ⟨h.track, h.length, h.varg, h.max⟩, ⟨hcounts.drift, hcounts.le_max⟩,
        iff_of_true trivial rfl⟩
  | flush node =>
      have hat := atNode_spec h hcounts node
      rcases flushNode_spec clock h hcounts node with ⟨hread, hsame⟩ |
        ⟨m', key, p, varg, hread, hget, hvarg, -, hflushed⟩
      · rw [show step clock addrOf s (.flush node) = s.atNode node from hsame]
        refine ⟨m, hat.1, hat.2.1, iff_of_true (fun p hp => ?_) hat.2.2⟩
        rw [hread] at hp
        exact absurd hp (by simp)
      · refine ⟨m', hflushed.wf, hflushed.counts, fun hkeeps => ?_, fun hdrift p' hp' hcloses => ?_⟩
        · exact (hflushed.drift (hkeeps p hread)).trans hat.2.2
        · obtain rfl := Option.some.inj (hread.symm.trans hp')
          have hsucc := hflushed.drift_succ hcloses
          have hdrift' : (flushNode clock s node).drift m' = s.drift m := hdrift
          rw [hdrift', hat.2.2] at hsucc
          omega

end

/-- A new recorder has no connection. -/
theorem counts_init (clock : MstimeOps T) (logDir : List UInt8) (rowid : Nat)
    (files : List UInt8 → List UInt8) :
    (ipTrackInit clock logDir rowid files).Wf KeyMap.empty ∧
      (ipTrackInit clock logDir rowid files).Counts KeyMap.empty ∧
      (ipTrackInit clock logDir rowid files).drift KeyMap.empty = 0 := by
  have hkeys : (ipTrackInit clock logDir rowid files).openKeys KeyMap.empty = ∅ := by
    rw [Set.eq_empty_iff_forall_notMem]
    rintro key ⟨p, hget, -⟩
    rw [KeyMap.get_empty] at hget
    exact absurd hget (by simp)
  have hdrift : (ipTrackInit clock logDir rowid files).drift KeyMap.empty = 0 := by
    unfold drift
    rw [hkeys, Set.ncard_empty]
    rfl
  refine ⟨⟨wf_ipConnTrackInit [], rfl, fun key p hget => ?_, show (0 : Int) ≤ 5 by decide⟩,
    ⟨hdrift.ge, show (0 : Int) ≤ 5 + 1 by decide⟩,
    hdrift⟩
  rw [KeyMap.get_empty] at hget
  exact absurd hget (by simp)

end IpTrack

open IpTrack in
/-- The count of open logs is exact, and no more than one above its bound, as long as no flush ends a
connection whose log is not open. A flush of all connections is made of such steps, too. -/
theorem ipTrack_fdOpen {T : Type} (clock : MstimeOps T) (addrOf : Nat → Nat) (logDir : List UInt8)
    (rowid : Nat) (files : List UInt8 → List UInt8) (ops : List (IpTrackOp T))
    (hops : AllSteps (KeepsCount clock) (step clock addrOf) (ipTrackInit clock logDir rowid files)
      ops) :
    let self := run (step clock addrOf) (ipTrackInit clock logDir rowid files) ops
    self.fdOpen = self.openLogs ∧ self.fdOpen ≤ self.fdMax + 1 ∧
      ∀ time, ∃ nodes : List NodeRef, ipTrackFlushAll clock self time
        = run (step clock addrOf) self (.tick time :: nodes.map .flush) := by
  obtain ⟨hwf, hcounts, hdrift⟩ := counts_init clock logDir rowid files
  have hstep : ∀ s op, (∃ m, s.Wf m ∧ s.Counts m ∧ s.drift m = 0) → KeepsCount clock s op →
      ∃ m, (step clock addrOf s op).Wf m ∧ (step clock addrOf s op).Counts m ∧
        (step clock addrOf s op).drift m = 0 := by
    intro s op ⟨m, hwf, hcounts, hdrift⟩ hkeeps
    obtain ⟨m', hwf', hcounts', hiff⟩ := counts_step clock addrOf hwf hcounts op
    exact ⟨m', hwf', hcounts', (hiff.mp hkeeps).trans hdrift⟩
  have hrun := run_inv_of_allSteps (I := fun s => ∃ m, s.Wf m ∧ s.Counts m ∧ s.drift m = 0)
    hstep ⟨_, hwf, hcounts, hdrift⟩ hops
  intro self
  obtain ⟨m, hwf', hcounts', hdrift'⟩ := hrun
  refine ⟨?_, hcounts'.le_max, flushAll_eq_run clock addrOf self⟩
  rw [(openLogs_eq hwf'.track).1]
  exact (sub_eq_zero.mp hdrift').symm

/-! ### Runs on one connection -/

/-- A clock in seconds. -/
def secondsClock : MstimeOps Nat := ⟨0, (· < ·), fun time last => last + 1800 < time⟩

/-- A UDP packet from port 53 to port 80 with the data `hi`. -/
def udpFrame (a : Int) : UInt8 :=
  ([0, 0, 0, 0, 0, 0, 0, 0, 0, 0, 0, 0, 8, 0, 69, 0, 0, 30, 0, 0, 0, 0, 64, 17, 0, 0, 10, 0, 0, 1,
    10, 0, 0, 2, 0, 53, 0, 80, 0, 10, 0, 0, 104, 105] : List UInt8)[a.toNat]?.getD 0

/-- The recorder after some steps from an empty database. -/
def recorderAfter (ops : List (IpTrackOp Nat)) : IpTrack Nat :=
  run (IpTrack.step secondsClock id) (ipTrackInit secondsClock [] 0 fun _ => []) ops

/-- Two packets of a connection and a flush: its log is open. -/
theorem ipTrack_fdOpen_sample :
    let self := recorderAfter [.packet 0 udpFrame 44, .packet 1 udpFrame 44, .flush ⟨3, 0⟩]
    self.fdOpen = 1 ∧ self.fdOpen = self.openLogs ∧ self.fdOpen ≤ self.fdMax + 1 := by
  -- No connection has expired when the flush is made.
  have hflush : IpTrack.KeepsCount secondsClock
      (recorderAfter [.packet 0 udpFrame 44, .packet 1 udpFrame 44]) (.flush ⟨3, 0⟩) := by
    rintro p - ⟨conn, varg, hconn, -, hexpired, -⟩
    have hall : (recorderAfter [.packet 0 udpFrame 44, .packet 1 udpFrame 44]).recs.all (fun conn =>
        !ipTrackExpired secondsClock
          (recorderAfter [.packet 0 udpFrame 44, .packet 1 udpFrame 44]) conn) = true := by
      decide +kernel
    have hnot := List.all_eq_true.mp hall conn (List.mem_of_getElem? hconn)
    rw [hexpired] at hnot
    exact absurd hnot (by decide)
  have hpackets : AllSteps (IpTrack.KeepsCount secondsClock) (IpTrack.step secondsClock id)
      (ipTrackInit secondsClock [] 0 fun _ => [])
      [.packet 0 udpFrame 44, .packet 1 udpFrame 44] := ⟨trivial, trivial, trivial⟩
  unfold recorderAfter at hflush
  have hops := (allSteps_append _ _ _ [.flush ⟨3, 0⟩] _).mpr ⟨hpackets, And.intro hflush trivial⟩
  have hrun := ipTrack_fdOpen secondsClock id [] 0 (fun _ => []) _ hops
  exact ⟨by decide +kernel, hrun.1, hrun.2.1⟩

/-- A connection with one packet ends with a flush that writes nothing: one is taken from the count
although no log was open. -/
theorem ipTrack_fdOpen_unopened :
    let self := recorderAfter [.packet 0 udpFrame 44, .closed 0, .flush ⟨3, 0⟩]
    self.fdOpen ≠ self.openLogs := by
  decide +kernel

end Bklib
