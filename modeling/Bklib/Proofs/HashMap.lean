import Bklib.Proofs.Hash

/-!
# `Bklib.Proofs.HashMap`: runs of a hash table refine a finite map

The operations of a user of the table, on the table (`HashOp.apply`) and on an abstract finite map
whose keys are compared by `keyEq` (`HashOp.spec`). `HashT.Models` relates the two states. Each
operation keeps it (`models_apply`), so every run does, and what a user can see of the table is
what the map says.
-/

set_option autoImplicit false

namespace Bklib

open Bklib.Lib

variable {κ ν : Type}

/-- One operation of a user of the table. -/
inductive HashOp (κ ν : Type) where
  | put (key : κ) (val : Option ν)
  | get (key : κ)
  /-- `hash_remove`, which is `hash_free` of what `hash_get` finds. -/
  | remove (key : κ)
  | resize (buckets : Nat)
  /-- `hash_foreach` with a callback that lists the entries. -/
  | foreach

namespace HashOp

/-- The operation on the table. -/
def apply (addrOf : Nat → Nat) (t : HashT κ ν) : HashOp κ ν → HashT κ ν
  | put key val    => (hashPut addrOf t key val).1
  | get key        => (hashGet t key).1
  | remove key     => hashRemove t key
  | resize buckets => hashResize addrOf t buckets
  | foreach        => (hashForeach (visitEntry fun l e => l ++ [e]) t []).1

/-- A resize is to at least one bucket. -/
def Valid : HashOp κ ν → Prop
  | resize buckets => 1 ≤ buckets
  | _              => True

def isResize : HashOp κ ν → Bool
  | resize _ => true
  | _        => false

/-- The operation on the finite map. -/
noncomputable def spec {r : Setoid κ} (m : KeyMap r (Option ν)) : HashOp κ ν → KeyMap r (Option ν)
  | put key val => m.put key val
  | remove key  => m.del key
  | _           => m

end HashOp

/-- The entry that `hash_get` finds: what the pointers of its node read. -/
def hashGetEntry (t : HashT κ ν) (key : κ) : Option (κ × Option ν) :=
  match hashGet t key with
  | (s, some ref) => s.entryAt ref
  | (_, none)     => none

/-- The entries that `hash_foreach` lists, in its order. -/
def hashEntries (t : HashT κ ν) : List (κ × Option ν) :=
  (hashForeach (visitEntry fun l e => l ++ [e]) t []).2.1

/-- The number of entries is within the bound that `hash_put` keeps. -/
def HashT.LoadOk (t : HashT κ ν) : Prop := hashCount t ≤ 3 * t.mBucketCount + 1

section
variable {hash : κ → UInt64} {cmp : κ → κ → Int} (heq : Equivalence (keyEq hash cmp))

/-- The setoid of the table's key comparison. -/
def keySetoid : Setoid κ := ⟨keyEq hash cmp, heq⟩

/-- The table stands for the map: it is well formed, compares keys by `hash` and `cmp`, and an
entry of the map is a node of the table. -/
structure HashT.Models (t : HashT κ ν) (m : KeyMap (keySetoid heq) (Option ν)) : Prop where
  wf : t.Wf
  hash_eq : t.mHash = hash
  cmp_eq : t.mCmp = cmp
  get_iff : ∀ k e, m.get k = some e ↔ e ∈ t.entries ∧ keyEq hash cmp k e.1

variable {heq}

/-- An operation that keeps the configuration and the entries keeps what the table stands for. -/
theorem HashT.Models.congr {t s : HashT κ ν} {m : KeyMap (keySetoid heq) (Option ν)}
    (h : t.Models heq m) (hs : s.Wf) (hconf : s.toHashConf = t.toHashConf)
    (hmem : ∀ e, e ∈ s.entries ↔ e ∈ t.entries) : s.Models heq m :=
  ⟨hs, by rw [hconf]; exact h.hash_eq, by rw [hconf]; exact h.cmp_eq,
    fun k e => by rw [hmem]; exact h.get_iff k e⟩

/-- A table whose entries are a new one and the ones with another key stands for the map with the
new entry. -/
theorem HashT.Models.put {t s : HashT κ ν} {m : KeyMap (keySetoid heq) (Option ν)}
    (h : t.Models heq m) {key : κ} {val : Option ν} (hs : s.Wf)
    (hconf : s.toHashConf = t.toHashConf)
    (hmem : ∀ e, e ∈ s.entries ↔
      e = (key, val) ∨ e ∈ t.entries ∧ ¬keyEq t.mHash t.mCmp key e.1) :
    s.Models heq (m.put key val) := by
  obtain ⟨-, rfl, rfl, hget⟩ := h
  refine ⟨hs, by rw [hconf], by rw [hconf], fun k e => ?_⟩
  rw [KeyMap.get_put, hmem]
  split
  · -- The key that was put: its entry is the new one, the old ones with equal keys are gone.
    rename_i hk
    have hk : keyEq t.mHash t.mCmp k key := hk
    constructor
    · intro he
      obtain rfl : (key, val) = e := Option.some.inj he
      exact ⟨Or.inl rfl, hk⟩
    · rintro ⟨rfl | ⟨-, hne⟩, hke⟩
      · rfl
      · exact absurd (heq.trans (heq.symm hk) hke) hne
  · rename_i hk
    rw [hget]
    constructor
    · rintro ⟨he, hke⟩
      exact ⟨Or.inr ⟨he, fun hkey => hk (heq.trans hke (heq.symm hkey))⟩, hke⟩
    · rintro ⟨rfl | ⟨he, -⟩, hke⟩
      · exact absurd hke hk
      · exact ⟨he, hke⟩

/-- `hash_put` puts the value at the key. -/
theorem models_put (addrOf : Nat → Nat) {t : HashT κ ν}
    {m : KeyMap (keySetoid heq) (Option ν)} (h : t.Models heq m) (key : κ) (val : Option ν) :
    (hashPut addrOf t key val).1.Models heq (m.put key val) := by
  have heq' : Equivalence (keyEq t.mHash t.mCmp) := by rw [h.hash_eq, h.cmp_eq]; exact heq
  obtain ⟨hwf, hconf, hmem, -⟩ := hashPut_spec addrOf heq' h.wf key val
  exact h.put hwf hconf hmem

/-- `hash_remove` deletes the key. -/
theorem models_remove {t : HashT κ ν} {m : KeyMap (keySetoid heq) (Option ν)}
    (h : t.Models heq m) (key : κ) : (hashRemove t key).Models heq (m.del key) := by
  obtain ⟨hwf, rfl, rfl, hget⟩ := h
  obtain ⟨hwf', hconf, -, -, hmem⟩ := hashRemove_spec heq hwf key
  refine ⟨hwf', by rw [hconf], by rw [hconf], fun k e => ?_⟩
  rw [KeyMap.get_del, hmem]
  split
  · rename_i hk
    have hk : keyEq t.mHash t.mCmp k key := hk
    constructor
    · intro he; exact absurd he (by simp)
    · rintro ⟨⟨-, hne⟩, hke⟩
      exact absurd (heq.trans (heq.symm hk) hke) hne
  · rename_i hk
    rw [hget]
    constructor
    · rintro ⟨he, hke⟩
      exact ⟨⟨he, fun hkey => hk (heq.trans hke (heq.symm hkey))⟩, hke⟩
    · rintro ⟨⟨he, -⟩, hke⟩
      exact ⟨he, hke⟩

/-- The step lemma of the refinement. -/
theorem models_apply (addrOf : Nat → Nat) {t : HashT κ ν}
    {m : KeyMap (keySetoid heq) (Option ν)} (h : t.Models heq m) (op : HashOp κ ν)
    (hop : op.Valid) : (op.apply addrOf t).Models heq (op.spec m) := by
  have heq' : Equivalence (keyEq t.mHash t.mCmp) := by rw [h.hash_eq, h.cmp_eq]; exact heq
  cases op with
  | put key val => exact models_put addrOf h key val
  | remove key => exact models_remove h key
  | get key =>
      obtain ⟨s, r, hget, hconf, hview, hcount, -, -⟩ := hashGet_spec h.wf.placed key
      simp only [HashOp.apply, hget]
      exact h.congr (h.wf.congr hconf hview hcount) hconf fun e => by
        rw [HashT.entries_congr hconf hview]
  | resize buckets =>
      obtain ⟨hwf, hconf, -, -, hperm⟩ := hashResize_spec addrOf heq' h.wf hop
      exact h.congr hwf hconf fun e => hperm.mem_iff
  | foreach =>
      obtain ⟨s, l, hs, -, hconf, hcount, hview⟩ :=
        hashForeach_spec (visits_visitEntry fun (l : List (κ × Option ν)) e => l ++ [e]) h.wf []
      simp only [HashOp.apply, hs]
      exact h.congr (h.wf.congr hconf hview hcount) hconf fun e => by
        rw [HashT.entries_congr hconf hview]

/-- Every operation but a resize keeps the load. -/
theorem loadOk_apply (addrOf : Nat → Nat) {t : HashT κ ν} (hwf : t.Wf)
    (heq : Equivalence (keyEq t.mHash t.mCmp)) (h : t.LoadOk) (op : HashOp κ ν)
    (hop : op.isResize = false) : (op.apply addrOf t).LoadOk := by
  have hload : t.mNodeCount ≤ 3 * t.mBucketCount + 1 := h
  cases op with
  | put key val => exact (hashPut_spec addrOf heq hwf key val).2.2.2 hload
  | remove key =>
      obtain ⟨-, -, hbuckets, hcount, -⟩ := hashRemove_spec heq hwf key
      show (hashRemove t key).mNodeCount ≤ 3 * (hashRemove t key).mBucketCount + 1
      rw [hbuckets]
      omega
  | get key =>
      obtain ⟨s, r, hget, -, hview, hcount, -, -⟩ := hashGet_spec hwf.placed key
      simp only [HashOp.apply, hget, HashT.LoadOk, hashCount]
      rw [← s.length_view, hview, t.length_view]
      omega
  | resize buckets => exact absurd hop (by simp [HashOp.isResize])
  | foreach =>
      obtain ⟨s, l, hs, -, -, hcount, hview⟩ :=
        hashForeach_spec (visits_visitEntry fun (l : List (κ × Option ν)) e => l ++ [e]) hwf []
      simp only [HashOp.apply, hs, HashT.LoadOk, hashCount]
      rw [← s.length_view, hview, t.length_view]
      omega

/-- A new table is the empty map. -/
theorem models_hashInit (heq : Equivalence (keyEq hash cmp)) (keySz valSz : Nat) (buckets : Int) :
    (hashInit hash cmp keySz valSz buckets : HashT κ ν).Models heq KeyMap.empty ∧
      (hashInit hash cmp keySz valSz buckets : HashT κ ν).LoadOk := by
  have hview : (hashInit hash cmp keySz valSz buckets : HashT κ ν).view
      = List.replicate (if buckets ≤ 0 then hashDefaultBuckets else buckets.toNat) [] :=
    view_replicate_arrayInit _ _
  have hnodes : (hashInit hash cmp keySz valSz buckets : HashT κ ν).nodes = [] := by
    rw [HashT.nodes_def, hview, flatten_replicate_nil]
  have hentries : (hashInit hash cmp keySz valSz buckets : HashT κ ν).entries = [] := by
    rw [HashT.entries, hnodes]; rfl
  have hpos : 0 < (hashInit hash cmp keySz valSz buckets : HashT κ ν).mBucketCount := by
    rw [← HashT.length_view, hview, List.length_replicate]
    split
    · decide
    · omega
  refine ⟨⟨⟨hpos, ?_, ?_, ?_, ?_⟩, rfl, rfl, fun k e => ?_⟩, ?_⟩
  · rw [hview]; exact inSlot_replicate_nil _ _
  · rw [hnodes]; intro n hn; exact absurd hn List.not_mem_nil
  · rw [hentries]; exact List.Pairwise.nil
  · rw [hnodes]; rfl
  · rw [hentries, KeyMap.get_empty]; simp
  · show (0 : Int) ≤ _
    omega

/-- What `hash_get` shows of the table. -/
theorem hashGetEntry_eq {t : HashT κ ν} {m : KeyMap (keySetoid heq) (Option ν)}
    (h : t.Models heq m) (key : κ) : hashGetEntry t key = m.get key := by
  obtain ⟨hwf, rfl, rfl, hget⟩ := h
  obtain ⟨s, r, hs, hconf, hview, -, hnone, hsome⟩ := hashGet_spec hwf.placed key
  cases r with
  | none =>
      simp only [hashGetEntry, hs]
      symm
      rw [Option.eq_none_iff_forall_not_mem]
      intro e he
      obtain ⟨hmem, hkey⟩ := (hget key e).mp he
      obtain ⟨n, hn, hk, -⟩ := HashT.mem_entries.mp hmem
      have hhit := (t.hit_iff (hwf.node n hn)).mpr ⟨e.1, hk, hkey⟩
      rw [hnone rfl n hn] at hhit
      exact Bool.false_ne_true hhit
  | some ref =>
      obtain ⟨n, hn, hhit, -, hkey, hval⟩ := hsome ref rfl
      obtain ⟨arr, harr, hx⟩ := Option.bind_eq_some_iff.mp hn
      have hbucket : s.view[ref.bucket]? = some (arr.elts.map s.norm) := by
        rw [s.getElem?_view, harr]; rfl
      have hmem : s.norm n ∈ t.nodes := by
        rw [HashT.nodes_def, ← hview]
        exact mem_flatten_of_getElem? hbucket (List.mem_map_of_mem (List.mem_of_getElem? hx))
      rw [hconf] at hmem
      have hok : t.NodeOk n := t.nodeOk_norm.mp (hwf.node _ hmem)
      obtain ⟨k, hk, hkk⟩ := (t.hit_iff hok).mp hhit
      have hentry : s.entryAt ref = some (k, t.valOf n) := by
        rw [HashT.entryAt, hkey, hval, hk]; rfl
      simp only [hashGetEntry, hs, hentry]
      symm
      rw [hget]
      exact ⟨HashT.mem_entries.mpr ⟨_, hmem, by rw [t.keyOf_norm, hk], t.valOf_norm n⟩, hkk⟩

/-- `hash_get` keeps what the table stands for, and its node reads the entry of the map. -/
theorem models_hashGet {t : HashT κ ν} {m : KeyMap (keySetoid heq) (Option ν)}
    (h : t.Models heq m) (key : κ) :
    ∃ s r, hashGet t key = (s, r) ∧ s.Models heq m ∧
      (r = none ∧ m.get key = none ∨
        ∃ ref e, r = some ref ∧ s.entryAt ref = some e ∧ m.get key = some e) := by
  have hentry := hashGetEntry_eq h key
  obtain ⟨s, r, hs, hconf, hview, hcount, hnone, hsome⟩ := hashGet_spec h.wf.placed key
  have hmodels : s.Models heq m :=
    h.congr (h.wf.congr hconf hview hcount) hconf fun e => by
      rw [HashT.entries_congr hconf hview]
  refine ⟨s, r, hs, hmodels, ?_⟩
  rw [← hentry]
  cases r with
  | none => exact Or.inl ⟨rfl, by simp only [hashGetEntry, hs]⟩
  | some ref =>
      right
      obtain ⟨n, hn, hhit, -, hkey, hval⟩ := hsome ref rfl
      -- A hit has a key, which is what the node's pointer reads.
      obtain ⟨k, hk⟩ : ∃ k, t.keyOf n = some k := by
        unfold HashConf.hit at hhit
        cases hk : t.keyOf n with
        | some k => exact ⟨k, rfl⟩
        | none => rw [hk] at hhit; exact absurd hhit (by simp)
      have hread : s.entryAt ref = some (k, t.valOf n) := by
        rw [HashT.entryAt, hkey, hval, hk]; rfl
      exact ⟨ref, _, rfl, hread, by simp only [hashGetEntry, hs]; exact hread⟩

/-- The node of `hash_put` reads the new entry. -/
theorem models_hashPut (addrOf : Nat → Nat) {t : HashT κ ν}
    {m : KeyMap (keySetoid heq) (Option ν)} (h : t.Models heq m) (key : κ) (val : Option ν) :
    ∃ s ref, hashPut addrOf t key val = (s, some ref) ∧ s.Models heq (m.put key val) ∧
      s.entryAt ref = some (key, val) := by
  have hmodels := models_put addrOf h key val
  have heq' : Equivalence (keyEq t.mHash t.mCmp) := by rw [h.hash_eq, h.cmp_eq]; exact heq
  obtain ⟨hwf₁, hconf₁, -, -, -⟩ := hashRemove_spec heq' h.wf key
  obtain ⟨hwf₂, -, -, -, -⟩ := hashGrow_spec addrOf (t := hashRemove t key) (hconf₁ ▸ heq') hwf₁
  unfold hashPut at hmodels ⊢
  generalize hashGrow addrOf (hashRemove t key) = u at hwf₂ hmodels ⊢
  have hb := HashT.slot_lt hwf₂.pos (u.mHash key)
  have harr : u.mBucket[u.slot (u.mHash key)]? = some u.mBucket[u.slot (u.mHash key)] :=
    List.getElem?_eq_getElem hb
  generalize u.mBucket[u.slot (u.mHash key)] = arr at harr
  obtain ⟨arr', hadd, helts⟩ := arrayAdd_one HashNode.zero (addrOf u.mAllocs) arr
  simp only [harr, hadd] at hmodels ⊢
  refine ⟨_, _, rfl, hmodels, ?_⟩
  have hlen : arr.elts.length < arr'.elts.length := by rw [helts]; simp
  have hset : (arr'.elts.set arr.elts.length
      (hashNewNode u arr'.mArray arr.elts.length key val))[arr.elts.length]?
        = some (hashNewNode u arr'.mArray arr.elts.length key val) := by
    rw [List.getElem?_set_self hlen]
  have hbucket : ∀ x, (u.mBucket.set (u.slot (u.mHash key)) x)[u.slot (u.mHash key)]? = some x :=
    fun x => List.getElem?_set_self hb
  unfold HashT.entryAt HashT.readKey HashT.readVal
  simp only [hbucket, Option.bind_some, hset]
  by_cases hk : u.mKeySz = 0 <;> by_cases hv : u.mValSz = 0 <;> cases val <;>
    simp [hashNewNode, NodePtr.read, hk, hv]

theorem foldl_concat {α : Type} (xs : List α) :
    ∀ acc : List α, xs.foldl (fun l x => l ++ [x]) acc = acc ++ xs := by
  induction xs with
  | nil => intro acc; exact (List.append_nil acc).symm
  | cons x xs ih => intro acc; rw [List.foldl_cons, ih, List.append_assoc, List.singleton_append]

/-- `hash_foreach` lists the entries of the table. -/
theorem perm_hashEntries {t : HashT κ ν} (h : t.Wf) : (hashEntries t).Perm t.entries := by
  obtain ⟨s, l, hs, hperm, -⟩ :=
    hashForeach_spec (visits_visitEntry fun (l : List (κ × Option ν)) e => l ++ [e]) h []
  have hlist : hashEntries t = l := by
    rw [hashEntries, hs]
    exact foldl_concat l []
  rw [hlist]
  exact hperm

/-- What `hash_foreach` and `hash_count` show of the table. -/
theorem lists_hashEntries {t : HashT κ ν} {m : KeyMap (keySetoid heq) (Option ν)}
    (h : t.Models heq m) : m.Lists (hashEntries t) ∧ hashCount t = m.count := by
  obtain ⟨hwf, rfl, rfl, hget⟩ := h
  have hperm := perm_hashEntries hwf
  have hlists : m.Lists (hashEntries t) := by
    refine KeyMap.lists_of_get ((pairwise_ne_perm heq hperm).mpr hwf.distinct) fun k e => ?_
    rw [hget, hperm.mem_iff]
    exact and_congr_right fun _ => ⟨heq.symm, heq.symm⟩
  refine ⟨hlists, ?_⟩
  rw [← hlists.length_eq, hperm.length_eq, hwf.placed.length_entries]
  exact hwf.count

/-- Every node stands in the bucket of its hash, which is the hash of its key. -/
def HashT.InBuckets (t : HashT κ ν) : Prop :=
  ∀ b arr, t.mBucket[b]? = some arr → ∀ n ∈ arr.elts,
    n.nodeHash.toNat % t.mBucketCount = b ∧ ∃ k, t.keyOf n = some k ∧ n.nodeHash = t.mHash k

/-- The nodes of a well-formed table lie in its buckets. -/
theorem HashT.Wf.inBuckets {t : HashT κ ν} (h : t.Wf) : t.InBuckets := by
  intro b arr harr n hn
  have hbucket : t.view[b]? = some (arr.elts.map t.norm) := by rw [t.getElem?_view, harr]; rfl
  have hslot := h.slot b _ hbucket (t.norm n) (List.mem_map_of_mem hn)
  simp only [t.norm_nodeHash] at hslot
  exact ⟨hslot, (h.placed.nodeOk_of_mem harr hn).key⟩

end

/-- The hash table is a finite map, along every run of its operations. -/
theorem hash_refines_keyMap (hash : κ → UInt64) (cmp : κ → κ → Int)
    (heq : Equivalence (keyEq hash cmp)) (addrOf : Nat → Nat) (keySz valSz : Nat) (buckets : Int)
    (ops : List (HashOp κ ν)) (hops : ∀ op ∈ ops, op.Valid) :
    let t := run (fun t op => op.apply addrOf t) (hashInit hash cmp keySz valSz buckets) ops
    let m := run HashOp.spec (KeyMap.empty : KeyMap (keySetoid heq) (Option ν)) ops
    (∀ key, hashGetEntry t key = m.get key) ∧ hashCount t = m.count ∧ t.InBuckets ∧
      m.Lists (hashEntries t) ∧ ((∀ op ∈ ops, op.isResize = false) → t.LoadOk) := by
  intro t m
  obtain ⟨hmodels₀, hload₀⟩ := models_hashInit (ν := ν) heq keySz valSz buckets
  have hmodels : t.Models heq m :=
    run_sim (R := fun (t : HashT κ ν) m => t.Models heq m)
      (fun t m op h hop => models_apply addrOf h op hop) hmodels₀ hops
  obtain ⟨hlists, hcount⟩ := lists_hashEntries hmodels
  refine ⟨hashGetEntry_eq hmodels, hcount, hmodels.wf.inBuckets, hlists, fun hresize => ?_⟩
  -- The load bound goes along the run together with the refinement.
  have hboth : t.Models heq m ∧ t.LoadOk := run_sim
    (P := fun op : HashOp κ ν => op.Valid ∧ op.isResize = false)
    (R := fun (t : HashT κ ν) m => t.Models heq m ∧ t.LoadOk)
    (fun t m op h hop => ⟨models_apply addrOf h.1 op hop.1,
      loadOk_apply addrOf h.1.wf (by rw [h.1.hash_eq, h.1.cmp_eq]; exact heq) h.2 op hop.2⟩)
    ⟨hmodels₀, hload₀⟩ fun op hop => ⟨hops op hop, hresize op hop⟩
  exact hboth.2

theorem keyEq_collide : Equivalence (keyEq (fun _ : Int => 0) fun a b => a - b) where
  refl a := ⟨rfl, sub_self a⟩
  symm h := ⟨rfl, sub_eq_zero.mpr (sub_eq_zero.mp h.2).symm⟩
  trans h h' := ⟨rfl, sub_eq_zero.mpr ((sub_eq_zero.mp h.2).trans (sub_eq_zero.mp h'.2))⟩

/-- Two colliding keys in a table with embedded keys and pointer values: one of them stays. -/
theorem hash_refines_keyMap_collide :
    let ops := [HashOp.put 1 (some 10), .put 2 (some 20), .foreach, .put 1 none, .remove 2]
    let t := run (fun t op => op.apply id t) (hashInit (fun _ => 0) (fun a b => a - b) 4 0 1) ops
    let m := run HashOp.spec (KeyMap.empty : KeyMap (keySetoid keyEq_collide) (Option Nat)) ops
    hashGetEntry t 1 = some (1, none) ∧ m.get 1 = some (1, none) ∧ m.count = 1 ∧
      m.Lists (hashEntries t) ∧ t.LoadOk := by
  intro ops t m
  obtain ⟨hget, hcount, -, hlists, hload⟩ :=
    hash_refines_keyMap (fun _ : Int => 0) (fun a b => a - b) keyEq_collide id 4 0 1 ops (by
      simp [ops, HashOp.Valid])
  have hone : hashGetEntry t 1 = some (1, none) := by decide +kernel
  have hnum : hashCount t = 1 := by decide +kernel
  refine ⟨hone, (hget 1).symm.trans hone, ?_, hlists, hload (by decide)⟩
  rw [hnum] at hcount
  exact_mod_cast hcount.symm

end Bklib
