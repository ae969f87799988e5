import Bklib.Lib.Buckets
import Bklib.Lib.KeyMap
import Bklib.Lib.Run
import Bklib.Model.Hash

/-!
# `Bklib.Proofs.Hash`: the hash table is a finite map

Nodes move and their pointers go stale, so the proofs see a table through its *view*: the buckets
with the self-pointers of every node brought to one normal form. `hash_get` and `hash_foreach`
only patch pointers and leave the view as it is; the other operations change one bucket of it, and
`hash_resize` distributes it anew.

`HashT.Wf` is the invariant. The operations keep it, and each has one lemma that says what becomes
of the entries. From these `HashT.Models`, the relation to an abstract `KeyMap`, is kept along
every run.
-/

set_option autoImplicit false

namespace Bklib

open Bklib.Lib

variable {κ ν σ : Type}

/-- Two keys are equal for a table when their hashes are equal and `cmp` returns 0. -/
def keyEq (hash : κ → UInt64) (cmp : κ → κ → Int) (k k' : κ) : Prop :=
  hash k = hash k' ∧ cmp k k' = 0

namespace HashConf

variable (c : HashConf κ)

/-- The node with its pointers into itself in one normal form. Patching a node does not change
it, so everything that matters about a node is said about this form. -/
def norm (n : HashNode κ ν) : HashNode κ ν := c.patchVal 0 0 (c.patchKey 0 0 n)

/-- The key that a node stands for. -/
def keyOf (n : HashNode κ ν) : Option κ :=
  if c.mKeySz ≠ 0 then n.keyMem else n.nodeKey.read 0 0 none

/-- The value that a node stands for. -/
def valOf (n : HashNode κ ν) : Option ν :=
  if c.mValSz ≠ 0 then n.valMem else n.nodeVal.read 0 0 none

/-- The entry that a node stands for. -/
def entryOf (n : HashNode κ ν) : Option (κ × Option ν) := (c.keyOf n).map (·, c.valOf n)

/-- The test that `hash_get` makes on a node. -/
def hit (key : κ) (n : HashNode κ ν) : Bool :=
  c.mHash key == n.nodeHash && (c.keyOf n).any fun k => c.mCmp key k == 0

/-- A node has a key, its hash is the hash of that key, and a value pointer of the caller does
not point into a node. -/
structure NodeOk (n : HashNode κ ν) : Prop where
  key : ∃ k, c.keyOf n = some k ∧ n.nodeHash = c.mHash k
  val : c.mValSz = 0 → ∀ b i, n.nodeVal ≠ .inNode b i

@[simp] theorem norm_nodeHash (n : HashNode κ ν) : (c.norm n).nodeHash = n.nodeHash := by
  unfold norm patchKey patchVal
  split <;> split <;> rfl

@[simp] theorem norm_norm (n : HashNode κ ν) : c.norm (c.norm n) = c.norm n := by
  by_cases hk : c.mKeySz = 0 <;> by_cases hv : c.mValSz = 0 <;>
    simp [norm, patchKey, patchVal, hk, hv]

@[simp] theorem norm_patchKey (b i : Nat) (n : HashNode κ ν) :
    c.norm (c.patchKey b i n) = c.norm n := by
  by_cases hk : c.mKeySz = 0 <;> by_cases hv : c.mValSz = 0 <;>
    simp [norm, patchKey, patchVal, hk, hv]

@[simp] theorem norm_patchVal (b i : Nat) (n : HashNode κ ν) :
    c.norm (c.patchVal b i n) = c.norm n := by
  by_cases hk : c.mKeySz = 0 <;> by_cases hv : c.mValSz = 0 <;>
    simp [norm, patchKey, patchVal, hk, hv]

@[simp] theorem keyOf_norm (n : HashNode κ ν) : c.keyOf (c.norm n) = c.keyOf n := by
  by_cases hk : c.mKeySz = 0 <;> by_cases hv : c.mValSz = 0 <;>
    simp [norm, patchKey, patchVal, keyOf, hk, hv]

@[simp] theorem valOf_norm (n : HashNode κ ν) : c.valOf (c.norm n) = c.valOf n := by
  by_cases hk : c.mKeySz = 0 <;> by_cases hv : c.mValSz = 0 <;>
    simp [norm, patchKey, patchVal, valOf, hk, hv]

@[simp] theorem entryOf_norm (n : HashNode κ ν) : c.entryOf (c.norm n) = c.entryOf n := by
  simp [entryOf]

@[simp] theorem hit_norm (key : κ) (n : HashNode κ ν) : c.hit key (c.norm n) = c.hit key n := by
  simp [hit]

/-- A node is right exactly when its normal form is. -/
theorem nodeOk_norm {n : HashNode κ ν} : c.NodeOk (c.norm n) ↔ c.NodeOk n := by
  have hval : c.mValSz = 0 → (c.norm n).nodeVal = n.nodeVal := by
    intro hv
    by_cases hk : c.mKeySz = 0 <;> simp [norm, patchKey, patchVal, hk, hv]
  constructor
  · rintro ⟨h1, h2⟩
    exact ⟨by simpa using h1, fun hv => by rw [← hval hv]; exact h2 hv⟩
  · rintro ⟨h1, h2⟩
    exact ⟨by simpa using h1, fun hv => by rw [hval hv]; exact h2 hv⟩

/-- After the patch, the key pointer of a node reads the node's key. -/
theorem read_patchKey (b i : Nat) {n : HashNode κ ν} (hn : c.NodeOk n) :
    (c.patchKey b i n).nodeKey.read b i n.keyMem = c.keyOf n := by
  obtain ⟨k, hk, -⟩ := hn.key
  by_cases h : c.mKeySz = 0
  · simp only [keyOf, patchKey, h] at hk ⊢
    cases hp : n.nodeKey with
    | null => simp [hp, NodePtr.read] at hk
    | caller x => simp [hp, NodePtr.read]
    | inNode b' i' => simp [hp, NodePtr.read] at hk
  · simp [keyOf, patchKey, h, NodePtr.read]

/-- After the patch, the value pointer of a node reads the node's value. -/
theorem read_patchVal (b i : Nat) {n : HashNode κ ν} (hn : c.NodeOk n) :
    (c.patchVal b i n).nodeVal.read b i n.valMem = c.valOf n := by
  by_cases h : c.mValSz = 0
  · simp only [valOf, patchVal, h]
    cases hp : n.nodeVal with
    | null => simp [hp, NodePtr.read]
    | caller x => simp [hp, NodePtr.read]
    | inNode b' i' => exact absurd hp (hn.val h b' i')
  · simp [valOf, patchVal, h, NodePtr.read]

theorem patchKey_keyMem (b i : Nat) (n : HashNode κ ν) :
    (c.patchKey b i n).keyMem = n.keyMem := by
  unfold patchKey; split <;> rfl

theorem patchVal_nodeKey (b i : Nat) (n : HashNode κ ν) :
    (c.patchVal b i n).nodeKey = n.nodeKey ∧ (c.patchVal b i n).keyMem = n.keyMem ∧
      (c.patchVal b i n).valMem = n.valMem := by
  unfold patchVal; split <;> exact ⟨rfl, rfl, rfl⟩

/-- A hit is a node whose key is equal to the key looked for. -/
theorem hit_iff {key : κ} {n : HashNode κ ν} (hn : c.NodeOk n) :
    c.hit key n = true ↔ ∃ k, c.keyOf n = some k ∧ keyEq c.mHash c.mCmp key k := by
  obtain ⟨k, hk, hh⟩ := hn.key
  simp only [hit, hk, hh, keyEq, Option.any_some, Bool.and_eq_true, beq_iff_eq,
    Option.some.injEq]
  constructor
  · intro h; exact ⟨k, rfl, h⟩
  · rintro ⟨k', rfl, h⟩; exact h

end HashConf

/-! ### The view of a table

The view is the table with every node in its normal form: what the operations do is stated on
it. `hash_get` and `hash_foreach` leave it as it is. -/

namespace HashT

/-- The buckets, every node in normal form. -/
def view (self : HashT κ ν) : List (List (HashNode κ ν)) :=
  self.mBucket.map fun arr => arr.elts.map self.norm

/-- All nodes, in normal form. -/
def nodes (self : HashT κ ν) : List (HashNode κ ν) := self.view.flatten

/-- The entries: the key and the value of every node. -/
def entries (self : HashT κ ν) : List (κ × Option ν) := self.nodes.filterMap self.entryOf

@[simp] theorem length_view (self : HashT κ ν) : self.view.length = self.mBucketCount :=
  List.length_map _

theorem getElem?_view (self : HashT κ ν) (b : Nat) :
    self.view[b]? = self.mBucket[b]?.map fun arr => arr.elts.map self.norm :=
  List.getElem?_map ..

/-- A change of one bucket array that is a change `f` of its normal forms. -/
theorem view_modify (t : HashT κ ν) (b : Nat)
    (g : ArrayT (HashNode κ ν) → ArrayT (HashNode κ ν))
    (f : List (HashNode κ ν) → List (HashNode κ ν))
    (hg : ∀ arr, t.mBucket[b]? = some arr → (g arr).elts.map t.norm = f (arr.elts.map t.norm)) :
    (t.mBucket.modify b g).map (fun arr => arr.elts.map t.norm) = t.view.modify b f := by
  apply List.ext_getElem?
  intro i
  rw [List.getElem?_map, List.getElem?_modify, List.getElem?_modify, t.getElem?_view]
  cases harr : t.mBucket[i]? with
  | none => rfl
  | some arr =>
      by_cases hbi : b = i
      · subst hbi
        simp [hg arr harr]
      · simp [hbi]

/-- The table is well formed: it has a bucket, every node stands in the bucket of its hash and is
well formed itself, no two nodes have equal keys, and the node count is right. -/
structure Wf (t : HashT κ ν) : Prop where
  pos : 0 < t.mBucketCount
  slot : InSlot (fun n => t.slot n.nodeHash) t.view
  node : ∀ n ∈ t.nodes, t.NodeOk n
  distinct : t.entries.Pairwise fun e e' => ¬ keyEq t.mHash t.mCmp e.1 e'.1
  count : t.mNodeCount = t.nodes.length

/-- What holds of every table, whatever its comparison does: `Wf` without the keys' being
distinct. -/
structure Placed (t : HashT κ ν) : Prop where
  pos : 0 < t.mBucketCount
  slot : InSlot (fun n => t.slot n.nodeHash) t.view
  node : ∀ n ∈ t.nodes, t.NodeOk n
  count : t.mNodeCount = t.nodes.length

theorem Wf.placed {t : HashT κ ν} (h : t.Wf) : t.Placed := ⟨h.pos, h.slot, h.node, h.count⟩

theorem Placed.wf {t : HashT κ ν} (h : t.Placed)
    (hdist : t.entries.Pairwise fun e e' => ¬ keyEq t.mHash t.mCmp e.1 e'.1) : t.Wf :=
  ⟨h.pos, h.slot, h.node, hdist, h.count⟩

theorem slot_lt {self : HashT κ ν} (h : 0 < self.mBucketCount) (x : UInt64) :
    self.slot x < self.mBucketCount := Nat.mod_lt _ h

/-- The nodes of a bucket array are well formed. -/
theorem Placed.nodeOk_of_mem {self : HashT κ ν} (h : self.Placed) {b : Nat}
    {arr : ArrayT (HashNode κ ν)} (hb : self.mBucket[b]? = some arr) {n : HashNode κ ν}
    (hn : n ∈ arr.elts) : self.NodeOk n := by
  have hview : self.view[b]? = some (arr.elts.map self.norm) := by
    rw [getElem?_view, hb]; rfl
  exact self.nodeOk_norm.mp
    (h.node _ (mem_flatten_of_getElem? hview (List.mem_map_of_mem hn)))

end HashT

/-! ### `hash_get` -/

/-- Storing the normal-form equal of an element back does not change the normal forms. -/
theorem map_norm_set (c : HashConf κ) {xs : List (HashNode κ ν)} {i : Nat} {x y : HashNode κ ν}
    (hx : xs[i]? = some x) (hy : c.norm y = c.norm x) :
    (xs.set i y).map c.norm = xs.map c.norm := by
  obtain ⟨hi, rfl⟩ := List.getElem?_eq_some_iff.mp hx
  rw [List.map_set, hy]
  apply List.ext_getElem
  · rw [List.length_set]
  · intro j h1 h2
    rw [List.getElem_set]
    split
    · rename_i hij; subst hij; rw [List.getElem_map]
    · rfl

/-- The loop of `hash_get` finds the last hit below `n`, if there is one. The node that it finds
has fresh pointers. Only pointers change. -/
theorem hashGetScan_spec (self : HashT κ ν) (key : κ) :
    ∀ (n : Nat) (arr : ArrayT (HashNode κ ν)), n ≤ arr.elts.length →
      (∀ x ∈ arr.elts, self.NodeOk x) →
      ∃ r, hashGetScan self key (self.mHash key) arr n = r ∧
        r.1.mArray = arr.mArray ∧ r.1.elts.map self.norm = arr.elts.map self.norm ∧
        (r.2 = none → ∀ i < n, ∀ x, arr.elts[i]? = some x → self.hit key x = false) ∧
        (∀ i, r.2 = some i → i < n ∧ ∃ x, r.1.elts[i]? = some x ∧ self.hit key x = true ∧
          x.nodeKey.read arr.mArray i x.keyMem = self.keyOf x ∧
          x.nodeVal.read arr.mArray i x.valMem = self.valOf x) := by
  intro n
  induction n with
  | zero =>
      intro arr _ _
      exact ⟨_, rfl, rfl, rfl, fun _ i hi => absurd hi (Nat.not_lt_zero i),
        fun i (h : none = some i) => absurd h (by simp)⟩
  | succ n ih =>
      intro arr hn hok
      have hx : arr.elts[n]? = some arr.elts[n] := List.getElem?_eq_getElem (by omega)
      generalize arr.elts[n] = x at hx
      have hxok : self.NodeOk x := hok x (List.mem_of_getElem? hx)
      -- When the loop goes on past node `n`, with `arr'` for the array and no hit at `n`.
      have hskip : ∀ arr' : ArrayT (HashNode κ ν), arr'.mArray = arr.mArray →
          arr'.elts.map self.norm = arr.elts.map self.norm → self.hit key x = false →
          ∃ r, hashGetScan self key (self.mHash key) arr' n = r ∧
            r.1.mArray = arr.mArray ∧ r.1.elts.map self.norm = arr.elts.map self.norm ∧
            (r.2 = none →
              ∀ i < n + 1, ∀ x, arr.elts[i]? = some x → self.hit key x = false) ∧
            (∀ i, r.2 = some i → i < n + 1 ∧ ∃ x, r.1.elts[i]? = some x ∧
              self.hit key x = true ∧ x.nodeKey.read arr.mArray i x.keyMem = self.keyOf x ∧
              x.nodeVal.read arr.mArray i x.valMem = self.valOf x) := by
        intro arr' hblock hmap hmiss
        have hlen : arr'.elts.length = arr.elts.length := by
          simpa using congrArg List.length hmap
        obtain ⟨r, hr, hr1, hr2, hr3, hr4⟩ := ih arr' (by omega) (by
          intro y hy
          have hy' : self.norm y ∈ arr.elts.map self.norm := by
            rw [← hmap]; exact List.mem_map_of_mem hy
          obtain ⟨z, hz, hzy⟩ := List.mem_map.mp hy'
          exact self.nodeOk_norm.mp (hzy ▸ self.nodeOk_norm.mpr (hok z hz)))
        refine ⟨r, hr, hr1.trans hblock, hr2.trans hmap, ?_, ?_⟩
        · intro hnone i hi y hy
          by_cases hin : i = n
          · subst hin
            rw [hx] at hy
            cases hy
            exact hmiss
          · -- The same place of `arr'` holds a node with the same normal form.
            have hmapi := congrArg (·[i]?) hmap
            simp only [List.getElem?_map, hy, Option.map_some] at hmapi
            obtain ⟨z, hz, hzy⟩ := Option.map_eq_some_iff.mp hmapi
            have := hr3 hnone i (by omega) z hz
            rw [← self.hit_norm, hzy, self.hit_norm] at this
            exact this
        · intro i hi
          obtain ⟨hin, y, hy⟩ := hr4 i hi
          rw [hblock] at hy
          exact ⟨by omega, y, hy⟩
      simp only [hashGetScan, hx]
      by_cases hh : self.mHash key = x.nodeHash
      · rw [if_neg (by simpa using hh)]
        obtain ⟨k, hk, -⟩ := hxok.key
        have hread : (self.patchKey arr.mArray n x).nodeKey.read arr.mArray n
            (self.patchKey arr.mArray n x).keyMem = some k := by
          rw [self.patchKey_keyMem, self.read_patchKey _ _ hxok, hk]
        have hmap : (arr.elts.set n (self.patchKey arr.mArray n x)).map self.norm
            = arr.elts.map self.norm := map_norm_set _ hx (self.norm_patchKey _ _ _)
        simp only [hread]
        by_cases hcmp : self.mCmp key k = 0
        · -- The hit: both pointers of the node are fresh.
          rw [if_pos hcmp]
          have hset : ((arr.elts.set n (self.patchKey arr.mArray n x)).set n
              (self.patchVal arr.mArray n (self.patchKey arr.mArray n x)))[n]?
              = some (self.patchVal arr.mArray n (self.patchKey arr.mArray n x)) :=
            List.getElem?_set_self (by rw [List.length_set]; omega)
          obtain ⟨hpk, hpm, hpv⟩ :=
            self.patchVal_nodeKey arr.mArray n (self.patchKey arr.mArray n x)
          have hok' : self.NodeOk (self.patchKey arr.mArray n x) := by
            rw [← self.nodeOk_norm, self.norm_patchKey, self.nodeOk_norm]; exact hxok
          have hkey' : self.keyOf (self.patchVal arr.mArray n (self.patchKey arr.mArray n x))
              = some k := by
            rw [← self.keyOf_norm, self.norm_patchVal, self.norm_patchKey, self.keyOf_norm, hk]
          refine ⟨_, rfl, rfl, ?_, fun h => absurd h (Option.some_ne_none n), ?_⟩
          · rw [← hmap]
            exact map_norm_set _
              (List.getElem?_set_self (by omega)) (self.norm_patchVal _ _ _)
          · rintro i hi
            obtain rfl : n = i := Option.some.inj hi
            refine ⟨Nat.lt_succ_self n, _, hset, ?_, ?_, ?_⟩
            · rw [← self.hit_norm, self.norm_patchVal, self.norm_patchKey, self.hit_norm]
              simp [HashConf.hit, hk, hh, hcmp]
            · rw [hpk, hpm, hread, hkey']
            · rw [hpv, self.read_patchVal _ _ hok', ← self.valOf_norm (self.patchVal ..),
                self.norm_patchVal, self.valOf_norm]
        · rw [if_neg hcmp]
          exact hskip _ rfl hmap (by simp [HashConf.hit, hk, hcmp])
      · rw [if_pos hh]
        exact hskip arr rfl rfl (by simp [HashConf.hit, hh])

/-- What `hash_get` does: only pointers change, and the node that it finds is a hit with fresh
pointers. Without a node, no node of the table is a hit. -/
theorem hashGet_spec {t : HashT κ ν} (h : t.Placed) (key : κ) :
    ∃ s r, hashGet t key = (s, r) ∧ s.toHashConf = t.toHashConf ∧ s.view = t.view ∧
      s.mNodeCount = t.mNodeCount ∧
      (r = none → ∀ n ∈ t.nodes, t.hit key n = false) ∧
      (∀ ref, r = some ref → ∃ n, s.nodeAt ref = some n ∧ t.hit key n = true ∧
        ref.bucket = s.slot n.nodeHash ∧
        s.readKey ref = t.keyOf n ∧ s.readVal ref = t.valOf n) := by
  have hb := HashT.slot_lt h.pos (t.mHash key)
  have harr : t.mBucket[t.slot (t.mHash key)]? = some t.mBucket[t.slot (t.mHash key)] :=
    List.getElem?_eq_getElem hb
  generalize t.mBucket[t.slot (t.mHash key)] = arr at harr
  obtain ⟨⟨arr', i⟩, hr, hblock, hmap, hnone, hsome⟩ :=
    hashGetScan_spec t key arr.elts.length arr le_rfl fun x hx => h.nodeOk_of_mem harr hx
  have hview : (t.mBucket.set (t.slot (t.mHash key)) arr').map (fun arr => arr.elts.map t.norm)
      = t.view := by
    rw [List.set_eq_modify, t.view_modify _ _ id fun arr'' harr'' => ?_, List.modify_id]
    obtain rfl : arr = arr'' := Option.some.inj (harr.symm.trans harr'')
    exact hmap
  have hblock : arr'.mArray = arr.mArray := hblock
  refine ⟨{ t with mBucket := t.mBucket.set (t.slot (t.mHash key)) arr' },
    i.map (NodeRef.mk (t.slot (t.mHash key))), by simp only [hashGet, harr, arrayCount, hr], rfl,
    hview, rfl, ?_, ?_⟩
  · -- A hit has the hash of the key, so it could only stand in this bucket.
    intro hi n hn
    have hi : i = none := by simpa using hi
    by_contra hhit
    rw [Bool.not_eq_false] at hhit
    have hhash : t.mHash key = n.nodeHash := by
      simp only [HashConf.hit, Bool.and_eq_true, beq_iff_eq] at hhit; exact hhit.1
    obtain ⟨xs, hxs, hnxs⟩ := h.slot.mem_bucket hn
    rw [← hhash, t.getElem?_view, harr, Option.map_some, Option.some.injEq] at hxs
    rw [← hxs] at hnxs
    obtain ⟨x, hx, rfl⟩ := List.mem_map.mp hnxs
    obtain ⟨j, hj⟩ := List.mem_iff_getElem?.mp hx
    have hjlt : j < arr.elts.length := (List.getElem?_eq_some_iff.mp hj).1
    rw [t.hit_norm, hnone hi j hjlt x hj] at hhit
    exact Bool.false_ne_true hhit
  · rintro ref href
    obtain ⟨j, hj, rfl⟩ := Option.map_eq_some_iff.mp href
    obtain ⟨hjlt, x, hx, hhit, hkey, hval⟩ := hsome j hj
    have hset : (t.mBucket.set (t.slot (t.mHash key)) arr')[t.slot (t.mHash key)]? = some arr' :=
      List.getElem?_set_self hb
    have hhash : t.mHash key = x.nodeHash := by
      simp only [HashConf.hit, Bool.and_eq_true, beq_iff_eq] at hhit; exact hhit.1
    refine ⟨x, ?_, hhit, ?_, ?_, ?_⟩
    · simp only [HashT.nodeAt, hset, Option.bind_some, hx]
    · simp only [HashT.slot, HashT.mBucketCount, List.length_set, hhash]
    · simp only [HashT.readKey, hset, Option.bind_some, hx, hblock, hkey]
    · simp only [HashT.readVal, hset, Option.bind_some, hx, hblock, hval]

namespace HashT

/-- Where the nodes stand is about the configuration, the view and the node count only. -/
theorem Placed.congr {t s : HashT κ ν} (hc : s.toHashConf = t.toHashConf) (hv : s.view = t.view)
    (hn : s.mNodeCount = t.mNodeCount) (h : t.Placed) : s.Placed := by
  have hlen : s.mBucketCount = t.mBucketCount := by
    rw [← s.length_view, hv, t.length_view]
  have hslot : s.slot = t.slot := by
    funext x; unfold HashT.slot; rw [hlen]
  have hnodes : s.nodes = t.nodes := by unfold nodes; rw [hv]
  exact ⟨by rw [hlen]; exact h.pos, by rw [hv, hslot]; exact h.slot,
    by rw [hnodes, hc]; exact h.node, by rw [hn, hnodes]; exact h.count⟩

/-- So is well-formedness. -/
theorem Wf.congr {t s : HashT κ ν} (hc : s.toHashConf = t.toHashConf) (hv : s.view = t.view)
    (hn : s.mNodeCount = t.mNodeCount) (h : t.Wf) : s.Wf := by
  refine (h.placed.congr hc hv hn).wf ?_
  have hentries : s.entries = t.entries := by unfold entries nodes; rw [hv, hc]
  rw [hentries, hc]
  exact h.distinct

theorem entries_congr {t s : HashT κ ν} (hc : s.toHashConf = t.toHashConf)
    (hv : s.view = t.view) : s.entries = t.entries := by
  unfold entries nodes; rw [hc, hv]

theorem mem_entries {t : HashT κ ν} {e : κ × Option ν} :
    e ∈ t.entries ↔ ∃ n ∈ t.nodes, t.keyOf n = some e.1 ∧ t.valOf n = e.2 := by
  obtain ⟨k, v⟩ := e
  simp [entries, List.mem_filterMap, HashConf.entryOf]

/-- A placed table has one entry for every node. -/
theorem Placed.length_entries {t : HashT κ ν} (h : t.Placed) : t.entries.length = t.nodes.length := by
  have hall : ∀ ns : List (HashNode κ ν), (∀ n ∈ ns, t.NodeOk n) →
      (ns.filterMap t.entryOf).length = ns.length := by
    intro ns
    induction ns with
    | nil => intro _; rfl
    | cons n ns ih =>
        intro hok
        obtain ⟨k, hk, -⟩ := (hok n List.mem_cons_self).key
        have hentry : t.entryOf n = some (k, t.valOf n) := by simp [HashConf.entryOf, hk]
        rw [List.filterMap_cons_some hentry, List.length_cons, List.length_cons,
          ih fun m hm => hok m (List.mem_cons_of_mem n hm)]
  exact hall t.nodes h.node

end HashT

/-! ### One bucket changes

`hash_free` erases a node of the view and `hash_put` adds one. -/

namespace HashT

theorem nodes_def (t : HashT κ ν) : t.nodes = t.view.flatten := rfl

/-- Two tables with the same nodes up to order have the same entries up to order. -/
theorem entries_perm {t s : HashT κ ν} (hc : s.toHashConf = t.toHashConf)
    (h : s.nodes.Perm t.nodes) : s.entries.Perm t.entries := by
  unfold entries; rw [hc]; exact h.filterMap _

end HashT

section
variable {hash : κ → UInt64} {cmp : κ → κ → Int} (heq : Equivalence (keyEq hash cmp))

include heq in
theorem pairwise_ne_perm {es es' : List (κ × Option ν)} (h : es.Perm es') :
    es.Pairwise (fun e e' => ¬ keyEq hash cmp e.1 e'.1) ↔
      es'.Pairwise (fun e e' => ¬ keyEq hash cmp e.1 e'.1) :=
  h.pairwise_iff fun hne heq' => hne (heq.symm heq')

end

/-- `hash_free` takes its node out of the view. -/
theorem hashFree_spec {s : HashT κ ν} {ref : NodeRef} {n : HashNode κ ν}
    (hn : s.nodeAt ref = some n) (hslot : ref.bucket = s.slot n.nodeHash) :
    hashFree s (some ref) = { s with
        mBucket := s.mBucket.modify ref.bucket (arrayRemoveIdx · ref.idx 1)
        mNodeCount := s.mNodeCount - 1 } ∧
      (hashFree s (some ref)).view = s.view.modify ref.bucket (·.eraseIdx ref.idx) := by
  obtain ⟨arr, harr, hx⟩ := Option.bind_eq_some_iff.mp hn
  have hidx : ref.idx < arr.elts.length := (List.getElem?_eq_some_iff.mp hx).1
  have hfree : hashFree s (some ref) = { s with
      mBucket := s.mBucket.modify ref.bucket (arrayRemoveIdx · ref.idx 1)
      mNodeCount := s.mNodeCount - 1 } := by
    simp only [hashFree, hn, hslot]
  refine ⟨hfree, ?_⟩
  rw [hfree]
  refine s.view_modify ref.bucket (arrayRemoveIdx · ref.idx 1) _ fun arr' harr' => ?_
  obtain rfl : arr = arr' := Option.some.inj (harr.symm.trans harr')
  rw [elts_arrayRemoveIdx_one arr ref.idx hidx, List.eraseIdx_map]

/-- `hash_free` of a node that stands in the bucket of its hash: the other nodes stay. -/
theorem hashFree_placed {s : HashT κ ν} (h : s.Placed) {ref : NodeRef} {n : HashNode κ ν}
    (hn : s.nodeAt ref = some n) (hslot : ref.bucket = s.slot n.nodeHash) :
    (hashFree s (some ref)).Placed ∧ (hashFree s (some ref)).toHashConf = s.toHashConf ∧
      (hashFree s (some ref)).mBucketCount = s.mBucketCount ∧
      (hashFree s (some ref)).mNodeCount = s.mNodeCount - 1 ∧
      (s.norm n :: (hashFree s (some ref)).nodes).Perm s.nodes := by
  obtain ⟨arr, harr, hx⟩ := Option.bind_eq_some_iff.mp hn
  obtain ⟨hfree, hview⟩ := hashFree_spec hn hslot
  have hnodes : (s.norm n :: (hashFree s (some ref)).nodes).Perm s.nodes := by
    rw [HashT.nodes_def, hview]
    refine perm_flatten_modify_eraseIdx s.view ref.bucket ref.idx (arr.elts.map s.norm)
      (s.norm n) ?_ ?_
    · rw [s.getElem?_view, harr]; rfl
    · rw [List.getElem?_map, hx]; rfl
  have hconf : (hashFree s (some ref)).toHashConf = s.toHashConf := by rw [hfree]
  have hcount : (hashFree s (some ref)).mNodeCount = s.mNodeCount - 1 := by rw [hfree]
  have hbuckets : (hashFree s (some ref)).mBucketCount = s.mBucketCount := by
    rw [hfree]; exact List.length_modify ..
  refine ⟨⟨?_, ?_, ?_, ?_⟩, hconf, hbuckets, hcount, hnodes⟩
  · rw [hbuckets]; exact h.pos
  · have hslots : (hashFree s (some ref)).slot = s.slot := by
      funext x; unfold HashT.slot; rw [hbuckets]
    rw [hslots, hview]
    exact h.slot.modify_eraseIdx ref.bucket ref.idx
  · intro m hm
    rw [hconf]
    exact h.node m (hnodes.mem_iff.mp (List.mem_cons_of_mem _ hm))
  · have hlen := hnodes.length_eq
    have := h.count
    rw [List.length_cons] at hlen
    omega

/-- What `hash_remove` does to the nodes, whatever the comparison is. -/
theorem hashRemove_placed {t : HashT κ ν} (h : t.Placed) (key : κ) :
    (hashRemove t key).Placed ∧ (hashRemove t key).toHashConf = t.toHashConf := by
  obtain ⟨s, r, hget, hconf, hview, hcount, -, hsome⟩ := hashGet_spec h key
  have hs : s.Placed := h.congr hconf hview hcount
  simp only [hashRemove, hget]
  cases r with
  | none => exact ⟨hs, hconf⟩
  | some ref =>
      obtain ⟨n, hn, -, hslot, -, -⟩ := hsome ref rfl
      obtain ⟨hplaced, hconf', -⟩ := hashFree_placed hs hn hslot
      exact ⟨hplaced, hconf'.trans hconf⟩

/-- What `hash_remove` does: the table stays well formed, with the same configuration and
buckets, and exactly the entries whose key is equal to `key` are gone. -/
theorem hashRemove_spec {t : HashT κ ν} (heq : Equivalence (keyEq t.mHash t.mCmp)) (h : t.Wf)
    (key : κ) :
    (hashRemove t key).Wf ∧ (hashRemove t key).toHashConf = t.toHashConf ∧
      (hashRemove t key).mBucketCount = t.mBucketCount ∧
      (hashRemove t key).mNodeCount ≤ t.mNodeCount ∧
      ∀ e, e ∈ (hashRemove t key).entries ↔ e ∈ t.entries ∧ ¬ keyEq t.mHash t.mCmp key e.1 := by
  obtain ⟨s, r, hget, hconf, hview, hcount, hnone, hsome⟩ := hashGet_spec h.placed key
  have hs : s.Wf := h.congr hconf hview hcount
  have hbuckets : s.mBucketCount = t.mBucketCount := by
    rw [← s.length_view, hview, t.length_view]
  have hentries := HashT.entries_congr hconf hview
  simp only [hashRemove, hget]
  cases r with
  | none =>
      refine ⟨hs, hconf, hbuckets, hcount.le, fun e => ?_⟩
      rw [show hashFree s none = s from rfl, hentries]
      refine ⟨fun he => ⟨he, fun hk => ?_⟩, And.left⟩
      obtain ⟨n, hn, hkey, -⟩ := HashT.mem_entries.mp he
      have hhit := (t.hit_iff (h.node n hn)).mpr ⟨e.1, hkey, hk⟩
      rw [hnone rfl n hn] at hhit
      exact Bool.false_ne_true hhit
  | some ref =>
      obtain ⟨n, hn, hhit, hslot, -, -⟩ := hsome ref rfl
      obtain ⟨arr, harr, hx⟩ := Option.bind_eq_some_iff.mp hn
      obtain ⟨hplaced, hconf', hbuckets', hcount', hnodes⟩ := hashFree_placed hs.placed hn hslot
      obtain ⟨k, hk, hkk⟩ := (t.hit_iff (by
        rw [← hconf]; exact hs.placed.nodeOk_of_mem harr (List.mem_of_getElem? hx))).mp hhit
      -- What the loss of the node means for the entries.
      have hperm : ((k, s.valOf n) :: (hashFree s (some ref)).entries).Perm s.entries := by
        have hentry : s.entryOf (s.norm n) = some (k, s.valOf n) := by
          rw [s.entryOf_norm, HashConf.entryOf, hconf, hk]; rfl
        have hfilter := hnodes.filterMap s.entryOf
        rw [List.filterMap_cons_some hentry] at hfilter
        unfold HashT.entries
        rw [hconf']
        exact hfilter
      have hdist := (pairwise_ne_perm (hconf ▸ heq) hperm).mpr hs.distinct
      refine ⟨hplaced.wf ?_, hconf'.trans hconf, hbuckets'.trans hbuckets, by omega, ?_⟩
      · rw [hconf']
        exact (List.pairwise_cons.mp hdist).2
      · intro e
        rw [← hentries, ← hperm.mem_iff, List.mem_cons]
        constructor
        · intro he
          refine ⟨Or.inr he, fun hke => (List.pairwise_cons.mp hdist).1 e he ?_⟩
          rw [hconf]
          exact heq.trans (heq.symm hkk) hke
        · rintro ⟨rfl | he, hne⟩
          · exact absurd hkk hne
          · exact he

/-! ### `hash_resize` and `hash_put` -/

/-- Appending a node puts it at the end of the slot of its hash. -/
theorem hashAppendNode_spec (addrOf : Nat → Nat) (t : HashT κ ν) (n : HashNode κ ν) :
    (hashAppendNode addrOf t n).toHashConf = t.toHashConf ∧
      (hashAppendNode addrOf t n).mNodeCount = t.mNodeCount ∧
      (hashAppendNode addrOf t n).mBucketCount = t.mBucketCount ∧
      (hashAppendNode addrOf t n).view
        = t.view.modify (t.slot n.nodeHash) (· ++ [t.norm n]) := by
  refine ⟨rfl, rfl, List.length_modify .., ?_⟩
  refine t.view_modify (t.slot n.nodeHash) _ _ fun arr _ => ?_
  rw [elts_arrayAppend, List.map_append]
  rfl

/-- Appending nodes one after the other distributes their normal forms over the view. -/
theorem foldl_hashAppendNode (addrOf : Nat → Nat) (ns : List (HashNode κ ν)) :
    ∀ t : HashT κ ν, ∃ s, ns.foldl (hashAppendNode addrOf) t = s ∧
      s.toHashConf = t.toHashConf ∧ s.mNodeCount = t.mNodeCount ∧
      s.mBucketCount = t.mBucketCount ∧
      s.view = distribute (fun n => t.slot n.nodeHash) t.view (ns.map t.norm) := by
  induction ns with
  | nil => intro t; exact ⟨t, rfl, rfl, rfl, rfl, rfl⟩
  | cons n ns ih =>
      intro t
      obtain ⟨hconf, hcount, hbuckets, hview⟩ := hashAppendNode_spec addrOf t n
      obtain ⟨s, hs, hconf', hcount', hbuckets', hview'⟩ := ih (hashAppendNode addrOf t n)
      refine ⟨s, hs, hconf'.trans hconf, hcount'.trans hcount, hbuckets'.trans hbuckets, ?_⟩
      have hslot : (hashAppendNode addrOf t n).slot = t.slot := by
        funext x; unfold HashT.slot; rw [hbuckets]
      rw [hview', hview, hconf, hslot, List.map_cons]
      simp only [distribute, List.foldl_cons, t.norm_nodeHash]

/-- A table of new buckets only. -/
theorem view_replicate_arrayInit (c : HashConf κ) (n : Nat) :
    (List.replicate n (arrayInit 1 : ArrayT (HashNode κ ν))).map
      (fun arr => arr.elts.map c.norm) = List.replicate n [] := by
  rw [List.map_replicate]; rfl

theorem flatten_replicate_nil {α : Type} (n : Nat) :
    (List.replicate n ([] : List α)).flatten = [] := by
  induction n with
  | zero => rfl
  | succ n ih => rw [List.replicate_succ, List.flatten_cons, ih, List.append_nil]

/-- What `hash_resize` does to the nodes, whatever the comparison is. -/
theorem hashResize_placed (addrOf : Nat → Nat) {t : HashT κ ν} (h : t.Placed) {buckets : Nat}
    (hpos : 0 < buckets) :
    (hashResize addrOf t buckets).Placed ∧
      (hashResize addrOf t buckets).toHashConf = t.toHashConf ∧
      (hashResize addrOf t buckets).mBucketCount = buckets ∧
      (hashResize addrOf t buckets).mNodeCount = t.mNodeCount ∧
      (hashResize addrOf t buckets).entries.Perm t.entries := by
  obtain ⟨s, hs, hconf, hcount, hbuckets, hview⟩ := foldl_hashAppendNode addrOf
    (t.mBucket.flatMap fun arr => arr.elts.reverse)
    { t with mBucket := List.replicate buckets (arrayInit 1) }
  have hconf : s.toHashConf = t.toHashConf := hconf
  have hbuckets : s.mBucketCount = buckets := hbuckets.trans (List.length_replicate ..)
  have hs : hashResize addrOf t buckets = s := hs
  rw [hs]
  have hview0 : ({ t with mBucket := List.replicate buckets (arrayInit 1) } : HashT κ ν).view
      = List.replicate buckets [] := view_replicate_arrayInit t.toHashConf buckets
  have hslot : ({ t with mBucket := List.replicate buckets (arrayInit 1) } : HashT κ ν).slot
      = s.slot := by
    funext x
    unfold HashT.slot
    rw [hbuckets, HashT.mBucketCount, List.length_replicate]
  rw [hview0, hslot] at hview
  -- The nodes of a bucket come in reverse, which leaves them the same as a whole.
  have hold : ((t.mBucket.flatMap fun arr => arr.elts.reverse).map t.norm).Perm t.nodes := by
    rw [HashT.nodes_def, HashT.view, ← List.flatMap_def, List.map_flatMap]
    refine List.Perm.flatMap_left _ fun arr _ => ?_
    rw [List.map_reverse]
    exact List.reverse_perm _
  obtain ⟨-, hin, hperm⟩ := distribute_spec (fun n => s.slot n.nodeHash)
    ((t.mBucket.flatMap fun arr => arr.elts.reverse).map t.norm)
    (List.replicate buckets []) (inSlot_replicate_nil _ _) fun n _ => by
      rw [List.length_replicate, ← hbuckets]
      exact HashT.slot_lt (by omega) _
  have hnodes : s.nodes.Perm t.nodes := by
    rw [HashT.nodes_def, hview]
    refine hperm.trans ?_
    rw [flatten_replicate_nil, List.append_nil]
    exact hold
  refine ⟨⟨by omega, ?_, ?_, ?_⟩, hconf, hbuckets, hcount, HashT.entries_perm hconf hnodes⟩
  · rw [hview]; exact hin
  · intro n hn
    rw [hconf]
    exact h.node n (hnodes.mem_iff.mp hn)
  · rw [hcount, hnodes.length_eq]
    exact h.count

/-- What `hash_resize` does: the table has `buckets` buckets and the same entries. -/
theorem hashResize_spec (addrOf : Nat → Nat) {t : HashT κ ν}
    (heq : Equivalence (keyEq t.mHash t.mCmp)) (h : t.Wf) {buckets : Nat} (hpos : 0 < buckets) :
    (hashResize addrOf t buckets).Wf ∧
      (hashResize addrOf t buckets).toHashConf = t.toHashConf ∧
      (hashResize addrOf t buckets).mBucketCount = buckets ∧
      (hashResize addrOf t buckets).mNodeCount = t.mNodeCount ∧
      (hashResize addrOf t buckets).entries.Perm t.entries := by
  obtain ⟨hplaced, hconf, hbuckets, hcount, hentries⟩ := hashResize_placed addrOf h.placed hpos
  refine ⟨hplaced.wf ?_, hconf, hbuckets, hcount, hentries⟩
  rw [hconf]
  exact (pairwise_ne_perm heq hentries).mpr h.distinct

/-- The loop of `hash_resize_next` ends at zero or above the number of buckets: the powers of two
reach zero after 32 shifts, and there are 33 rounds. -/
theorem hashResizeNextLoop_spec (buckets : Int) :
    ∀ fuel j : Nat, fuel + j = 33 → j ≤ 32 →
      hashResizeNextLoop buckets fuel (toInt32 (2 ^ j)) = 0 ∨
        buckets < hashResizeNextLoop buckets fuel (toInt32 (2 ^ j)) := by
  intro fuel
  induction fuel with
  | zero => intro j hj hle; omega
  | succ fuel ih =>
      intro j hj hle
      rw [hashResizeNextLoop]
      split
      · rename_i hgo
        have hlt : j ≠ 32 := by
          rintro rfl
          exact hgo.1 (by decide)
        have hnext : toInt32 (2 * toInt32 (2 ^ j)) = toInt32 (2 ^ (j + 1)) := by
          rw [toInt32_def, toInt32_def, toInt32_def, Int.mul_bmod_bmod, mul_comm 2, ← pow_succ]
        rw [hnext]
        exact ih (j + 1) (by omega) (by omega)
      · rename_i hstop
        omega

/-- `hash_resize_next` gives more buckets than there are. -/
theorem lt_hashResizeNext (buckets : Int) : buckets < hashResizeNext buckets := by
  have h := hashResizeNextLoop_spec buckets 33 0 rfl (by omega)
  rw [show toInt32 (2 ^ 0) = 1 by decide] at h
  simp only [hashResizeNext]
  split <;> omega

/-- What the growth step does to the nodes, whatever the comparison is. -/
theorem hashGrow_placed (addrOf : Nat → Nat) {t : HashT κ ν} (h : t.Placed) :
    (hashGrow addrOf t).Placed ∧ (hashGrow addrOf t).toHashConf = t.toHashConf := by
  have hpos := h.pos
  have hnext := lt_hashResizeNext t.mBucketCount
  unfold hashGrow
  split
  · obtain ⟨hplaced, hconf, -⟩ :=
      hashResize_placed addrOf h (show 0 < (hashResizeNext t.mBucketCount).toNat by omega)
    exact ⟨hplaced, hconf⟩
  · exact ⟨h, rfl⟩

/-- The growth step keeps the entries. With at most `3 * buckets + 1` of them before a removal
that took `removed` away, there are at most `3 * buckets` of them after it. -/
theorem hashGrow_spec (addrOf : Nat → Nat) {t : HashT κ ν}
    (heq : Equivalence (keyEq t.mHash t.mCmp)) (h : t.Wf) :
    (hashGrow addrOf t).Wf ∧ (hashGrow addrOf t).toHashConf = t.toHashConf ∧
      (hashGrow addrOf t).mNodeCount = t.mNodeCount ∧
      (hashGrow addrOf t).entries.Perm t.entries ∧
      (t.mNodeCount ≤ 3 * t.mBucketCount + 1 →
        (hashGrow addrOf t).mNodeCount ≤ 3 * (hashGrow addrOf t).mBucketCount) := by
  have hpos := h.pos
  have hnext := lt_hashResizeNext t.mBucketCount
  unfold hashGrow
  split
  · obtain ⟨hwf, hconf, hbuckets, hcount, hentries⟩ :=
      hashResize_spec addrOf heq h (show 0 < (hashResizeNext t.mBucketCount).toNat by omega)
    refine ⟨hwf, hconf, hcount, hentries, fun hload => ?_⟩
    rw [hbuckets, hcount]
    omega
  · rename_i hsmall
    refine ⟨h, rfl, rfl, List.Perm.refl _, fun _ => ?_⟩
    have hwrap : toInt32 (3 * t.mBucketCount) ≤ 3 * t.mBucketCount := toInt32_le (by omega)
    omega

/-- A new node is right and holds its entry. -/
theorem hashNewNode_spec (t : HashT κ ν) (block idx : Nat) (key : κ) (val : Option ν) :
    t.NodeOk (hashNewNode t block idx key val) ∧
      (hashNewNode t block idx key val).nodeHash = t.mHash key ∧
      t.entryOf (hashNewNode t block idx key val) = some (key, val) := by
  by_cases hk : t.mKeySz = 0 <;> by_cases hv : t.mValSz = 0 <;> cases val <;>
    refine ⟨⟨⟨key, ?_, rfl⟩, ?_⟩, rfl, ?_⟩ <;>
    simp [hashNewNode, HashConf.keyOf, HashConf.valOf, HashConf.entryOf, NodePtr.read, hk, hv]

/-- The last step of `hash_put` puts one node into the table `u` that the removal and the growth
leave, whatever the comparison is. -/
theorem hashPut_placed (addrOf : Nat → Nat) {t u : HashT κ ν} (key : κ) (val : Option ν)
    (hu : hashGrow addrOf (hashRemove t key) = u) (h : u.Placed) :
    (hashPut addrOf t key val).1.Placed ∧
      (hashPut addrOf t key val).1.toHashConf = u.toHashConf ∧
      (hashPut addrOf t key val).1.mBucketCount = u.mBucketCount ∧
      (hashPut addrOf t key val).1.mNodeCount = u.mNodeCount + 1 ∧
      (hashPut addrOf t key val).1.entries.Perm ((key, val) :: u.entries) := by
  have hb := HashT.slot_lt h.pos (u.mHash key)
  have harr : u.mBucket[u.slot (u.mHash key)]? = some u.mBucket[u.slot (u.mHash key)] :=
    List.getElem?_eq_getElem hb
  generalize u.mBucket[u.slot (u.mHash key)] = arr at harr
  obtain ⟨arr', hadd, helts⟩ := arrayAdd_one HashNode.zero (addrOf u.mAllocs) arr
  obtain ⟨hok, hhash, hentry⟩ := hashNewNode_spec u arr'.mArray arr.elts.length key val
  generalize hnew : hashNewNode u arr'.mArray arr.elts.length key val = new at hok hhash hentry
  generalize hs : ({ u with
      mBucket := u.mBucket.set (u.slot (u.mHash key))
        { arr' with elts := arr'.elts.set arr.elts.length new }
      mNodeCount := u.mNodeCount + 1
      mAllocs := u.mAllocs + 1 } : HashT κ ν) = s
  have hput : (hashPut addrOf t key val).1 = s := by
    rw [← hs, ← hnew]
    simp only [hashPut, hu, harr, hadd]
  rw [hput]
  have hconf : s.toHashConf = u.toHashConf := by rw [← hs]
  have hcount : s.mNodeCount = u.mNodeCount + 1 := by rw [← hs]
  have hbuckets : s.mBucketCount = u.mBucketCount := by rw [← hs]; exact List.length_set ..
  -- the bucket of the key gets one more node at its end
  have hview : s.view = u.view.modify (u.slot new.nodeHash) (· ++ [u.norm new]) := by
    rw [← hs, hhash, HashT.view, List.set_eq_modify]
    refine u.view_modify _ _ _ fun arr'' harr'' => ?_
    obtain rfl : arr = arr'' := Option.some.inj (harr.symm.trans harr'')
    simp [helts]
  have hnodes : s.nodes.Perm (u.norm new :: u.nodes) := by
    rw [HashT.nodes_def, hview]
    exact perm_flatten_modify_append _ _ _ (by
      rw [u.length_view]; exact HashT.slot_lt h.pos _)
  -- the order of the entries depends on the buckets, so this is up to a permutation
  have hentries : s.entries.Perm ((key, val) :: u.entries) := by
    have hfilter := hnodes.filterMap u.entryOf
    rw [List.filterMap_cons_some ((u.entryOf_norm new).trans hentry)] at hfilter
    unfold HashT.entries
    rw [hconf]
    exact hfilter
  refine ⟨⟨?_, ?_, ?_, ?_⟩, hconf, hbuckets, hcount, hentries⟩
  · rw [hbuckets]; exact h.pos
  · have hslot : s.slot = u.slot := by
      funext x; unfold HashT.slot; rw [hbuckets]
    have hin := h.slot.modify_append (u.norm new)
    rw [u.norm_nodeHash] at hin
    rw [hslot, hview]
    exact hin
  · intro n hn
    rw [hconf]
    rcases List.mem_cons.mp (hnodes.mem_iff.mp hn) with rfl | hn
    · exact u.nodeOk_norm.mpr hok
    · exact h.node n hn
  · have hlen := hnodes.length_eq
    have := h.count
    rw [List.length_cons] at hlen
    omega

/-- What `hash_put` does: the entries are the new one and the ones with another key, and the load
stays below three entries a bucket and one more. -/
theorem hashPut_spec (addrOf : Nat → Nat) {t : HashT κ ν}
    (heq : Equivalence (keyEq t.mHash t.mCmp)) (h : t.Wf) (key : κ) (val : Option ν) :
    (hashPut addrOf t key val).1.Wf ∧ (hashPut addrOf t key val).1.toHashConf = t.toHashConf ∧
      (∀ e, e ∈ (hashPut addrOf t key val).1.entries ↔
        e = (key, val) ∨ e ∈ t.entries ∧ ¬ keyEq t.mHash t.mCmp key e.1) ∧
      (t.mNodeCount ≤ 3 * t.mBucketCount + 1 →
        (hashPut addrOf t key val).1.mNodeCount
          ≤ 3 * (hashPut addrOf t key val).1.mBucketCount + 1) := by
  obtain ⟨hwf₁, hconf₁, hbuckets₁, hcount₁, hmem₁⟩ := hashRemove_spec heq h key
  obtain ⟨hwf₂, hconf₂, hcount₂, hperm₂, hload₂⟩ :=
    hashGrow_spec addrOf (t := hashRemove t key) (hconf₁ ▸ heq) hwf₁
  have hconf := hconf₂.trans hconf₁
  have hperm : ∀ e, e ∈ (hashGrow addrOf (hashRemove t key)).entries ↔
      e ∈ t.entries ∧ ¬ keyEq t.mHash t.mCmp key e.1 := fun e => hperm₂.mem_iff.trans (hmem₁ e)
  generalize hu : hashGrow addrOf (hashRemove t key) = u at hwf₂ hload₂ hconf hperm
  obtain ⟨hplaced, hconf', hbuckets', hcount', hentries⟩ :=
    hashPut_placed addrOf key val hu hwf₂.placed
  refine ⟨hplaced.wf ?_, hconf'.trans hconf, ?_, ?_⟩
  · rw [hconf', hconf, pairwise_ne_perm heq hentries, List.pairwise_cons]
    refine ⟨fun e he => ((hperm e).mp he).2, ?_⟩
    have hdist := hwf₂.distinct
    rw [hconf] at hdist
    exact hdist
  · intro e
    rw [hentries.mem_iff, List.mem_cons, hperm]
  · intro hload
    rw [hbuckets', hcount']
    have := hload₂ (by rw [hbuckets₁]; omega)
    omega

/-! ### `hash_foreach` -/

namespace HashT

/-- What the key and value pointers of a node read. -/
def entryAt (t : HashT κ ν) (ref : NodeRef) : Option (κ × Option ν) :=
  (t.readKey ref).map (·, t.readVal ref)

theorem readVal_of_entryAt {t : HashT κ ν} {ref : NodeRef} {e : κ × Option ν}
    (h : t.entryAt ref = some e) : t.readVal ref = e.2 := by
  unfold entryAt at h
  obtain ⟨k, -, rfl⟩ := Option.map_eq_some_iff.mp h
  rfl

/-- Patching a link leaves the chains as they read. -/
theorem patchAt_spec (t : HashT κ ν) (ref : NodeRef) :
    (t.patchAt ref).toHashConf = t.toHashConf ∧ (t.patchAt ref).mNodeCount = t.mNodeCount ∧
      (t.patchAt ref).view = t.view := by
  refine ⟨rfl, rfl, ?_⟩
  refine (t.view_modify ref.bucket _ id fun arr _ => ?_).trans (List.modify_id ..)
  apply List.ext_getElem?
  intro i
  rw [id, List.getElem?_map, List.getElem?_map, List.getElem?_modify]
  cases arr.elts[i]? with
  | none => rfl
  | some n => by_cases hi : ref.idx = i <;> simp [hi]

/-- After the patch, the pointers of a node read the entry that the node stands for. -/
theorem entryAt_patchAt {t : HashT κ ν} (h : t.Placed) {b j : Nat} {xs : List (HashNode κ ν)}
    {x : HashNode κ ν} (hb : t.view[b]? = some xs) (hx : xs[j]? = some x) :
    (t.patchAt ⟨b, j⟩).entryAt ⟨b, j⟩ = t.entryOf x := by
  rw [t.getElem?_view] at hb
  obtain ⟨arr, harr, rfl⟩ := Option.map_eq_some_iff.mp hb
  rw [List.getElem?_map] at hx
  obtain ⟨n, hn, rfl⟩ := Option.map_eq_some_iff.mp hx
  have hok : t.NodeOk n := h.nodeOk_of_mem harr (List.mem_of_getElem? hn)
  have hok' : t.NodeOk (t.patchKey arr.mArray j n) := by
    rw [← t.nodeOk_norm, t.norm_patchKey, t.nodeOk_norm]; exact hok
  obtain ⟨hpk, hpm, hpv⟩ := t.patchVal_nodeKey arr.mArray j (t.patchKey arr.mArray j n)
  have hkey : (t.patchAt ⟨b, j⟩).readKey ⟨b, j⟩ = t.keyOf n := by
    simp only [readKey, patchAt, List.getElem?_modify_eq, harr, hn, Option.map_eq_map,
      Option.map_some, Option.bind_some, hpk, hpm]
    rw [t.patchKey_keyMem, t.read_patchKey _ _ hok]
  have hval : (t.patchAt ⟨b, j⟩).readVal ⟨b, j⟩ = t.valOf n := by
    simp only [readVal, patchAt, List.getElem?_modify_eq, harr, hn, Option.map_eq_map,
      Option.map_some, Option.bind_some, hpv]
    rw [t.read_patchVal _ _ hok', ← t.valOf_norm, t.norm_patchKey, t.valOf_norm]
  rw [entryAt, hkey, hval, t.entryOf_norm, HashConf.entryOf]

end HashT

/-- A callback that visits the entry of its node and leaves the table alone. -/
def visitEntry (visit : σ → κ × Option ν → σ) (t : HashT κ ν) (ref : NodeRef) (arg : σ) :
    HashT κ ν × σ × Int :=
  (t, (match t.entryAt ref with
    | some e => visit arg e
    | none   => arg), 0)

/-- The callback visits the entry that the pointers of its node read, and leaves the table alone. -/
def Visits (func : HashT κ ν → NodeRef → σ → HashT κ ν × σ × Int)
    (visit : σ → κ × Option ν → σ) : Prop :=
  ∀ t ref arg e, t.entryAt ref = some e → func t ref arg = (t, visit arg e, 0)

theorem visits_visitEntry (visit : σ → κ × Option ν → σ) : Visits (visitEntry visit) visit := by
  intro t ref arg e he
  simp only [visitEntry, he]

section
variable {func : HashT κ ν → NodeRef → σ → HashT κ ν × σ × Int} {visit : σ → κ × Option ν → σ}

/-- A walk over a bucket visits its nodes from the last to the first. -/
theorem hashForeachBucket_spec (hfunc : Visits func visit) (b : Nat)
    (xs : List (HashNode κ ν)) :
    ∀ (j : Nat) (t : HashT κ ν) (arg : σ), t.Wf → t.view[b]? = some xs → j ≤ xs.length →
      ∃ s, hashForeachBucket func b j t arg
          = (s, ((xs.take j).reverse.filterMap t.entryOf).foldl visit arg, 0) ∧
        s.toHashConf = t.toHashConf ∧ s.mNodeCount = t.mNodeCount ∧ s.view = t.view := by
  intro j
  induction j with
  | zero => intro t arg _ _ _; exact ⟨t, by simp [hashForeachBucket], rfl, rfl, rfl⟩
  | succ j ih =>
      intro t arg hwf hb hj
      obtain ⟨hconf, hcount, hview⟩ := t.patchAt_spec ⟨b, j⟩
      have hx : xs[j]? = some xs[j] := List.getElem?_eq_getElem (by omega)
      generalize xs[j] = x at hx
      -- A node of a well-formed table has a key, so its pointers read an entry.
      have hnode : x ∈ t.nodes := mem_flatten_of_getElem? hb (List.mem_of_getElem? hx)
      obtain ⟨k, hk, -⟩ := (hwf.node x hnode).key
      have hentry : t.entryOf x = some (k, t.valOf x) := by rw [HashConf.entryOf, hk]; rfl
      have hvisit := hfunc (t.patchAt ⟨b, j⟩) ⟨b, j⟩ arg _
        ((HashT.entryAt_patchAt hwf.placed hb hx).trans hentry)
      obtain ⟨s, hs, hconf', hcount', hview'⟩ := ih (t.patchAt ⟨b, j⟩)
        (visit arg (k, t.valOf x)) (hwf.congr hconf hview hcount) (by rw [hview]; exact hb)
        (by omega)
      refine ⟨s, ?_, hconf'.trans hconf, hcount'.trans hcount, hview'.trans hview⟩
      simp only [hashForeachBucket, hvisit, ne_eq, not_true_eq_false, if_false]
      rw [show ((t.patchAt ⟨b, j⟩).toHashConf) = t.toHashConf from hconf] at hs
      rw [show hashForeachBucket func b j _ _ = _ from hs, List.take_add_one, hx,
        Option.toList_some, List.reverse_append, List.reverse_singleton, List.singleton_append,
        List.filterMap_cons_some hentry, List.foldl_cons]

/-- So does a walk over the buckets from one on. -/
theorem hashForeachFrom_spec (hfunc : Visits func visit) :
    ∀ (n b : Nat) (t : HashT κ ν) (arg : σ), t.Wf → b + n = t.view.length →
      ∃ s, hashForeachFrom func b n t arg
          = (s, (((t.view.drop b).flatMap List.reverse).filterMap t.entryOf).foldl visit arg, 0) ∧
        s.toHashConf = t.toHashConf ∧ s.mNodeCount = t.mNodeCount ∧ s.view = t.view := by
  intro n
  induction n with
  | zero =>
      intro b t arg _ hb
      refine ⟨t, ?_, rfl, rfl, rfl⟩
      rw [List.drop_eq_nil_of_le (by omega)]
      rfl
  | succ n ih =>
      intro b t arg hwf hb
      have hxs : t.view[b]? = some t.view[b] := List.getElem?_eq_getElem (by omega)
      have hdrop : t.view.drop b = t.view[b] :: t.view.drop (b + 1) :=
        List.drop_eq_getElem_cons (by omega)
      generalize t.view[b] = xs at hxs hdrop
      have hcountb : (t.mBucket[b]?.map arrayCount).getD 0 = xs.length := by
        rw [t.getElem?_view] at hxs
        obtain ⟨arr, harr, rfl⟩ := Option.map_eq_some_iff.mp hxs
        simp [harr, arrayCount]
      obtain ⟨s, hs, hconf, hcount, hview⟩ :=
        hashForeachBucket_spec hfunc b xs xs.length t arg hwf hxs le_rfl
      obtain ⟨u, hu, hconf', hcount', hview'⟩ := ih (b + 1) s
        ((xs.reverse.filterMap t.entryOf).foldl visit arg) (hwf.congr hconf hview hcount)
        (by rw [hview]; omega)
      refine ⟨u, ?_, hconf'.trans hconf, hcount'.trans hcount, hview'.trans hview⟩
      rw [List.take_length] at hs
      simp only [hashForeachFrom, hcountb, hs, ne_eq, not_true_eq_false, if_false]
      rw [show hashForeachFrom func (b + 1) n s _ = _ from hu, hdrop, hview, hconf,
        List.flatMap_cons, List.filterMap_append, List.foldl_append]

/-- `hash_foreach` visits every entry exactly once, in some order, and only patches pointers. -/
theorem hashForeach_spec (hfunc : Visits func visit) {t : HashT κ ν} (h : t.Wf) (arg : σ) :
    ∃ (s : HashT κ ν) (l : List (κ × Option ν)),
      hashForeach func t arg = (s, l.foldl visit arg, 0) ∧
      l.Perm t.entries ∧ s.toHashConf = t.toHashConf ∧ s.mNodeCount = t.mNodeCount ∧
      s.view = t.view := by
  obtain ⟨s, hs, hconf, hcount, hview⟩ :=
    hashForeachFrom_spec hfunc t.mBucketCount 0 t arg h (by rw [t.length_view, Nat.zero_add])
  refine ⟨s, _, hs, ?_, hconf, hcount, hview⟩
  rw [List.drop_zero]
  refine List.Perm.filterMap _ ?_
  rw [HashT.nodes_def, ← List.flatMap_id]
  exact List.Perm.flatMap_left _ fun xs _ => List.reverse_perm xs

end

end Bklib
