import Bklib.Proofs.HashMap

/-!
# `Bklib.Proofs.HashVal`: writing the embedded value of a node

A user of a table with embedded values keeps no value of its own: it asks `hash_get` or `hash_put`
for a node and writes through `node->node_val`. Both leave a node whose value pointer is fresh
(`HashT.Fresh`), and a write through a fresh pointer is a `put` on the map (`models_writeVal`).
-/

set_option autoImplicit false

namespace Bklib

open Bklib.Lib

variable {κ ν : Type}

/-- The node at `ref` stands for `key`, and its value pointer points to where it is now. -/
def HashT.Fresh (t : HashT κ ν) (ref : NodeRef) (key : κ) : Prop :=
  ∃ arr n, t.mBucket[ref.bucket]? = some arr ∧ arr.elts[ref.idx]? = some n ∧
    t.keyOf n = some key ∧ n.nodeVal.inPlace arr.mArray ref.idx = true

theorem inPlace_patchVal (c : HashConf κ) (hval : c.mValSz ≠ 0) (block idx : Nat)
    (n : HashNode κ ν) : (c.patchVal block idx n).nodeVal.inPlace block idx = true := by
  simp [HashConf.patchVal, hval, NodePtr.inPlace]

/-- The node that the loop of `hash_get` stops at has a fresh value pointer. -/
theorem hashGetScan_inPlace (self : HashT κ ν) (hval : self.mValSz ≠ 0) (key : κ) (h : UInt64) :
    ∀ (n : Nat) (arr : ArrayT (HashNode κ ν)) (i : Nat),
      (hashGetScan self key h arr n).2 = some i →
      ∃ x, (hashGetScan self key h arr n).1.elts[i]? = some x ∧
        x.nodeVal.inPlace (hashGetScan self key h arr n).1.mArray i = true := by
  intro n
  induction n with
  | zero => intro arr i hi; exact absurd hi (by simp [hashGetScan])
  | succ n ih =>
      intro arr i hi
      rw [hashGetScan] at hi ⊢
      cases hx : arr.elts[n]? with
      | none => rw [hx] at hi; exact absurd hi (by simp)
      | some x =>
          have hn : n < arr.elts.length := (List.getElem?_eq_some_iff.mp hx).1
          simp only [hx] at hi ⊢
          split at hi
          · rename_i hhash
            rw [if_pos hhash]
            exact ih arr i hi
          · rename_i hhash
            rw [if_neg hhash]
            split at hi
            · exact ih _ i hi
            · split at hi
              · rename_i hcmp
                rw [if_pos hcmp]
                obtain rfl : n = i := Option.some.inj hi
                refine ⟨_, List.getElem?_set_self (by rw [List.length_set]; exact hn), ?_⟩
                exact inPlace_patchVal self.toHashConf hval _ _ _
              · rename_i hcmp
                rw [if_neg hcmp]
                exact ih _ i hi

section
variable {hash : κ → UInt64} {cmp : κ → κ → Int} {heq : Equivalence (keyEq hash cmp)}

/-- `hash_get` yields a fresh node that holds the entry of the map. -/
theorem models_hashGet_fresh {t : HashT κ ν} {m : KeyMap (keySetoid heq) (Option ν)}
    (h : t.Models heq m) (hval : t.mValSz ≠ 0) (key : κ) :
    ∃ s r, hashGet t key = (s, r) ∧ s.Models heq m ∧ s.toHashConf = t.toHashConf ∧
      (r = none ∧ m.get key = none ∨
        ∃ ref k v, r = some ref ∧ s.readVal ref = v ∧ m.get key = some (k, v) ∧
          s.Fresh ref k) := by
  obtain ⟨s, r, hs, hmodels, hr⟩ := models_hashGet h key
  obtain ⟨s', r', hs', hconf, -, -, -, hsome⟩ := hashGet_spec h.wf.placed key
  obtain ⟨rfl, rfl⟩ := Prod.mk.inj (hs.symm.trans hs')
  refine ⟨s, r, hs, hmodels, hconf, ?_⟩
  rcases hr with hnone | ⟨ref, ⟨k, v⟩, rfl, hentry, hget⟩
  · exact Or.inl hnone
  · obtain ⟨n, hn, -, -, hkey, -⟩ := hsome ref rfl
    obtain ⟨arr, harr, hx⟩ := Option.bind_eq_some_iff.mp hn
    unfold HashT.entryAt at hentry
    obtain ⟨k', hk', he⟩ := Option.map_eq_some_iff.mp hentry
    obtain ⟨rfl, rfl⟩ := Prod.mk.inj he
    refine Or.inr ⟨ref, k', _, rfl, rfl, hget, arr, n, harr, hx, ?_, ?_⟩
    · rw [hconf, ← hkey, hk']
    · -- The place is the one that the loop stopped at.
      have hb := HashT.slot_lt h.wf.pos (t.mHash key)
      have hbucket : t.mBucket[t.slot (t.mHash key)]? = some t.mBucket[t.slot (t.mHash key)] :=
        List.getElem?_eq_getElem hb
      simp only [hashGet, hbucket, Prod.mk.injEq] at hs
      obtain ⟨rfl, hi⟩ := hs
      obtain ⟨i, hscan, rfl⟩ := Option.map_eq_some_iff.mp hi
      obtain ⟨x, hx', hplace⟩ := hashGetScan_inPlace t hval key _ _ _ i hscan
      obtain rfl := Option.some.inj ((List.getElem?_set_self hb).symm.trans harr)
      obtain rfl := Option.some.inj (hx'.symm.trans hx)
      exact hplace

/-- `hash_put` yields a fresh node for its key. -/
theorem models_hashPut_fresh (addrOf : Nat → Nat) {t : HashT κ ν}
    {m : KeyMap (keySetoid heq) (Option ν)} (h : t.Models heq m) (hval : t.mValSz ≠ 0) (key : κ)
    (val : Option ν) :
    ∃ s ref, hashPut addrOf t key val = (s, some ref) ∧ s.Models heq (m.put key val) ∧
      s.toHashConf = t.toHashConf ∧ s.Fresh ref key := by
  obtain ⟨s, ref, hs, hmodels, -⟩ := models_hashPut addrOf h key val
  have hconf : s.toHashConf = t.toHashConf := by
    have heq' : Equivalence (keyEq t.mHash t.mCmp) := by rw [h.hash_eq, h.cmp_eq]; exact heq
    have hput := (hashPut_spec addrOf heq' h.wf key val).2.1
    rwa [hs] at hput
  refine ⟨s, ref, hs, hmodels, hconf, ?_⟩
  -- the new node is the last of its bucket, in the table that `hash_grow` leaves
  unfold hashPut at hs
  have hconf' : (hashGrow addrOf (hashRemove t key)).toHashConf = s.toHashConf := by
    dsimp only at hs
    split at hs
    · exact absurd (congrArg Prod.snd hs) (by simp)
    · split at hs
      · exact absurd (congrArg Prod.snd hs) (by simp)
      · rw [← (Prod.mk.inj hs).1]
  generalize hashGrow addrOf (hashRemove t key) = u at hs hconf'
  dsimp only at hs
  cases harr : u.mBucket[u.slot (u.mHash key)]? with
  | none => rw [harr] at hs; exact absurd (congrArg Prod.snd hs) (by simp)
  | some arr =>
      have hb : u.slot (u.mHash key) < u.mBucket.length := (List.getElem?_eq_some_iff.mp harr).1
      obtain ⟨arr', hadd, helts⟩ := arrayAdd_one HashNode.zero (addrOf u.mAllocs) arr
      simp only [harr, hadd, Prod.mk.injEq, Option.some.injEq] at hs
      obtain ⟨rfl, rfl⟩ := hs
      have hlen : arr.elts.length < arr'.elts.length := by rw [helts]; simp
      have hkey := (hashNewNode_spec u arr'.mArray arr.elts.length key val).2.2
      refine ⟨_, _, List.getElem?_set_self hb, List.getElem?_set_self hlen, ?_, ?_⟩
      · unfold HashConf.entryOf at hkey
        obtain ⟨k, hk, he⟩ := Option.map_eq_some_iff.mp hkey
        obtain rfl := (Prod.mk.inj he).1
        exact hk
      · have hval' : u.mValSz ≠ 0 := by rw [hconf', hconf]; exact hval
        simp [hashNewNode, hval', NodePtr.inPlace]

/-- A write through a fresh pointer stores the value for the key of the node. -/
theorem models_writeVal {t : HashT κ ν} {m : KeyMap (keySetoid heq) (Option ν)}
    (h : t.Models heq m) (hval : t.mValSz ≠ 0) {ref : NodeRef} {key : κ} (href : t.Fresh ref key)
    (v : ν) : (t.writeVal ref v).Models heq (m.put key (some v)) := by
  obtain ⟨arr, n, harr, hn, hkey, hplace⟩ := href
  have hwf := h.wf
  have heq' : Equivalence (keyEq t.mHash t.mCmp) := by rw [h.hash_eq, h.cmp_eq]; exact heq
  obtain ⟨s, hs⟩ : ∃ s, t.writeVal ref v = s := ⟨_, rfl⟩
  obtain ⟨n', hn'⟩ : ∃ n', { n with valMem := some v } = n' := ⟨_, rfl⟩
  have hconf : s.toHashConf = t.toHashConf := by rw [← hs]; rfl
  have hbuckets : s.mBucketCount = t.mBucketCount := by rw [← hs]; exact List.length_modify ..
  have hok : t.NodeOk n := hwf.placed.nodeOk_of_mem harr (List.mem_of_getElem? hn)
  have hok' : t.NodeOk n' := by
    subst hn'
    exact ⟨hok.key, fun h0 => absurd h0 hval⟩
  have hentry' : t.entryOf (t.norm n') = some (key, some v) := by
    rw [t.entryOf_norm]
    subst hn'
    simp only [HashConf.entryOf, HashConf.valOf, if_pos hval]
    show (t.keyOf n).map _ = _
    rw [hkey]
    rfl
  have hentry : t.entryOf (t.norm n) = some (key, t.valOf n) := by
    rw [t.entryOf_norm, HashConf.entryOf, hkey]
    rfl
  -- The view: one node changes in its place.
  have hview : s.view = t.view.modify ref.bucket (·.set ref.idx (t.norm n')) := by
    rw [← hs]
    refine t.view_modify ref.bucket _ _ fun arr' harr' => ?_
    obtain rfl : arr = arr' := Option.some.inj (harr.symm.trans harr')
    have hmodify : arr.elts.modify ref.idx
        (fun n => if n.nodeVal.inPlace arr.mArray ref.idx then { n with valMem := some v } else n)
        = arr.elts.set ref.idx n' := by
      rw [List.modify_eq_set_getElem?, hn]
      simp only [Option.map_eq_map, Option.map_some, Option.getD_some, if_pos hplace, hn']
    show (arr.elts.modify _ _).map _ = _
    rw [hmodify, List.map_set]
  have hbucket : t.view[ref.bucket]? = some (arr.elts.map t.norm) := by
    rw [t.getElem?_view, harr]
    rfl
  have helt : (arr.elts.map t.norm)[ref.idx]? = some (t.norm n) := by
    rw [List.getElem?_map, hn]
    rfl
  have hold := perm_flatten_modify_eraseIdx _ _ _ _ _ hbucket helt
  have hnew := perm_flatten_modify_set hbucket helt (t.norm n')
  rw [← hview] at hnew
  have hentries := hold.filterMap t.entryOf
  have hentries' := hnew.filterMap t.entryOf
  rw [List.filterMap_cons_some hentry] at hentries
  rw [List.filterMap_cons_some hentry'] at hentries'
  have hslot : s.slot = t.slot := by
    funext x
    unfold HashT.slot
    rw [hbuckets]
  have hdist := (pairwise_ne_perm heq' hentries).mpr hwf.distinct
  have hmem : ∀ e, e ∈ s.entries ↔
      e = (key, some v) ∨ e ∈ t.entries ∧ ¬keyEq t.mHash t.mCmp key e.1 := by
    intro e
    rw [HashT.entries, hconf, HashT.nodes_def, ← hentries'.mem_iff, HashT.entries, HashT.nodes_def,
      ← hentries.mem_iff, List.mem_cons, List.mem_cons]
    constructor
    · rintro (he | he)
      · exact Or.inl he
      · exact Or.inr ⟨Or.inr he, (List.pairwise_cons.mp hdist).1 e he⟩
    · rintro (he | ⟨rfl | he, hne⟩)
      · exact Or.inl he
      · exact absurd (heq'.refl key) hne
      · exact Or.inr he
  have hwf' : s.Wf := by
    refine ⟨?_, ?_, ?_, ?_, ?_⟩
    · rw [hbuckets]
      exact hwf.pos
    · rw [hslot, hview]
      refine hwf.slot.modify_set ?_
      have hb : t.slot (t.norm n).nodeHash = ref.bucket :=
        hwf.slot _ _ hbucket _ (List.mem_of_getElem? helt)
      show t.slot (t.norm n').nodeHash = _
      rw [t.norm_nodeHash] at hb ⊢
      rw [← hb, ← hn']
    · intro x hx
      rw [hconf]
      rcases List.mem_cons.mp (hnew.mem_iff.mpr hx) with rfl | hx
      · exact t.nodeOk_norm.mpr hok'
      · exact hwf.node x (hold.mem_iff.mp (List.mem_cons_of_mem _ hx))
    · rw [hconf]
      have hpairs := List.pairwise_cons.mp hdist
      unfold HashT.entries
      rw [hconf, HashT.nodes_def, ← pairwise_ne_perm heq' hentries', List.pairwise_cons]
      exact hpairs
    · have hcount := hwf.count
      have hlen := hold.length_eq
      have hlen' := hnew.length_eq
      rw [List.length_cons] at hlen hlen'
      show s.mNodeCount = (s.view.flatten.length : Int)
      rw [← hlen', hlen, ← hs]
      exact hcount
  rw [hs]
  exact h.put hwf' hconf hmem

end

end Bklib
