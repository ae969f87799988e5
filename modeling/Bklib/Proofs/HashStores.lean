import Bklib.Proofs.HashForeach

/-!
# `Bklib.Proofs.HashStores`: a table of embedded values as a function

A user of a table with embedded values looks a node up, writes through `node->node_val`, and frees
the node. `HashT.Stores` says what such a table holds as a function from what the comparison tells
apart: `cls` is what it sees of a key, and `rep c` the key that the user passes for `c`. Each
operation of the table is then an update of the function.
-/

set_option autoImplicit false

namespace Bklib

open Bklib.Lib

variable {κ ν γ : Type} {hash : κ → UInt64} {cmp : κ → κ → Int} {cls : κ → γ} {rep : γ → κ}

/-- The table compares keys by `cls`, and `rep` picks a key for each value of it. -/
structure KeyClass (hash : κ → UInt64) (cmp : κ → κ → Int) (cls : κ → γ) (rep : γ → κ) : Prop where
  key_iff : ∀ k k', keyEq hash cmp k k' ↔ cls k = cls k'
  cls_rep : ∀ c, cls (rep c) = c

theorem KeyClass.equivalence (h : KeyClass hash cmp cls rep) : Equivalence (keyEq hash cmp) where
  refl k := (h.key_iff k k).mpr rfl
  symm hk := (h.key_iff _ _).mpr ((h.key_iff _ _).mp hk).symm
  trans hk hk' := (h.key_iff _ _).mpr (((h.key_iff _ _).mp hk).trans ((h.key_iff _ _).mp hk'))

/-- The keys of a class are those that the table takes for the one of `rep`. -/
theorem KeyClass.rep_iff (h : KeyClass hash cmp cls rep) (k : κ) (c : γ) :
    keySetoid h.equivalence k (rep c) ↔ cls k = c := by
  have hkey := h.key_iff k (rep c)
  rw [h.cls_rep] at hkey
  exact hkey

/-- The map of a table that compares keys by `cls`. -/
abbrev KeyClass.Map (h : KeyClass hash cmp cls rep) (ν : Type) :=
  KeyMap (keySetoid h.equivalence) (Option ν)

/-- The table holds the value `vals c` for each `c`, under the key `rep c`, and no other ones. -/
def HashT.Stores (h : KeyClass hash cmp cls rep) (t : HashT κ ν) (vals : γ → Option ν) : Prop :=
  ∃ m : h.Map ν, t.Models h.equivalence m ∧ t.mValSz ≠ 0 ∧
    ∀ k, m.get k = (vals (cls k)).map fun v => (rep (cls k), some v)

/-! ### Keys that are pointers -/

/-- Pointers are compared by equality: `hash_cmp_int` cuts their difference to an `int`, but
`hash_get` compares the hashes first, and these are the pointers themselves. -/
theorem keyEq_int {k k' : UInt64} : keyEq hashHashInt hashCmpInt k k' ↔ k = k' := by
  constructor
  · exact fun h => h.1
  · rintro rfl
    exact ⟨rfl, by simp [hashCmpInt, natToInt32]⟩

theorem keyClass_int : KeyClass hashHashInt hashCmpInt id id := ⟨fun _ _ => keyEq_int, fun _ => rfl⟩

theorem equivalence_keyEq_int : Equivalence (keyEq hashHashInt hashCmpInt) :=
  keyClass_int.equivalence

/-! ### The operations of the table -/

section
variable {h : KeyClass hash cmp cls rep} {t : HashT κ ν} {vals : γ → Option ν}

theorem stores_hashInit (h : KeyClass hash cmp cls rep) (keySz : Nat) {valSz : Nat}
    (hval : valSz ≠ 0) (buckets : Int) :
    (hashInit hash cmp keySz valSz buckets : HashT κ ν).Stores h fun _ => none :=
  ⟨KeyMap.empty, (models_hashInit h.equivalence keySz valSz buckets).1, hval,
    fun k => KeyMap.get_empty k⟩

/-- `hash_get` finds the node of the key, and its value can be written. -/
theorem HashT.Stores.get (ht : t.Stores h vals) (c : γ) :
    ∃ s r, hashGet t (rep c) = (s, r) ∧ s.Stores h vals ∧
      (r = none ∧ vals c = none ∨
        ∃ ref v, r = some ref ∧ s.readVal ref = some v ∧ vals c = some v ∧ s.Fresh ref (rep c)) := by
  obtain ⟨m, hmodels, hval, hget⟩ := ht
  obtain ⟨s, r, hs, hmodels', hconf, hr⟩ := models_hashGet_fresh hmodels hval (rep c)
  have hstores : s.Stores h vals := ⟨m, hmodels', by rw [hconf]; exact hval, hget⟩
  have hc := hget (rep c)
  rw [h.cls_rep] at hc
  refine ⟨s, r, hs, hstores, ?_⟩
  -- what the map has for the key is what the function has for its class
  rcases hr with ⟨rfl, hnone⟩ | ⟨ref, k, v, rfl, hread, hsome, hfresh⟩
  · rw [hc, Option.map_eq_none_iff] at hnone
    exact Or.inl ⟨rfl, hnone⟩
  · rw [hc] at hsome
    obtain ⟨v', hv', he⟩ := Option.map_eq_some_iff.mp hsome
    obtain ⟨rfl, rfl⟩ := Prod.mk.inj he
    exact Or.inr ⟨ref, v', rfl, hread, hv', hfresh⟩

/-- A write of the value leaves the node where it is, with its key. -/
theorem HashT.Fresh.writeVal {ref : NodeRef} {k : κ} (href : t.Fresh ref k) (v : ν) :
    (t.writeVal ref v).Fresh ref k := by
  obtain ⟨arr, n, harr, hn, hkey, hplace⟩ := href
  let arr' : ArrayT (HashNode κ ν) :=
    { arr with
      elts := arr.elts.modify ref.idx fun n =>
        if n.nodeVal.inPlace arr.mArray ref.idx then { n with valMem := some v } else n }
  refine ⟨arr', { n with valMem := some v }, ?_, ?_, hkey, hplace⟩
  · show (t.mBucket.modify ref.bucket _)[ref.bucket]? = _
    rw [List.getElem?_modify_eq, harr]
    rfl
  · show (arr.elts.modify ref.idx _)[ref.idx]? = _
    rw [List.getElem?_modify_eq, hn]
    exact congrArg some (if_pos hplace)

variable [DecidableEq γ]

/-- The map with one more entry is the function with one more value. -/
theorem KeyClass.get_put (h : KeyClass hash cmp cls rep) {m : h.Map ν}
    (hget : ∀ k, m.get k = (vals (cls k)).map fun v => (rep (cls k), some v)) (c : γ) (v : ν)
    (k : κ) :
    (m.put (rep c) (some v)).get k =
      (Function.update vals c (some v) (cls k)).map fun v => (rep (cls k), some v) := by
  rw [KeyMap.get_put]
  by_cases hk : cls k = c
  · rw [if_pos ((h.rep_iff k c).mpr hk), hk, Function.update_self]
    rfl
  · rw [if_neg fun hrep => hk ((h.rep_iff k c).mp hrep), Function.update_of_ne hk, hget]

/-- A write through a fresh pointer changes one value. -/
theorem HashT.Stores.writeVal (ht : t.Stores h vals) {ref : NodeRef} {c : γ}
    (href : t.Fresh ref (rep c)) (v : ν) :
    (t.writeVal ref v).Stores h (Function.update vals c (some v)) := by
  obtain ⟨m, hmodels, hval, hget⟩ := ht
  exact ⟨_, models_writeVal hmodels hval href v, hval, h.get_put hget c v⟩

/-- `hash_put` of a key without a value: the node is fresh, and the value is what the user then
writes. -/
theorem HashT.Stores.put_null (addrOf : Nat → Nat) (ht : t.Stores h vals) (c : γ) (v : ν) :
    ∃ s ref, hashPut addrOf t (rep c) none = (s, some ref) ∧
      (s.writeVal ref v).Stores h (Function.update vals c (some v)) := by
  obtain ⟨m, hmodels, hval, hget⟩ := ht
  obtain ⟨s, ref, hs, hmodels', hconf, hfresh⟩ :=
    models_hashPut_fresh addrOf hmodels hval (rep c) none
  have hval' : s.mValSz ≠ 0 := by rw [hconf]; exact hval
  refine ⟨s, ref, hs, _, models_writeVal hmodels' hval' hfresh v, hval', fun k => ?_⟩
  have hput := h.get_put hget c v k
  rw [KeyMap.get_put] at hput
  rw [KeyMap.get_put, KeyMap.get_put]
  -- the write replaces the entry without a value, which nothing else has changed
  split at hput
  · rw [if_pos ‹_›]
    exact hput
  · rw [if_neg ‹_›, if_neg ‹_›]
    exact hput

/-- `hash_put` of a key with a value. -/
theorem HashT.Stores.put (addrOf : Nat → Nat) (ht : t.Stores h vals) (c : γ) (v : ν) :
    ∃ s ref, hashPut addrOf t (rep c) (some v) = (s, some ref) ∧ s.readVal ref = some v ∧
      s.Fresh ref (rep c) ∧ s.Stores h (Function.update vals c (some v)) := by
  obtain ⟨m, hmodels, hval, hget⟩ := ht
  obtain ⟨s, ref, hs, hmodels', hconf, hfresh⟩ :=
    models_hashPut_fresh addrOf hmodels hval (rep c) (some v)
  obtain ⟨s', ref', hs', -, hentry⟩ := models_hashPut addrOf hmodels (rep c) (some v)
  rw [hs, Prod.mk.injEq, Option.some.injEq] at hs'
  obtain ⟨rfl, rfl⟩ := hs'
  obtain ⟨k, -, he⟩ := Option.map_eq_some_iff.mp hentry
  exact ⟨s, ref, hs, (Prod.mk.inj he).2, hfresh, _, hmodels', by rw [hconf]; exact hval,
    h.get_put hget c v⟩

/-- The map without an entry is the function without a value. -/
theorem KeyClass.get_del (h : KeyClass hash cmp cls rep) {m : h.Map ν}
    (hget : ∀ k, m.get k = (vals (cls k)).map fun v => (rep (cls k), some v)) (c : γ) (k : κ) :
    (m.del (rep c)).get k =
      (Function.update vals c none (cls k)).map fun v => (rep (cls k), some v) := by
  rw [KeyMap.get_del]
  by_cases hk : cls k = c
  · rw [if_pos ((h.rep_iff k c).mpr hk), hk, Function.update_self]
    rfl
  · rw [if_neg fun hrep => hk ((h.rep_iff k c).mp hrep), Function.update_of_ne hk, hget]

/-- `hash_remove` of a key. -/
theorem HashT.Stores.remove (ht : t.Stores h vals) (c : γ) :
    (hashRemove t (rep c)).Stores h (Function.update vals c none) := by
  obtain ⟨m, hmodels, hval, hget⟩ := ht
  have heq : Equivalence (keyEq t.mHash t.mCmp) := by
    rw [hmodels.hash_eq, hmodels.cmp_eq]
    exact h.equivalence
  have hconf := (hashRemove_spec heq hmodels.wf (rep c)).2.1
  exact ⟨_, models_remove hmodels (rep c), by rw [hconf]; exact hval, h.get_del hget c⟩

/-- `hash_free` of a node that stands for a key. -/
theorem HashT.Stores.free_place (ht : t.Stores h vals) {ref : NodeRef} {x : HashNode κ ν} {c : γ}
    (hx : t.PlaceOf ref x) (hk : t.keyOf x = some (rep c)) :
    (hashFree t (some ref)).Stores h (Function.update vals c none) := by
  obtain ⟨m, hmodels, hval, hget⟩ := ht
  have hconf := toHashConf_hashFree t (some ref)
  exact ⟨_, models_hashFree hmodels hx hk, by rw [hconf]; exact hval, h.get_del hget c⟩

/-- `hash_free` of the node that `hash_get` or `hash_put` found. -/
theorem HashT.Stores.free (ht : t.Stores h vals) {ref : NodeRef} {c : γ}
    (href : t.Fresh ref (rep c)) :
    (hashFree t (some ref)).Stores h (Function.update vals c none) := by
  obtain ⟨x, hx, hk⟩ := href.place
  exact ht.free_place hx hk

end

/-! ### What `hash_foreach` lists -/

section
variable {h : KeyClass hash cmp cls rep} {t : HashT κ ν} {vals : γ → Option ν}

theorem HashT.Stores.wf (ht : t.Stores h vals) : t.Wf := by
  obtain ⟨m, hmodels, -⟩ := ht
  exact hmodels.wf

/-- The entries of the table are the values of the function, under their keys. -/
theorem HashT.Stores.mem_entries (ht : t.Stores h vals) (e : κ × Option ν) :
    e ∈ t.entries ↔ ∃ c v, vals c = some v ∧ e = (rep c, some v) := by
  obtain ⟨m, hmodels, -, hget⟩ := ht
  constructor
  · intro he
    -- an entry is what the map has for its own key
    have hsome := (hmodels.get_iff e.1 e).mpr ⟨he, h.equivalence.refl _⟩
    rw [hget] at hsome
    obtain ⟨v, hv, heq⟩ := Option.map_eq_some_iff.mp hsome
    exact ⟨cls e.1, v, hv, heq.symm⟩
  · rintro ⟨c, v, hv, rfl⟩
    refine ((hmodels.get_iff (rep c) _).mp ?_).1
    rw [hget, h.cls_rep, hv]
    rfl

/-- No two entries are of one class. -/
theorem HashT.Stores.nodup (ht : t.Stores h vals) {l : List (κ × Option ν)}
    (hl : l.Perm t.entries) : (l.map fun e => cls e.1).Nodup := by
  obtain ⟨m, hmodels, -⟩ := ht
  have hdist := (pairwise_ne_perm h.equivalence hl).mpr
    (hmodels.hash_eq ▸ hmodels.cmp_eq ▸ hmodels.wf.distinct)
  exact List.pairwise_map.mpr (hdist.imp fun hne heq => hne ((h.key_iff _ _).mpr heq))

/-- What `hash_get` shows of the table. -/
theorem HashT.Stores.entry (ht : t.Stores h vals) (c : γ) :
    hashGetEntry t (rep c) = (vals c).map fun v => (rep c, some v) := by
  obtain ⟨m, hmodels, -, hget⟩ := ht
  rw [hashGetEntry_eq hmodels, hget, h.cls_rep]

end

end Bklib
