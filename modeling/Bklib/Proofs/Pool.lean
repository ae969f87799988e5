import Bklib.Model.Pool
import Bklib.Proofs.HashStores

/-!
# `Bklib.Proofs.Pool`: the pool releases every pointer once, and on time

What a pool is for is said by a `Ledger`: for each pointer an account of its own, which counts the
`pool_addref` and `pool_free` calls since the pointer came in and lists its releases. An operation
changes the account of the pointer that it names and no other one.

`PoolT.Keeps` relates a pool to a ledger. Each operation keeps it, so the nodes and the releases
of every run are those of the ledger. The comparison of `hash_cmp_int` cuts the difference of two
pointers to an `int`, but `hash_get` compares the hashes first, and these are the pointers.
-/

set_option autoImplicit false

namespace Bklib

open Bklib.Lib

variable {φ : Type}

/-! ### The ledger -/

/-- A pointer in the pool: the `pool_addref` and `pool_free` calls on it since it came in, and how
it is released. A held pointer has not been freed more often than referenced. -/
structure Held (φ : Type) where
  addrefs : Nat
  frees : Nat
  free : Option φ
  arg : UInt64
  frees_le : frees ≤ addrefs

/-- The references that a held pointer has left. -/
def Held.refs (h : Held φ) : Nat := 1 + h.addrefs - h.frees

/-- The node of a held pointer. -/
def Held.node (ptr : UInt64) (h : Held φ) : PoolNode φ := ⟨ptr, toInt32 h.refs, h.free, h.arg⟩

/-- The account of one pointer. `taken` counts how often it came in, `removed` how often
`pool_remove` took it out. -/
structure Account (φ : Type) where
  held : Option (Held φ)
  released : List (Release φ)
  taken : Nat
  removed : Nat

namespace Account

/-- The account of a pointer that was never in the pool. -/
def empty : Account φ := ⟨none, [], 0, 0⟩

variable (ptr : UInt64) (a : Account φ)

/-- The pointer comes in, with one reference. -/
def take (free : Option φ) (arg : UInt64) : Account φ :=
  { a with held := some ⟨0, 0, free, arg, Nat.le_refl 0⟩, taken := a.taken + 1 }

/-- One more reference. -/
def addref : Account φ :=
  { a with held := a.held.map fun h => ⟨h.addrefs + 1, h.frees, h.free, h.arg, by
      have := h.frees_le
      omega⟩ }

/-- The pointer is released. -/
def close : Account φ :=
  { a with held := none, released := a.released ++ (a.held.map fun h => (h.node ptr).release).toList }

/-- One reference less. The call after as many calls as there were `pool_addref` calls is the last
one: it releases the pointer. -/
def free : Account φ :=
  match a.held with
  | none   => a
  | some h =>
      if hlt : h.frees < h.addrefs then
        { a with held := some ⟨h.addrefs, h.frees + 1, h.free, h.arg, hlt⟩ }
      else a.close ptr

/-- The pointer is taken out. -/
def remove : Account φ :=
  { a with held := none, removed := a.removed + a.held.toList.length }

end Account

/-- One call on a pool. `block` and `copy` are what `calloc` and `strdup` return. -/
inductive PoolOp (φ : Type) where
  | malloc (block : UInt64)
  | strdup (str copy : UInt64)
  | add (ptr : UInt64) (free : Option φ) (arg : UInt64)
  | addref (ptr : UInt64)
  | free (ptr : UInt64)
  | remove (ptr : UInt64)
  | clear

/-- The accounts of all pointers. -/
abbrev Ledger (φ : Type) := UInt64 → Account φ

/-- What a call does to the account of `ptr`. -/
def accountStep (ptr : UInt64) (a : Account φ) : PoolOp φ → Account φ
  | .malloc block    => if block = ptr then a.take none 0 else a
  | .strdup str copy => if str ≠ 0 ∧ copy = ptr then a.take none 0 else a
  | .add p free arg  => if p = ptr then a.take free arg else a
  | .addref p        => if p = ptr then a.addref else a
  | .free p          => if p = ptr then a.free ptr else a
  | .remove p        => if p = ptr then a.remove else a
  | .clear           => a.close ptr

/-- Every call acts on each account by itself. -/
def ledgerStep (l : Ledger φ) (op : PoolOp φ) : Ledger φ := fun ptr => accountStep ptr (l ptr) op

/-- The ledger of a new pool. -/
def Ledger.empty : Ledger φ := fun _ => .empty

/-- The call on the pool. -/
def poolStep (addrOf : Nat → Nat) (pool : PoolT φ) : PoolOp φ → PoolT φ
  | .malloc block     => (poolMalloc addrOf pool block).1
  | .strdup str copy  => (poolStrdup addrOf pool str copy).1
  | .add ptr free arg => (poolAdd addrOf pool ptr free arg).1
  | .addref ptr       => (poolAddref pool ptr).1
  | .free ptr         => poolFree pool ptr
  | .remove ptr       => poolRemove pool ptr
  | .clear            => poolClear pool

/-- What a caller owes: `pool_add` gets a pointer that is not null, and no pointer comes in that
the pool holds. `calloc` and `strdup` may fail. -/
def PoolOp.Valid (l : Ledger φ) : PoolOp φ → Prop
  | .malloc block    => block ≠ 0 → (l block).held = none
  | .strdup str copy => str ≠ 0 → copy ≠ 0 → (l copy).held = none
  | .add ptr _ _     => ptr ≠ 0 ∧ (l ptr).held = none
  | _                => True

/-- The pointer of a `pool_free` has at most `2 ^ 31` references. -/
def PoolOp.Counted (l : Ledger φ) : PoolOp φ → Prop
  | .free ptr => ∀ h, (l ptr).held = some h → h.refs ≤ 2 ^ 31
  | _         => True

/-- The releases of one pointer. -/
def releasesOf (ptr : UInt64) (released : List (Release φ)) : List (Release φ) :=
  released.filter fun r => r.ptr = ptr

/-- What the pool holds for a pointer. -/
def poolNode (pool : PoolT φ) (ptr : UInt64) : Option (PoolNode φ) :=
  (poolFind pool ptr).2.map (·.2)

/-! ### The table of a pool -/

/-- The finite map that the table of a pool stands for. -/
abbrev PoolMap (φ : Type) := KeyMap (keySetoid equivalence_keyEq_int) (Option (PoolNode φ))

/-- The table holds the node `nodes ptr` for each pointer `ptr`, and no other ones. -/
def PoolTable (hash : HashT UInt64 (PoolNode φ)) (nodes : UInt64 → Option (PoolNode φ)) : Prop :=
  ∃ m : PoolMap φ, hash.Models equivalence_keyEq_int m ∧ hash.mValSz ≠ 0 ∧
    ∀ k, m.get k = (nodes k).map (fun n => (k, some n)) ∧ ∀ n, nodes k = some n → n.ptr = k

/-- Such a table stores the nodes, each with its own pointer. -/
theorem poolTable_iff {hash : HashT UInt64 (PoolNode φ)} {nodes : UInt64 → Option (PoolNode φ)} :
    PoolTable hash nodes ↔
      hash.Stores keyClass_int nodes ∧ ∀ k n, nodes k = some n → n.ptr = k := by
  constructor
  · rintro ⟨m, hmodels, hval, hget⟩
    exact ⟨⟨m, hmodels, hval, fun k => (hget k).1⟩, fun k => (hget k).2⟩
  · rintro ⟨⟨m, hmodels, hval, hget⟩, hptr⟩
    exact ⟨m, hmodels, hval, fun k => ⟨hget k, hptr k⟩⟩

/-- A new pool holds nothing. -/
theorem poolTable_new (allocs : Nat) :
    PoolTable { (poolNew : PoolT φ).hash with mAllocs := allocs } fun _ => none := by
  have hmodels : (poolNew : PoolT φ).hash.Models equivalence_keyEq_int KeyMap.empty :=
    (models_hashInit equivalence_keyEq_int 0 poolNodeSize 0).1
  have hwf : ({ (poolNew : PoolT φ).hash with mAllocs := allocs } : HashT _ _).Wf :=
    HashT.Wf.congr (t := (poolNew : PoolT φ).hash) rfl rfl rfl hmodels.wf
  refine ⟨KeyMap.empty, ?_, show poolNodeSize ≠ 0 by decide,
    fun k => ⟨KeyMap.get_empty k, by simp⟩⟩
  exact hmodels.congr hwf rfl fun _ => Iff.rfl

section
variable {hash : HashT UInt64 (PoolNode φ)} {nodes : UInt64 → Option (PoolNode φ)}

/-- `pool_find` finds the node of the pointer, and its place can be written. -/
theorem poolFind_spec {pool : PoolT φ} (h : PoolTable pool.hash nodes) (ptr : UInt64) :
    ∃ s r, poolFind pool ptr = ({ pool with hash := s }, r) ∧ PoolTable s nodes ∧
      r.map (·.2) = nodes ptr ∧ ∀ ref n, r = some (ref, n) → s.Fresh ref ptr := by
  obtain ⟨hstores, hptr⟩ := poolTable_iff.mp h
  obtain ⟨s, r, hs, hstores', hr⟩ := hstores.get ptr
  have htable : PoolTable s nodes := poolTable_iff.mpr ⟨hstores', hptr⟩
  rw [id_eq] at hs
  simp only [poolFind, hs]
  refine ⟨s, _, rfl, htable, ?_⟩
  rcases hr with ⟨rfl, hnone⟩ | ⟨ref, n, rfl, hread, hn, hfresh⟩
  · exact ⟨hnone.symm, by simp⟩
  · rw [Option.bind_some, hread, hn]
    refine ⟨rfl, fun ref' n' hr => ?_⟩
    obtain rfl : ref = ref' := (Prod.mk.inj (Option.some.inj hr)).1
    exact hfresh

/-- The nodes keep their pointers when one of them changes. -/
theorem ptr_eq_of_update (hptr : ∀ k n, nodes k = some n → n.ptr = k) {ptr : UInt64}
    {x : Option (PoolNode φ)} (hx : ∀ n, x = some n → n.ptr = ptr) (k : UInt64) (n : PoolNode φ)
    (hn : Function.update nodes ptr x k = some n) : n.ptr = k := by
  by_cases hk : k = ptr
  · rw [hk, Function.update_self] at hn
    rw [hk, hx n hn]
  · rw [Function.update_of_ne hk] at hn
    exact hptr k n hn

/-- A write through a fresh place changes one node. -/
theorem PoolTable.writeVal (h : PoolTable hash nodes) {ref : NodeRef} {ptr : UInt64}
    (href : hash.Fresh ref ptr) {n : PoolNode φ} (hn : n.ptr = ptr) :
    PoolTable (hash.writeVal ref n) (Function.update nodes ptr (some n)) := by
  obtain ⟨hstores, hptr⟩ := poolTable_iff.mp h
  refine poolTable_iff.mpr ⟨hstores.writeVal href n, ptr_eq_of_update hptr fun n' h' => ?_⟩
  rw [← Option.some.inj h', hn]

theorem PoolTable.remove (h : PoolTable hash nodes) (ptr : UInt64) :
    PoolTable (hashRemove hash ptr) (Function.update nodes ptr none) := by
  obtain ⟨hstores, hptr⟩ := poolTable_iff.mp h
  refine poolTable_iff.mpr ⟨hstores.remove ptr, ptr_eq_of_update hptr fun n' h' => ?_⟩
  exact absurd h' (by simp)

/-- `hash_put` and the node filled in. -/
theorem PoolTable.put (addrOf : Nat → Nat) (h : PoolTable hash nodes) (n : PoolNode φ) :
    ∃ s ref, hashPut addrOf hash n.ptr none = (s, some ref) ∧
      PoolTable (s.writeVal ref n) (Function.update nodes n.ptr (some n)) := by
  obtain ⟨hstores, hptr⟩ := poolTable_iff.mp h
  obtain ⟨s, ref, hs, hwritten⟩ := hstores.put_null addrOf n.ptr n
  refine ⟨s, ref, hs, poolTable_iff.mpr ⟨hwritten, ptr_eq_of_update hptr fun n' h' => ?_⟩⟩
  rw [← Option.some.inj h']

/-- The calls of `pool_foreach_free`. -/
theorem visits_poolForeachFree : Visits (poolForeachFree (φ := φ)) fun released e =>
    released ++ (e.2.map PoolNode.release).toList := by
  intro t ref released e he
  unfold HashT.entryAt at he
  obtain ⟨k, -, rfl⟩ := Option.map_eq_some_iff.mp he
  unfold poolForeachFree
  cases t.readVal ref with
  | none => simp
  | some p => simp

theorem foldl_append_flatMap {α β : Type} (f : α → List β) (xs : List α) :
    ∀ acc : List β, xs.foldl (fun acc x => acc ++ f x) acc = acc ++ xs.flatMap f := by
  induction xs with
  | nil => intro acc; simp
  | cons x xs ih => intro acc; rw [List.foldl_cons, ih, List.flatMap_cons, List.append_assoc]

/-- All nodes are released, each once. -/
theorem poolForeachFree_spec (h : PoolTable hash nodes) (released : List (Release φ)) :
    ∃ s rs, hashForeach poolForeachFree hash released = (s, released ++ rs, 0) ∧
      ∀ ptr, releasesOf ptr rs = ((nodes ptr).map PoolNode.release).toList := by
  obtain ⟨hstores, hptr⟩ := poolTable_iff.mp h
  obtain ⟨s, l, hs, hperm, -⟩ := hashForeach_spec visits_poolForeachFree hstores.wf released
  rw [foldl_append_flatMap, ← List.filterMap_eq_flatMap_toList] at hs
  refine ⟨s, _, hs, fun ptr => ?_⟩
  -- An entry is the node of its key.
  have hentry : ∀ e, e ∈ l ↔ ∃ n, nodes e.1 = some n ∧ e = (e.1, some n) := by
    intro e
    rw [hperm.mem_iff, hstores.mem_entries]
    constructor
    · rintro ⟨k, n, hn, rfl⟩
      exact ⟨n, hn, rfl⟩
    · rintro ⟨n, hn, he⟩
      exact ⟨e.1, n, hn, he⟩
  have hnodup : l.Nodup := (hstores.nodup hperm).of_map _
  have hfilter : releasesOf ptr (l.filterMap fun e => e.2.map PoolNode.release)
      = (l.filter fun e => e.1 = ptr).filterMap fun e => e.2.map PoolNode.release := by
    unfold releasesOf
    rw [List.filter_filterMap, List.filterMap_filter]
    refine List.filterMap_congr fun e he => ?_
    obtain ⟨n, hn, he⟩ := (hentry e).mp he
    have hptr : n.release.ptr = e.1 := by
      rw [← hptr e.1 n hn]
      unfold PoolNode.release
      cases n.free <;> rfl
    rw [he]
    by_cases hp : e.1 = ptr <;> simp [hp, hptr, Option.filter]
  rw [hfilter]
  cases hn : nodes ptr with
  | none =>
      have hnone : (l.filter fun e => e.1 = ptr) = [] := by
        rw [List.filter_eq_nil_iff]
        intro e he hp
        obtain ⟨n, hn', -⟩ := (hentry e).mp he
        rw [of_decide_eq_true hp, hn] at hn'
        exact absurd hn' (by simp)
      rw [hnone]
      rfl
  | some n =>
      have hone : (l.filter fun e => e.1 = ptr) = [(ptr, some n)] := by
        refine List.perm_singleton.mp ((List.perm_ext_iff_of_nodup (hnodup.filter _)
          (List.nodup_singleton _)).mpr fun e => ?_)
        rw [List.mem_filter, List.mem_singleton, decide_eq_true_eq, hentry]
        constructor
        · rintro ⟨⟨n', hn', he⟩, rfl⟩
          rw [hn, Option.some.injEq] at hn'
          rw [he, hn']
        · rintro rfl
          exact ⟨⟨n, hn, rfl⟩, rfl⟩
      rw [hone]
      rfl

/-- The node with one reference less, or none when it was the last one. -/
def PoolNode.freed (n : PoolNode φ) : Option (PoolNode φ) :=
  if toInt32 (n.refcount - 1) ≤ 0 then none
  else some { n with refcount := toInt32 (n.refcount - 1) }

/-- `pool_free` on a pointer: one reference less, and the release when it was the last one. -/
theorem poolFree_spec {pool : PoolT φ} (h : PoolTable pool.hash nodes) {ptr : UInt64}
    (hptr : ptr ≠ 0) :
    ∃ s, PoolTable s (Function.update nodes ptr ((nodes ptr).bind PoolNode.freed)) ∧
      poolFree pool ptr = ⟨s, pool.released ++
        ((nodes ptr).filter fun n => n.freed.isNone).toList.map PoolNode.release⟩ := by
  obtain ⟨s, r, hfind, htable, hr, hfresh⟩ := poolFind_spec h ptr
  rw [poolFree, if_neg hptr, hfind]
  cases r with
  | none =>
      rw [← hr]
      refine ⟨s, ?_, by simp⟩
      rw [Option.map_none] at hr
      have hsame : Function.update nodes ptr none = nodes := by
        rw [hr, Function.update_eq_self]
      rw [Option.map_none, Option.bind_none, hsame]
      exact htable
  | some found =>
      obtain ⟨ref, n⟩ := found
      have hn : nodes ptr = some n := hr.symm
      have hkey : n.ptr = ptr := by
        exact (poolTable_iff.mp h).2 ptr n hn
      have hwrite := htable.writeVal (hfresh ref n rfl)
        (n := { n with refcount := toInt32 (n.refcount - 1) }) hkey
      rw [hn, Option.bind_some]
      by_cases hc : toInt32 (n.refcount - 1) ≤ 0
      · have hfreed : n.freed = none := if_pos hc
        have hremove := hwrite.remove ptr
        rw [Function.update_idem, ← hfreed] at hremove
        refine ⟨_, hremove, (if_pos hc).trans ?_⟩
        simp only [Option.filter, hfreed]
        rfl
      · have hfreed : n.freed = some { n with refcount := toInt32 (n.refcount - 1) } := if_neg hc
        rw [← hfreed] at hwrite
        refine ⟨_, hwrite, (if_neg hc).trans ?_⟩
        simp only [Option.filter, hfreed]
        simp

/-- `pool_addref` on a pointer: one reference more. -/
theorem poolAddref_spec {pool : PoolT φ} (h : PoolTable pool.hash nodes) {ptr : UInt64}
    (hptr : ptr ≠ 0) :
    ∃ s, PoolTable s (Function.update nodes ptr
        ((nodes ptr).map fun n => { n with refcount := toInt32 (n.refcount + 1) })) ∧
      (poolAddref pool ptr).1 = ⟨s, pool.released⟩ := by
  obtain ⟨s, r, hfind, htable, hr, hfresh⟩ := poolFind_spec h ptr
  rw [poolAddref, if_neg hptr, hfind]
  cases r with
  | none =>
      rw [← hr]
      refine ⟨s, ?_, rfl⟩
      rw [Option.map_none] at hr
      have hsame : Function.update nodes ptr none = nodes := by
        rw [hr, Function.update_eq_self]
      rw [Option.map_none, Option.map_none, hsame]
      exact htable
  | some found =>
      obtain ⟨ref, n⟩ := found
      have hn : nodes ptr = some n := hr.symm
      have hkey : n.ptr = ptr := by
        exact (poolTable_iff.mp h).2 ptr n hn
      have hwrite := htable.writeVal (hfresh ref n rfl)
        (n := { n with refcount := toInt32 (n.refcount + 1) }) hkey
      rw [hn]
      exact ⟨_, hwrite, rfl⟩

/-- `pool_add` of a pointer that the pool does not hold. -/
theorem poolAdd_spec (addrOf : Nat → Nat) {pool : PoolT φ} (h : PoolTable pool.hash nodes)
    {ptr : UInt64} (hptr : ptr ≠ 0 → nodes ptr = none) (free : Option φ) (arg : UInt64) :
    ∃ s, PoolTable s (Function.update nodes ptr (some ⟨ptr, 1, free, arg⟩)) ∧
      (poolAdd addrOf pool ptr free arg).1 = ⟨s, pool.released⟩ := by
  -- The `pool_free` in front finds no node.
  obtain ⟨s, hs, hfree⟩ : ∃ s, PoolTable s nodes ∧ poolFree pool ptr = ⟨s, pool.released⟩ := by
    by_cases h0 : ptr = 0
    · exact ⟨pool.hash, h, by rw [poolFree, if_pos h0]⟩
    · obtain ⟨s, hs, hfree⟩ := poolFree_spec h h0
      rw [hptr h0, Option.bind_none, ← hptr h0, Function.update_eq_self] at hs
      refine ⟨s, hs, ?_⟩
      rw [hfree, hptr h0]
      simp
  obtain ⟨t, ref, hput, ht⟩ := hs.put addrOf ⟨ptr, 1, free, arg⟩
  refine ⟨_, ht, ?_⟩
  simp only [poolAdd, hfree, show hashPut addrOf s ptr none = _ from hput]

end

/-! ### The pool keeps the ledger -/

/-- Every tenure of a pointer has ended in one release or in `pool_remove`, or goes on. -/
def Account.Balanced (a : Account φ) : Prop :=
  a.released.length + a.removed + a.held.toList.length = a.taken

/-- The pool holds what the ledger says and has released what it says. -/
def PoolT.Keeps (pool : PoolT φ) (l : Ledger φ) : Prop :=
  ∃ nodes, PoolTable pool.hash nodes ∧ ∀ ptr, ptr ≠ 0 →
    nodes ptr = (l ptr).held.map (Held.node ptr) ∧
      releasesOf ptr pool.released = (l ptr).released ∧ (l ptr).Balanced

/-- The rule for a call on one pointer: its node, its releases and its account change together. -/
theorem PoolT.Keeps.change {nodes : UInt64 → Option (PoolNode φ)} {released : List (Release φ)}
    {l l' : Ledger φ}
    (h : ∀ ptr, ptr ≠ 0 → nodes ptr = (l ptr).held.map (Held.node ptr) ∧
      releasesOf ptr released = (l ptr).released ∧ (l ptr).Balanced)
    {s : HashT UInt64 (PoolNode φ)} {q : UInt64} {x : Option (PoolNode φ)}
    (hs : PoolTable s (Function.update nodes q x)) {rs : List (Release φ)}
    (hrs : ∀ r ∈ rs, r.ptr = q) (hother : ∀ ptr, ptr ≠ q → l' ptr = l ptr)
    (hq : q ≠ 0 → x = (l' q).held.map (Held.node q) ∧ (l' q).released = (l q).released ++ rs ∧
      (l' q).Balanced) :
    PoolT.Keeps ⟨s, released ++ rs⟩ l' := by
  refine ⟨_, hs, fun ptr h0 => ?_⟩
  obtain ⟨hnode, hrel, hbal⟩ := h ptr h0
  by_cases hp : ptr = q
  · subst hp
    obtain ⟨hx, hrel', hbal'⟩ := hq h0
    rw [Function.update_self, hrel', ← hrel]
    refine ⟨hx, ?_, hbal'⟩
    have hall : releasesOf ptr rs = rs :=
      List.filter_eq_self.mpr fun r hr => by simpa using hrs r hr
    unfold releasesOf at hall ⊢
    rw [List.filter_append, hall]
  · rw [Function.update_of_ne hp, hother ptr hp]
    refine ⟨hnode, ?_, hbal⟩
    have hnone : releasesOf ptr rs = [] :=
      List.filter_eq_nil_iff.mpr fun r hr => by simpa [hrs r hr] using fun h => hp h.symm
    unfold releasesOf at hnone hrel ⊢
    rw [List.filter_append, hnone, List.append_nil, hrel]

/-! ### The accounts -/

namespace Account

variable {a : Account φ} {ptr : UInt64}

/-- Taking a pointer keeps the books balanced. -/
theorem Balanced.take (h : a.Balanced) (hnone : a.held = none) (free : Option φ) (arg : UInt64) :
    (a.take free arg).Balanced := by
  unfold Balanced at h ⊢
  rw [hnone] at h
  simp only [Account.take, Option.toList_none, Option.toList_some, List.length_nil,
    List.length_singleton] at h ⊢
  omega

theorem Balanced.addref (h : a.Balanced) : a.addref.Balanced := by
  unfold Balanced at h ⊢
  cases hheld : a.held with
  | none => simpa [Account.addref, hheld] using h
  | some held => simpa [Account.addref, hheld] using h

theorem Balanced.remove (h : a.Balanced) : a.remove.Balanced := by
  unfold Balanced at h ⊢
  simp only [Account.remove, Option.toList_none, List.length_nil]
  omega

/-- Closing keeps the books balanced. -/
theorem Balanced.close (h : a.Balanced) : (a.close ptr).Balanced := by
  unfold Balanced at h ⊢
  cases hheld : a.held with
  | none => simpa [Account.close, hheld] using h
  | some held =>
      simp only [hheld, Option.toList_some, List.length_singleton] at h
      simp only [Account.close, hheld, Option.map_some, Option.toList_some, List.length_append,
        List.length_singleton, Option.toList_none, List.length_nil]
      omega

/-- Freeing keeps the books balanced. -/
theorem Balanced.free (h : a.Balanced) : (a.free ptr).Balanced := by
  unfold Account.free
  cases hheld : a.held with
  | none => exact h
  | some held =>
      dsimp only
      split
      · unfold Balanced at h ⊢
        rw [hheld] at h
        exact h
      · exact h.close

end Account

/-- The node of a pointer that comes in. -/
theorem node_take (a : Account φ) (ptr : UInt64) (free : Option φ) (arg : UInt64) :
    some ⟨ptr, 1, free, arg⟩ = (a.take free arg).held.map (Held.node ptr) := by
  have hone : toInt32 ((1 + 0 - 0 : Nat) : Int) = 1 := by decide
  show _ = some (PoolNode.mk ptr (toInt32 ((1 + 0 - 0 : Nat) : Int)) free arg)
  rw [hone]

/-- `pool_addref` on the node and on the account. -/
theorem node_addref (a : Account φ) (ptr : UInt64) :
    (a.held.map (Held.node ptr)).map (fun n => { n with refcount := toInt32 (n.refcount + 1) })
      = a.addref.held.map (Held.node ptr) := by
  cases hheld : a.held with
  | none => simp [Account.addref, hheld]
  | some h =>
      have hle := h.frees_le
      have hrefs : ((h.refs : Int) + 1) = ((1 + (h.addrefs + 1) - h.frees : Nat) : Int) := by
        unfold Held.refs
        omega
      simp only [Account.addref, hheld, Option.map_some, Held.node, toInt32_succ, hrefs]
      rfl

/-- `pool_free` on the node: it goes when the count, cut to an `int`, is no longer positive. -/
theorem node_freed (h : Held φ) (ptr : UInt64) :
    (h.node ptr).freed =
      if toInt32 ((h.refs : Int) - 1) ≤ 0 then none
      else some { h.node ptr with refcount := toInt32 ((h.refs : Int) - 1) } := by
  unfold PoolNode.freed Held.node
  simp only [toInt32_pred]

/-- `pool_free` on the node and on the account, as long as the count is one. -/
theorem node_free (a : Account φ) (ptr : UInt64) (hc : ∀ h, a.held = some h → h.refs ≤ 2 ^ 31) :
    (a.held.map (Held.node ptr)).bind PoolNode.freed = (a.free ptr).held.map (Held.node ptr) ∧
      (a.free ptr).released = a.released ++
        ((a.held.map (Held.node ptr)).filter fun n => n.freed.isNone).toList.map
          PoolNode.release := by
  cases hheld : a.held with
  | none => simp [Account.free, hheld]
  | some h =>
      have hle := h.frees_le
      have hcount := hc h hheld
      have hself : toInt32 ((h.refs : Int) - 1) = (h.refs : Int) - 1 := by
        unfold Held.refs at hcount ⊢
        exact toInt32_eq_self (by omega) (by omega)
      have hfreed := node_freed h ptr
      rw [hself] at hfreed
      unfold Account.free
      rw [hheld, Option.map_some, Option.bind_some, Option.filter]
      by_cases hlt : h.frees < h.addrefs
      · rw [if_neg (by unfold Held.refs; omega)] at hfreed
        rw [hfreed]
        simp only [dif_pos hlt, Option.map_some]
        refine ⟨?_, by simp⟩
        have hrefs : ((h.refs : Int) - 1) = ((1 + h.addrefs - (h.frees + 1) : Nat) : Int) := by
          unfold Held.refs
          omega
        rw [← hself, hrefs]
        rfl
      · rw [if_pos (by unfold Held.refs; omega)] at hfreed
        rw [hfreed]
        simp [dif_neg hlt, Account.close, hheld]

/-! ### Every run -/

/-- A pointer comes in. -/
theorem poolAdd_keeps (addrOf : Nat → Nat) {pool : PoolT φ} {l l' : Ledger φ} (h : pool.Keeps l)
    {q : UInt64} (hnone : q ≠ 0 → (l q).held = none) (free : Option φ) (arg : UInt64)
    (hl : ∀ ptr, l' ptr = if q = ptr then (l ptr).take free arg else l ptr) :
    (poolAdd addrOf pool q free arg).1.Keeps l' := by
  obtain ⟨nodes, htable, hnodes⟩ := h
  have hnone' : q ≠ 0 → nodes q = none := by
    intro h0
    rw [(hnodes q h0).1, hnone h0]
    rfl
  obtain ⟨s, hs, hadd⟩ := poolAdd_spec addrOf htable hnone' free arg
  rw [hadd, ← List.append_nil pool.released]
  refine PoolT.Keeps.change hnodes hs (by simp) ?_ fun h0 => ?_
  · intro ptr hptr
    rw [hl, if_neg hptr.symm]
  · rw [hl, if_pos rfl]
    exact ⟨node_take _ _ _ _, (List.append_nil _).symm,
      (hnodes q h0).2.2.take (hnone h0) free arg⟩

/-- The step lemma: every call keeps the pool and the ledger together. -/
theorem poolStep_keeps (addrOf : Nat → Nat) {pool : PoolT φ} {l : Ledger φ} (h : pool.Keeps l)
    {op : PoolOp φ} (hvalid : op.Valid l) (hcount : op.Counted l) :
    (poolStep addrOf pool op).Keeps (ledgerStep l op) := by
  cases op with
  | malloc block => exact poolAdd_keeps addrOf h hvalid none 0 fun _ => rfl
  | strdup str copy =>
      by_cases hstr : str = 0
      · -- a null pointer is not copied
        have hsame : ledgerStep l (.strdup str copy) = l :=
          funext fun ptr => if_neg fun hne => hne.1 hstr
        rw [hsame, poolStep, poolStrdup, if_pos hstr]
        exact h
      · rw [poolStep, poolStrdup, if_neg hstr]
        refine poolAdd_keeps addrOf h (hvalid hstr) none 0 fun ptr => ?_
        exact if_congr (by simp [hstr]) rfl rfl
  | add q free arg => exact poolAdd_keeps addrOf h (fun _ => hvalid.2) free arg fun _ => rfl
  | addref q =>
      obtain ⟨nodes, htable, hnodes⟩ := h
      by_cases h0 : q = 0
      · rw [poolStep, poolAddref, if_pos h0]
        refine ⟨nodes, htable, fun ptr hptr => ?_⟩
        rw [show ledgerStep l (.addref q) ptr = l ptr from if_neg fun hq : q = ptr => hptr (hq ▸ h0)]
        exact hnodes ptr hptr
      · obtain ⟨s, hs, hpool⟩ := poolAddref_spec htable h0
        obtain ⟨hnode, -, hbal⟩ := hnodes q h0
        have hq : ledgerStep l (.addref q) q = (l q).addref := if_pos rfl
        rw [poolStep, hpool, ← List.append_nil pool.released]
        refine PoolT.Keeps.change hnodes hs (by simp) (fun ptr hptr => if_neg hptr.symm) ?_
        rw [hq, hnode, node_addref]
        exact fun _ => ⟨rfl, (List.append_nil _).symm, hbal.addref⟩
  | free q =>
      obtain ⟨nodes, htable, hnodes⟩ := h
      by_cases h0 : q = 0
      · rw [poolStep, poolFree, if_pos h0]
        refine ⟨nodes, htable, fun ptr hptr => ?_⟩
        rw [show ledgerStep l (.free q) ptr = l ptr from if_neg fun hq : q = ptr => hptr (hq ▸ h0)]
        exact hnodes ptr hptr
      · obtain ⟨s, hs, hpool⟩ := poolFree_spec htable h0
        obtain ⟨hnode, -, hbal⟩ := hnodes q h0
        obtain ⟨hfreed, hreleased⟩ := node_free (l q) q hcount
        have hq : ledgerStep l (.free q) q = (l q).free q := if_pos rfl
        rw [poolStep, hpool]
        refine PoolT.Keeps.change hnodes hs ?_ (fun ptr hptr => if_neg hptr.symm) ?_
        · intro r hr
          obtain ⟨n, hn, rfl⟩ := List.mem_map.mp hr
          have hn := (Option.filter_eq_some_iff.mp (Option.mem_toList.mp hn)).1
          obtain ⟨m, -, -, hget⟩ := htable
          rw [← (hget q).2 n hn]
          unfold PoolNode.release
          cases n.free <;> rfl
        · rw [hq, hnode]
          exact fun _ => ⟨hfreed, hreleased, hbal.free⟩
  | remove q =>
      obtain ⟨nodes, htable, hnodes⟩ := h
      have hq : ledgerStep l (.remove q) q = (l q).remove := if_pos rfl
      rw [poolStep, poolRemove, ← List.append_nil pool.released]
      refine PoolT.Keeps.change hnodes (htable.remove q) (by simp)
        (fun ptr hptr => if_neg hptr.symm) fun h0 => ?_
      rw [hq]
      exact ⟨rfl, (List.append_nil _).symm, (hnodes q h0).2.2.remove⟩
  | clear =>
      obtain ⟨nodes, htable, hnodes⟩ := h
      -- every node is released once, whatever its count
      obtain ⟨s, rs, hs, hrs⟩ := poolForeachFree_spec htable pool.released
      refine ⟨_, poolTable_new pool.hash.mAllocs, fun ptr h0 => ?_⟩
      obtain ⟨hnode, hrel, hbal⟩ := hnodes ptr h0
      refine ⟨rfl, ?_, hbal.close⟩
      rw [poolStep, poolClear, hs]
      show releasesOf ptr (pool.released ++ rs) = (l ptr).released ++ _
      unfold releasesOf at hrel hrs ⊢
      rw [List.filter_append, hrel, hrs, hnode, Option.map_map]
      rfl

theorem poolNew_keeps : (poolNew : PoolT φ).Keeps Ledger.empty :=
  ⟨fun _ => none, poolTable_new 0, fun _ _ => ⟨rfl, rfl, rfl⟩⟩

/-- After every run the pool holds what the ledger says, and has released what it says. -/
theorem pool_keeps (addrOf : Nat → Nat) {ops : List (PoolOp φ)}
    (hvalid : AllSteps PoolOp.Valid ledgerStep Ledger.empty ops)
    (hcount : AllSteps PoolOp.Counted ledgerStep Ledger.empty ops) :
    (run (poolStep addrOf) poolNew ops).Keeps (run ledgerStep Ledger.empty ops) := by
  have hstep : ∀ (pool : PoolT φ) (l : Ledger φ) (op : PoolOp φ), pool.Keeps l →
      op.Valid l ∧ op.Counted l → (poolStep addrOf pool op).Keeps (ledgerStep l op) :=
    fun _ _ _ h hop => poolStep_keeps addrOf h hop.1 hop.2
  exact run_sim_of_allSteps hstep poolNew_keeps (hvalid.and hcount)

/-- The account of a pointer depends on no other account. -/
theorem run_ledgerStep (ptr : UInt64) (ops : List (PoolOp φ)) :
    ∀ l : Ledger φ, run ledgerStep l ops ptr = run (accountStep ptr) (l ptr) ops := by
  induction ops with
  | nil => intro l; rfl
  | cons op ops ih => intro l; exact ih _

/-- Every pointer is released once for each time that it came in, unless `pool_remove` took it out,
and its releases are those of its own account. -/
theorem pool_releases (addrOf : Nat → Nat) (ops : List (PoolOp φ))
    (hvalid : AllSteps PoolOp.Valid ledgerStep Ledger.empty ops)
    (hcount : AllSteps PoolOp.Counted ledgerStep Ledger.empty ops) (ptr : UInt64)
    (hptr : ptr ≠ 0) :
    let pool := run (poolStep addrOf) poolNew ops
    let account := run (accountStep ptr) Account.empty ops
    poolNode pool ptr = account.held.map (Held.node ptr) ∧
      releasesOf ptr pool.released = account.released ∧
      releasesOf ptr (poolDelete pool) = (account.close ptr).released ∧
      (account.close ptr).released.length + account.removed = account.taken := by
  intro pool account
  obtain ⟨nodes, htable, hnodes⟩ := pool_keeps addrOf hvalid hcount
  obtain ⟨hnode, hrel, hbal⟩ : nodes ptr = account.held.map (Held.node ptr) ∧
      releasesOf ptr pool.released = account.released ∧ account.Balanced := by
    have hkeeps := hnodes ptr hptr
    rw [run_ledgerStep] at hkeeps
    exact hkeeps
  refine ⟨?_, hrel, ?_, ?_⟩
  · obtain ⟨s, r, hfind, -, hr, -⟩ := poolFind_spec htable ptr
    rw [poolNode, hfind, ← hnode]
    exact hr
  · obtain ⟨s, rs, hs, hrs⟩ := poolForeachFree_spec htable pool.released
    rw [poolDelete, hs]
    show releasesOf ptr (pool.released ++ rs) = account.released ++ _
    unfold releasesOf at hrel hrs ⊢
    rw [List.filter_append, hrel, hrs, hnode, Option.map_map]
    rfl
  · have hclose : (account.close ptr).Balanced := hbal.close
    exact hclose

/-- Two pointers whose difference is cut to 0: each is released by its own calls. -/
theorem pool_releases_cut :
    let ops : List (PoolOp Unit) := [.add 4096 (some ()) 7, .malloc 4294971392, .addref 4096,
      .free 4294971392, .free 4096, .malloc 4294971392, .remove 4294971392, .free 4096, .clear]
    let pool := run (poolStep id) poolNew ops
    hashCmpInt 4096 4294971392 = 0 ∧
      releasesOf 4096 pool.released = [.call () 4096 7] ∧
      releasesOf 4294971392 pool.released = [.free 4294971392] := by
  intro ops pool
  have hvalid : AllSteps PoolOp.Valid ledgerStep (Ledger.empty (φ := Unit)) ops :=
    ⟨⟨by decide, rfl⟩, fun _ => rfl, trivial, trivial, trivial, fun _ => rfl, trivial, trivial,
      trivial, trivial⟩
  have hcount : AllSteps PoolOp.Counted ledgerStep (Ledger.empty (φ := Unit)) ops := by
    refine ⟨trivial, trivial, trivial, ?_, ?_, trivial, trivial, ?_, trivial, trivial⟩
    all_goals
      intro h hheld
      rw [← Option.some.inj hheld]
      decide
  obtain ⟨-, hfirst, -⟩ := pool_releases id ops hvalid hcount 4096 (by decide)
  obtain ⟨-, hsecond, -⟩ := pool_releases id ops hvalid hcount 4294971392 (by decide)
  exact ⟨by decide, hfirst, hsecond⟩

/-- A condition that every reference meets is met by all of them. -/
theorem allSteps_addref {P : Ledger φ → PoolOp φ → Prop} {ptr : UInt64}
    (hP : ∀ l, P l (.addref ptr)) (n : Nat) (l : Ledger φ) :
    AllSteps P ledgerStep l (List.replicate n (.addref ptr)) := by
  have hall : AllSteps (fun _ op => op = .addref ptr) ledgerStep l (List.replicate n (.addref ptr)) :=
    allSteps_of_forall_mem fun op hop => List.eq_of_mem_replicate hop
  exact hall.mono fun l op hop => hop ▸ hP l

/-- Many references to one pointer. -/
theorem run_addref (ptr : UInt64) (n : Nat) :
    ∀ (a : Account φ) (h : Held φ), a.held = some h → ∃ h', h'.addrefs = h.addrefs + n ∧
      h'.frees = h.frees ∧
      run (accountStep ptr) a (List.replicate n (.addref ptr)) = { a with held := some h' } := by
  induction n with
  | zero => intro a h hheld; exact ⟨h, rfl, rfl, by rw [← hheld]; rfl⟩
  | succ n ih =>
      intro a h hheld
      have hone : accountStep ptr a (.addref ptr) = a.addref := if_pos rfl
      obtain ⟨h', hadd, hfree, hrun⟩ := ih a.addref ⟨h.addrefs + 1, h.frees, h.free, h.arg, by
        have := h.frees_le
        omega⟩ (by rw [Account.addref, hheld]; rfl)
      refine ⟨h', by rw [hadd]; exact Nat.add_right_comm .., hfree, ?_⟩
      rw [List.replicate_succ, run_cons, hone, hrun]
      rfl

/-- The reference count is an `int`: after `2 ^ 31` more references the first `pool_free` releases
the pointer. -/
theorem pool_releases_overflow :
    ¬∀ ops : List (PoolOp Unit), AllSteps PoolOp.Valid ledgerStep Ledger.empty ops →
      ∀ ptr, ptr ≠ 0 →
        releasesOf ptr (run (poolStep id) poolNew ops).released
          = (run (accountStep ptr) Account.empty ops).released := by
  intro hall
  obtain ⟨n, hn⟩ : ∃ n, n = 2 ^ 31 := ⟨_, rfl⟩
  obtain ⟨ops, hops⟩ : ∃ ops : List (PoolOp Unit),
      ops = .add 1 none 0 :: List.replicate n (.addref 1) := ⟨_, rfl⟩
  have hvalid : AllSteps PoolOp.Valid ledgerStep Ledger.empty ops := by
    rw [hops]
    exact ⟨⟨by decide, rfl⟩, allSteps_addref (fun _ => trivial) n _⟩
  have hcount : AllSteps PoolOp.Counted ledgerStep Ledger.empty ops := by
    rw [hops]
    exact ⟨trivial, allSteps_addref (fun _ => trivial) n _⟩
  have hall' : AllSteps PoolOp.Valid ledgerStep Ledger.empty (ops ++ [.free 1]) := by
    rw [allSteps_append]
    exact ⟨hvalid, trivial, trivial⟩
  have hrel := hall _ hall' 1 (by decide)
  rw [run_append, run_append] at hrel
  -- Up to the last call the pool and the ledger agree: `2 ^ 31 + 1` references are left.
  obtain ⟨nodes, htable, hnodes⟩ := pool_keeps id hvalid hcount
  obtain ⟨h, hadd, hfree, hrun⟩ := run_addref (φ := Unit) 1 n
    (accountStep 1 .empty (.add 1 none 0)) ⟨0, 0, none, 0, Nat.le_refl 0⟩ rfl
  have haccount : run (accountStep 1) Account.empty ops = ⟨some h, [], 1, 0⟩ := by
    rw [hops, run_cons, hrun]
    rfl
  obtain ⟨hnode, hreleased, -⟩ := hnodes 1 (by decide)
  rw [run_ledgerStep] at hnode hreleased
  rw [show Ledger.empty 1 = Account.empty from rfl, haccount] at hnode hreleased
  have hlast : (h.node 1).freed = none := by
    rw [node_freed, Held.refs, hadd, hfree, hn]
    exact if_pos (by decide)
  obtain ⟨s, -, hpool⟩ := poolFree_spec htable (show (1 : UInt64) ≠ 0 by decide)
  rw [run_cons, run_nil, run_cons, run_nil, haccount] at hrel
  have hgo : h.frees < h.addrefs := by
    rw [hadd, hfree, hn]
    decide
  rw [poolStep, hpool, hnode] at hrel
  have hfilter : (Option.map (Held.node 1) (some h)).filter (fun n => n.freed.isNone)
      = some (h.node 1) := by
    rw [Option.map_some, Option.filter, hlast]
    rfl
  rw [hfilter] at hrel
  have hempty : (accountStep 1 (⟨some h, [], 1, 0⟩ : Account Unit) (.free 1)).released = [] := by
    simp [accountStep, Account.free, hgo]
  rw [hempty] at hrel
  have hmem : (h.node 1).release ∈ releasesOf 1
      ((run (poolStep id) poolNew ops).released ++ [(h.node 1).release]) := by
    refine List.mem_filter.mpr ⟨List.mem_append_right _ (List.mem_singleton.mpr rfl), ?_⟩
    unfold PoolNode.release Held.node
    cases h.free <;> rfl
  exact absurd (hrel ▸ hmem) (by simp)

end Bklib
