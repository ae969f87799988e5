import Bklib.Lib.Protocol
import Bklib.Proofs.Pool

/-!
# `Bklib.Proofs.PoolHeap`: a pool and the blocks of the heap

The heap is the set of blocks that are allocated. Releasing a block that is not allocated is an error,
and a run goes on only as long as there is none. The allocator gives blocks that are not allocated, and
`realloc` moves a block.

Each call keeps that all pointers of the pool are allocated (`PoolHeap.Sound`), so that no call
releases a block twice. What a call does to the other blocks is one of three things: it settles
pointers, which are then neither held nor allocated (`Settles`), it takes a block in (`TakesIn`), or it
moves one. From this follows that nothing is left behind and nothing else is released
(`pool_heap`).
-/

set_option autoImplicit false

namespace Bklib

open Lib

variable {φ : Type}

/-! ## The heap -/

/-- The blocks that are allocated. -/
abbrev Heap := UInt64 → Bool

/-- `free`: a null pointer is passed over, any other pointer is a block that is allocated. -/
def Heap.free (heap : Heap) (ptr : UInt64) : Option Heap :=
  if ptr = 0 then some heap
  else if heap ptr then some (Function.update heap ptr false) else none

/-- Releases, one after the other. -/
def Heap.release (heap : Heap) : List (Release φ) → Option Heap
  | []      => some heap
  | r :: rs => (heap.free r.ptr).bind fun heap => heap.release rs

/-- A block comes in, unless the allocator has none. -/
def Heap.alloc (heap : Heap) (block : UInt64) : Heap :=
  if block = 0 then heap else Function.update heap block true

/-- What the allocator may give. -/
def Heap.Fresh (heap : Heap) (block : UInt64) : Prop := block = 0 ∨ heap block = false

/-- `realloc`: the block is left where there is no other one. -/
def Heap.realloc (heap : Heap) (ptr block : UInt64) : Option Heap :=
  if block = 0 then some heap else (heap.free ptr).map fun heap => heap.alloc block

/-- Where each pointer is released once at most, and only if it is allocated, all can be released. -/
theorem Heap.release_eq (rs : List (Release φ)) : ∀ {heap : Heap},
    (∀ ptr, ptr ≠ 0 → (releasesOf ptr rs).length ≤ 1 ∧ (releasesOf ptr rs ≠ [] → heap ptr = true)) →
    ∃ heap', heap.release rs = some heap' ∧
      ∀ ptr, ptr ≠ 0 → heap' ptr = (heap ptr && (releasesOf ptr rs).isEmpty) := by
  induction rs with
  | nil => intro heap _; exact ⟨heap, rfl, fun ptr _ => by simp [releasesOf]⟩
  | cons r rs ih =>
      intro heap hone
      by_cases hzero : r.ptr = 0
      · have hskip : ∀ ptr, ptr ≠ 0 → releasesOf ptr (r :: rs) = releasesOf ptr rs := by
          intro ptr hptr
          have hne : ¬ r.ptr = ptr := fun h => hptr (h.symm.trans hzero)
          rw [releasesOf, List.filter_cons_of_neg (by simpa using hne), releasesOf]
        obtain ⟨heap', hrelease, hheap'⟩ := ih (fun ptr hptr => by
          rw [← hskip ptr hptr]
          exact hone ptr hptr)
        refine ⟨heap', ?_, fun ptr hptr => ?_⟩
        · rw [release, free, if_pos hzero]
          exact hrelease
        · rw [hheap' ptr hptr, hskip ptr hptr]
      · have hself : releasesOf r.ptr (r :: rs) = r :: releasesOf r.ptr rs := by
          rw [releasesOf, List.filter_cons_of_pos (by simp), releasesOf]
        obtain ⟨hlength, hlive⟩ := hone r.ptr hzero
        rw [hself] at hlength hlive
        -- The pointer does not come again.
        have hlast : releasesOf r.ptr rs = [] := by
          rw [List.length_cons] at hlength
          exact List.length_eq_zero_iff.mp (by omega)
        have hother : ∀ ptr, ptr ≠ r.ptr → releasesOf ptr (r :: rs) = releasesOf ptr rs := by
          intro ptr hne
          rw [releasesOf, List.filter_cons_of_neg (by simpa using hne.symm), releasesOf]
        obtain ⟨heap', hrelease, hheap'⟩ := @ih (Function.update heap r.ptr false) (fun ptr hptr => by
          by_cases hne : ptr = r.ptr
          · rw [hne, hlast]
            exact ⟨Nat.zero_le _, fun h => absurd rfl h⟩
          · rw [← hother ptr hne, Function.update_of_ne hne]
            exact hone ptr hptr)
        refine ⟨heap', ?_, fun ptr hptr => ?_⟩
        · rw [release, free, if_neg hzero, if_pos (hlive (List.cons_ne_nil _ _))]
          exact hrelease
        · rw [hheap' ptr hptr]
          by_cases hne : ptr = r.ptr
          · rw [hne, Function.update_self, hself, Bool.false_and, List.isEmpty_cons, Bool.and_false]
          · rw [Function.update_of_ne hne, hother ptr hne]

/-! ## Calls -/

/-- A pool and the heap. -/
structure PoolHeap (φ : Type) where
  pool : PoolT φ
  heap : Heap

/-- The pool goes on to `pool`, and what it has released on the way is released. -/
def PoolHeap.go (s : PoolHeap φ) (pool : PoolT φ) : Option (PoolHeap φ) :=
  (s.heap.release (pool.released.drop s.pool.released.length)).map fun heap => ⟨pool, heap⟩

/-- One call on a pool. `block` and `copy` are what the allocator returns. -/
inductive PoolCall (φ : Type) where
  | malloc (block : UInt64)
  | strdup (str copy : UInt64)
  | memdup (str block : UInt64)
  | add (ptr : UInt64) (free : Option φ) (arg : UInt64)
  | realloc (ptr block : UInt64)
  | copyStr (dst str copy : UInt64)
  | copyBuf (dst block : UInt64)
  | addref (ptr : UInt64)
  | free (ptr : UInt64)
  | clear

/-- What the allocator and the caller promise. The block of `pool_copy_buf` is allocated behind a
release. -/
def PoolCall.Honest (s : PoolHeap φ) : PoolCall φ → Prop
  | .malloc block => s.heap.Fresh block
  | .strdup str copy => str ≠ 0 → s.heap.Fresh copy
  | .memdup str block => str ≠ 0 → s.heap.Fresh block
  | .add ptr _ _ => ptr ≠ 0 ∧ s.heap ptr = true ∧ poolNode s.pool ptr = none
  | .realloc ptr block => (ptr = 0 ∨ s.heap ptr = true) ∧ (block = ptr ∨ s.heap.Fresh block)
  | .copyStr _ str copy => str ≠ 0 → s.heap.Fresh copy
  | .copyBuf dst block => ∀ s', s.go (poolFree s.pool dst) = some s' → s'.heap.Fresh block
  | _ => True

instance (heap : Heap) (block : UInt64) : Decidable (heap.Fresh block) :=
  inferInstanceAs (Decidable (block = 0 ∨ heap block = false))

instance (s : PoolHeap Unit) : (call : PoolCall Unit) → Decidable (call.Honest s)
  | .malloc block => inferInstanceAs (Decidable (s.heap.Fresh block))
  | .strdup str copy => inferInstanceAs (Decidable (str ≠ 0 → s.heap.Fresh copy))
  | .memdup str block => inferInstanceAs (Decidable (str ≠ 0 → s.heap.Fresh block))
  | .add ptr _ _ =>
      inferInstanceAs (Decidable (ptr ≠ 0 ∧ s.heap ptr = true ∧ poolNode s.pool ptr = none))
  | .realloc ptr block => inferInstanceAs
      (Decidable ((ptr = 0 ∨ s.heap ptr = true) ∧ (block = ptr ∨ s.heap.Fresh block)))
  | .copyStr _ str copy => inferInstanceAs (Decidable (str ≠ 0 → s.heap.Fresh copy))
  | .copyBuf dst block =>
      inferInstanceAs (Decidable (∀ s' ∈ s.go (poolFree s.pool dst), s'.heap.Fresh block))
  | .addref _ => .isTrue trivial
  | .free _ => .isTrue trivial
  | .clear => .isTrue trivial

section Steps

variable {heap heap' : Heap} {nodes nodes' : UInt64 → Option (PoolNode φ)} {s s' : PoolHeap φ}

/-- The pool holds the pointers of `nodes`, and all of them are allocated. -/
structure PoolHeap.Sound (s : PoolHeap φ) (nodes : UInt64 → Option (PoolNode φ)) : Prop where
  table : PoolTable s.pool.hash nodes
  live  : ∀ ptr, ptr ≠ 0 → nodes ptr ≠ none → s.heap ptr = true

/-- Each block that is allocated was so in `heap₀`, or is held. -/
def NoLeak (heap₀ heap : Heap) (nodes : UInt64 → Option (PoolNode φ)) : Prop :=
  ∀ ptr, ptr ≠ 0 → heap ptr = true → heap₀ ptr = true ∨ nodes ptr ≠ none

/-- A block that is allocated, and not held. -/
def Apart (ptr : UInt64) (heap : Heap) (nodes : UInt64 → Option (PoolNode φ)) : Prop :=
  heap ptr = true ∧ nodes ptr = none

/-- What a call, or a part of it, does. If it is `ok`, nothing is left behind. What is not among its
`takes` and is apart stays so. -/
structure Carried (s s' : PoolHeap φ) (nodes nodes' : UInt64 → Option (PoolNode φ)) (ok : Prop)
    (takes : UInt64 → Prop) : Prop where
  sound : s'.Sound nodes'
  kept  : ok → ∀ heap₀, NoLeak heap₀ s.heap nodes → NoLeak heap₀ s'.heap nodes'
  apart : ∀ ptr, ptr ≠ 0 → ¬ takes ptr → Apart ptr s.heap nodes → Apart ptr s'.heap nodes'

/-- What two steps carry, they carry together. -/
theorem Carried.trans {s₁ s₂ s₃ : PoolHeap φ} {nodes₁ nodes₂ nodes₃ : UInt64 → Option (PoolNode φ)}
    {ok : Prop} {takes : UInt64 → Prop} (h : Carried s₁ s₂ nodes₁ nodes₂ ok takes)
    (h' : Carried s₂ s₃ nodes₂ nodes₃ ok takes) : Carried s₁ s₃ nodes₁ nodes₃ ok takes where
  sound := h'.sound
  kept hok heap₀ hkept := h'.kept hok heap₀ (h.kept hok heap₀ hkept)
  apart ptr hptr htakes hapart := h'.apart ptr hptr htakes (h.apart ptr hptr htakes hapart)

/-! ### Pointers that are settled -/

/-- The releases `rs` are those of the pointers that are held before and not behind. -/
def Released (nodes nodes' : UInt64 → Option (PoolNode φ)) (rs : List (Release φ)) : Prop :=
  ∀ ptr, ptr ≠ 0 → releasesOf ptr rs = [] ∧ (nodes' ptr = none ↔ nodes ptr = none) ∨
    (releasesOf ptr rs).length = 1 ∧ nodes ptr ≠ none ∧ nodes' ptr = none

/-- A pool goes on with releases of its own pointers only. -/
theorem PoolHeap.Sound.go (h : s.Sound nodes) (pool : PoolT φ) {rs : List (Release φ)}
    (htable : PoolTable pool.hash nodes') (hreleased : pool.released = s.pool.released ++ rs)
    (hrs : Released nodes nodes' rs) (ok : Prop) (takes : UInt64 → Prop) :
    ∃ s', s.go pool = some s' ∧ s'.pool = pool ∧ Carried s s' nodes nodes' ok takes := by
  have hdrop : pool.released.drop s.pool.released.length = rs := by rw [hreleased, List.drop_left]
  have honce : ∀ ptr, ptr ≠ 0 →
      (releasesOf ptr rs).length ≤ 1 ∧ (releasesOf ptr rs ≠ [] → s.heap ptr = true) := by
    intro ptr hptr
    rcases hrs ptr hptr with ⟨hnone, -⟩ | ⟨hone, hheld, -⟩
    · rw [hnone]
      exact ⟨Nat.zero_le _, fun h => absurd rfl h⟩
    · exact ⟨Nat.le_of_eq hone, fun _ => h.live ptr hptr hheld⟩
  obtain ⟨heap', hrelease, hheap'⟩ := Heap.release_eq rs honce
  have hsettles : ∀ ptr, ptr ≠ 0 → heap' ptr = s.heap ptr ∧ (nodes' ptr = none ↔ nodes ptr = none) ∨
      heap' ptr = false ∧ nodes ptr ≠ none ∧ nodes' ptr = none := by
    intro ptr hptr
    rw [hheap' ptr hptr]
    rcases hrs ptr hptr with ⟨hnone, hsame⟩ | ⟨hone, hheld⟩
    · rw [hnone, List.isEmpty_nil, Bool.and_true]
      exact Or.inl ⟨rfl, hsame⟩
    · have hne : (releasesOf ptr rs).isEmpty = false := by
        rw [List.isEmpty_eq_false_iff, ← List.length_pos_iff, hone]
        exact Nat.one_pos
      rw [hne, Bool.and_false]
      exact Or.inr ⟨rfl, hheld⟩
  refine ⟨⟨pool, heap'⟩, by rw [PoolHeap.go, hdrop, hrelease]; rfl, rfl, ⟨htable, ?_⟩, ?_, ?_⟩
  · intro ptr hptr hheld
    rcases hsettles ptr hptr with ⟨hsame, hiff⟩ | ⟨-, -, hgone⟩
    · exact hsame.trans (h.live ptr hptr fun hnone => hheld (hiff.mpr hnone))
    · exact absurd hgone hheld
  · intro _ heap₀ hkept ptr hptr hlive
    rcases hsettles ptr hptr with ⟨hsame, hiff⟩ | ⟨hfreed, -⟩
    · exact (hkept ptr hptr (hsame.symm.trans hlive)).imp_right
        fun hheld hnone => hheld (hiff.mp hnone)
    · exact absurd (hfreed.symm.trans hlive) Bool.false_ne_true
  · rintro ptr hptr - ⟨hlive, hnone⟩
    rcases hsettles ptr hptr with ⟨hsame, hiff⟩ | ⟨-, hheld, -⟩
    · exact ⟨hsame.trans hlive, hiff.mpr hnone⟩
    · exact absurd hnone hheld

/-- `pool_free`. -/
theorem PoolHeap.Sound.free (h : s.Sound nodes) (ptr : UInt64) (ok : Prop) (takes : UInt64 → Prop) :
    ∃ s' nodes', s.go (poolFree s.pool ptr) = some s' ∧ s'.pool = poolFree s.pool ptr ∧
      Carried s s' nodes nodes' ok takes := by
  by_cases hzero : ptr = 0
  · have hsame : poolFree s.pool ptr = s.pool := if_pos hzero
    have hquiet : Released nodes nodes [] := fun _ _ => Or.inl ⟨rfl, Iff.rfl⟩
    obtain ⟨s', hs'⟩ := h.go s.pool h.table (List.append_nil _).symm hquiet ok takes
    rw [hsame]
    exact ⟨s', nodes, hs'⟩
  · obtain ⟨hash, htable, hfree⟩ := poolFree_spec h.table hzero
    have hkey := (poolTable_iff.mp h.table).2 ptr
    have hrs : Released nodes (Function.update nodes ptr ((nodes ptr).bind PoolNode.freed))
        (((nodes ptr).filter fun n => n.freed.isNone).toList.map PoolNode.release) := by
      intro q hq
      by_cases hne : q = ptr
      · rw [hne, Function.update_self]
        cases hnode : nodes ptr with
        | none => exact Or.inl ⟨rfl, Iff.rfl⟩
        | some n =>
            have hptr : n.release.ptr = ptr := by
              rw [← hkey n hnode]
              unfold PoolNode.release
              cases n.free <;> rfl
            cases hfreed : n.freed with
            | none =>
                refine Or.inr ⟨?_, Option.some_ne_none n, hfreed⟩
                simp [Option.filter, hfreed, releasesOf, hptr]
            | some n' =>
                refine Or.inl ⟨?_, by simp [hfreed]⟩
                simp [Option.filter, hfreed, releasesOf]
      · rw [Function.update_of_ne hne]
        refine Or.inl ⟨?_, Iff.rfl⟩
        rw [releasesOf, List.filter_eq_nil_iff]
        intro r hr
        obtain ⟨n, hn, rfl⟩ := List.mem_map.mp hr
        have hnode : nodes ptr = some n := (Option.filter_eq_some_iff.mp (Option.mem_toList.mp hn)).1
        have hptr : n.release.ptr = ptr := by
          rw [← hkey n hnode]
          unfold PoolNode.release
          cases n.free <;> rfl
        rw [hptr]
        simpa using fun heq : ptr = q => hne heq.symm
    rw [hfree]
    obtain ⟨s', hs'⟩ := h.go ⟨hash, _⟩ htable rfl hrs ok takes
    exact ⟨s', _, hs'⟩

/-! ### Pointers that come in -/

/-- A pool that releases nothing. -/
theorem PoolHeap.go_quiet {pool : PoolT φ} (h : pool.released = s.pool.released) :
    s.go pool = some ⟨pool, s.heap⟩ := by
  rw [go, h, List.drop_length]
  rfl

theorem Heap.alloc_self {block : UInt64} (h : block ≠ 0) : heap.alloc block block = true := by
  rw [alloc, if_neg h, Function.update_self]

/-- An allocation adds its own block only. -/
theorem Heap.alloc_other {block ptr : UInt64} (h : ptr ≠ block) :
    heap.alloc block ptr = heap ptr := by
  unfold alloc
  split
  · rfl
  · exact Function.update_of_ne h ..

/-- A block that the allocator may give is not held. -/
theorem PoolHeap.Sound.fresh (h : s.Sound nodes) {block : UInt64} (hfresh : s.heap.Fresh block) :
    block ≠ 0 → nodes block = none := by
  intro hne
  rcases hfresh with hzero | hfalse
  · exact absurd hzero hne
  · cases hnode : nodes block with
    | none => rfl
    | some n =>
        have hlive := h.live block hne (by rw [hnode]; exact Option.some_ne_none n)
        exact absurd (hfalse.symm.trans hlive) Bool.false_ne_true

/-- Freeing takes the pointer off the heap and no other. -/
theorem Heap.free_eq {ptr : UInt64} (h : ptr = 0 ∨ heap ptr = true) :
    ∃ heap₁, heap.free ptr = some heap₁ ∧ (∀ p, p ≠ ptr → heap₁ p = heap p) ∧
      (ptr ≠ 0 → heap₁ ptr = false) := by
  by_cases hzero : ptr = 0
  · exact ⟨heap, if_pos hzero, fun _ _ => rfl, fun hne => absurd hzero hne⟩
  · have hlive := h.resolve_left hzero
    refine ⟨Function.update heap ptr false, by rw [free, if_neg hzero, if_pos hlive], ?_, ?_⟩
    · exact fun p hp => Function.update_of_ne hp ..
    · exact fun _ => Function.update_self ..

/-- `pool_add` of a new block. -/
theorem PoolHeap.Sound.alloc (addrOf : Nat → Nat) (h : s.Sound nodes) {block : UInt64}
    (hfresh : s.heap.Fresh block) (ok : Prop) (takes : UInt64 → Prop) :
    ∃ nodes', (poolAdd addrOf s.pool block none 0).1.released = s.pool.released ∧
      Carried s ⟨(poolAdd addrOf s.pool block none 0).1, s.heap.alloc block⟩ nodes nodes' ok takes := by
  obtain ⟨hash, htable, hadd⟩ := poolAdd_spec addrOf h.table (h.fresh hfresh) none 0
  rw [hadd]
  refine ⟨_, rfl, ⟨htable, ?_⟩, ?_, ?_⟩
  · intro ptr hptr hheld
    by_cases hne : ptr = block
    · rw [hne]
      exact Heap.alloc_self (hne ▸ hptr)
    · rw [Function.update_of_ne hne] at hheld
      exact (Heap.alloc_other hne).trans (h.live ptr hptr hheld)
  · intro _ heap₀ hkept ptr hptr hlive
    by_cases hne : ptr = block
    · rw [hne, Function.update_self]
      exact Or.inr (Option.some_ne_none _)
    · rw [Function.update_of_ne hne]
      exact hkept ptr hptr ((Heap.alloc_other hne).symm.trans hlive)
  · rintro ptr hptr - ⟨hlive, hnone⟩
    have hne : ptr ≠ block := by
      intro heq
      rcases hfresh with hzero | hfalse
      · exact hptr (heq.trans hzero)
      · exact absurd (hfalse.symm.trans (heq ▸ hlive)) Bool.false_ne_true
    exact ⟨(Heap.alloc_other hne).trans hlive, (Function.update_of_ne hne ..).trans hnone⟩

/-- `pool_add` of a block of the caller. -/
theorem PoolHeap.Sound.add (addrOf : Nat → Nat) (h : s.Sound nodes) {block : UInt64}
    (hlive : s.heap block = true) (hnone : nodes block = none) (free : Option φ) (arg : UInt64)
    (ok : Prop) {takes : UInt64 → Prop} (htakes : takes block) :
    ∃ s' nodes', s.go (poolAdd addrOf s.pool block free arg).1 = some s' ∧
      Carried s s' nodes nodes' ok takes := by
  obtain ⟨hash, htable, hadd⟩ := poolAdd_spec addrOf h.table (fun _ => hnone) free arg
  rw [hadd]
  refine ⟨_, _, PoolHeap.go_quiet rfl, ⟨htable, ?_⟩, ?_, ?_⟩
  · intro ptr hptr hheld
    by_cases hne : ptr = block
    · exact hne ▸ hlive
    · rw [Function.update_of_ne hne] at hheld
      exact h.live ptr hptr hheld
  · intro _ heap₀ hkept ptr hptr hptr'
    by_cases hne : ptr = block
    · rw [hne, Function.update_self]
      exact Or.inr (Option.some_ne_none _)
    · rw [Function.update_of_ne hne]
      exact hkept ptr hptr hptr'
  · rintro ptr - hptr ⟨hptr', hapart⟩
    have hne : ptr ≠ block := fun heq => hptr (heq ▸ htakes)
    exact ⟨hptr', (Function.update_of_ne hne ..).trans hapart⟩

/-- `pool_realloc`. Where `realloc` has no block, the one it was given is left behind. -/
theorem PoolHeap.Sound.realloc (addrOf : Nat → Nat) (h : s.Sound nodes) {ptr block : UInt64}
    (hptr : ptr = 0 ∨ s.heap ptr = true) (hblock : block = ptr ∨ s.heap.Fresh block) :
    ∃ s' nodes', ((s.heap.realloc ptr block).bind fun heap =>
        (PoolHeap.mk s.pool heap).go (poolRealloc addrOf s.pool ptr block).1) = some s' ∧
      Carried s s' nodes nodes' (ptr ≠ 0 → block ≠ 0) fun p => ptr = p := by
  have hremoved := h.table.remove ptr
  have hnone : block ≠ 0 → Function.update nodes ptr none block = none := by
    intro hne
    rcases hblock with rfl | hfresh
    · exact Function.update_self ..
    · by_cases heq : block = ptr
      · rw [heq]
        exact Function.update_self ..
      · rw [Function.update_of_ne heq]
        exact h.fresh hfresh hne
  obtain ⟨hash, htable, hadd⟩ :=
    poolAdd_spec addrOf (show PoolTable (poolRemove s.pool ptr).hash _ from hremoved) hnone none 0
  have hother : ∀ p, p ≠ ptr → p ≠ block → Function.update (Function.update nodes ptr none) block
      (some ⟨block, 1, none, 0⟩) p = nodes p := by
    intro p hp hb
    rw [Function.update_of_ne hb, Function.update_of_ne hp]
  have hself : Function.update (Function.update nodes ptr none) block
      (some (PoolNode.mk block 1 none 0)) block ≠ none := by
    rw [Function.update_self]
    exact Option.some_ne_none _
  have hgone : ptr ≠ block → Function.update (Function.update nodes ptr none) block
      (some ⟨block, 1, none, 0⟩) ptr = none := by
    intro hne
    rw [Function.update_of_ne hne, Function.update_self]
  rw [poolRealloc, hadd]
  by_cases hzero : block = 0
  · -- The pool gets a null pointer.
    rw [Heap.realloc, if_pos hzero, Option.bind_some]
    refine ⟨_, _, PoolHeap.go_quiet rfl, ⟨htable, ?_⟩, ?_, ?_⟩
    · intro p hp hheld
      by_cases hne : p = ptr
      · rw [hne] at hheld
        exact absurd (hgone fun heq => hp (hne.trans (heq.trans hzero))) hheld
      · rw [hother p hne fun heq => hp (heq.trans hzero)] at hheld
        exact h.live p hp hheld
    · intro hok heap₀ hkept p hp hlive
      have hptr0 : ptr = 0 := by_contra fun hne => hok hne hzero
      rw [hother p (fun heq => hp (heq.trans hptr0)) fun heq => hp (heq.trans hzero)]
      exact hkept p hp hlive
    · rintro p hp hne ⟨hlive, hapart⟩
      exact ⟨hlive, (hother p (Ne.symm hne) fun heq => hp (heq.trans hzero)).trans hapart⟩
  · obtain ⟨heap₁, hfree, hsame, hfreed⟩ := Heap.free_eq hptr
    rw [Heap.realloc, if_neg hzero, hfree, Option.map_some, Option.bind_some]
    refine ⟨_, _, PoolHeap.go_quiet rfl, ⟨htable, ?_⟩, ?_, ?_⟩
    · intro p hp hheld
      by_cases hb : p = block
      · rw [hb]
        exact Heap.alloc_self hzero
      · by_cases hne : p = ptr
        · rw [hne] at hheld hb
          exact absurd (hgone hb) hheld
        · rw [hother p hne hb] at hheld
          exact (Heap.alloc_other hb).trans ((hsame p hne).trans (h.live p hp hheld))
    · intro _ heap₀ hkept p hp hlive
      by_cases hb : p = block
      · exact Or.inr (hb ▸ hself)
      · have hlive₁ : heap₁ p = true := (Heap.alloc_other hb).symm.trans hlive
        by_cases hne : p = ptr
        · rw [hne, hfreed (hne ▸ hp)] at hlive₁
          cases hlive₁
        · rw [hother p hne hb]
          exact hkept p hp ((hsame p hne).symm.trans hlive₁)
    · rintro p hp hne ⟨hlive, hapart⟩
      have hb : p ≠ block := by
        rintro rfl
        rcases hblock with heq | hz | hfalse
        · exact hne heq.symm
        · exact hp hz
        · exact absurd (hfalse.symm.trans hlive) Bool.false_ne_true
      exact ⟨(Heap.alloc_other hb).trans ((hsame p (Ne.symm hne)).trans hlive),
        (hother p (Ne.symm hne) hb).trans hapart⟩

/-! ### Every call -/

/-- `pool_clear`, and the end of the pool: all pointers are released. -/
theorem PoolHeap.Sound.released (h : s.Sound nodes) :
    ∃ hash rs, hashForeach poolForeachFree s.pool.hash s.pool.released =
        (hash, s.pool.released ++ rs, 0) ∧ Released nodes (fun _ => none) rs := by
  obtain ⟨hash, rs, hs, hrs⟩ := poolForeachFree_spec h.table s.pool.released
  refine ⟨hash, rs, hs, fun ptr _ => ?_⟩
  rw [hrs ptr]
  cases hnode : nodes ptr with
  | none => exact Or.inl ⟨rfl, Iff.rfl⟩
  | some n => exact Or.inr ⟨rfl, Option.some_ne_none n, rfl⟩

theorem PoolHeap.Sound.carried (h : s.Sound nodes) (ok : Prop) (takes : UInt64 → Prop) :
    Carried s s nodes nodes ok takes := ⟨h, fun _ _ hkept => hkept, fun _ _ _ hapart => hapart⟩

/-- `pool_strdup`. A null pointer is not copied. -/
theorem PoolHeap.Sound.strdup (addrOf : Nat → Nat) (h : s.Sound nodes) {str copy : UInt64}
    (hfresh : str ≠ 0 → s.heap.Fresh copy) (ok : Prop) (takes : UInt64 → Prop) :
    ∃ nodes', (poolStrdup addrOf s.pool str copy).1.released = s.pool.released ∧
      Carried s ⟨(poolStrdup addrOf s.pool str copy).1,
        if str = 0 then s.heap else s.heap.alloc copy⟩ nodes nodes' ok takes := by
  unfold poolStrdup
  by_cases hstr : str = 0
  · rw [if_pos hstr, if_pos hstr]
    exact ⟨nodes, rfl, h.carried ok takes⟩
  · rw [if_neg hstr, if_neg hstr]
    exact h.alloc addrOf (hfresh hstr) ok takes

/-- A step carries no less under fewer assumptions of it. -/
theorem Carried.mono {ok ok' : Prop} {takes takes' : UInt64 → Prop}
    (h : Carried s s' nodes nodes' ok takes) (hok : ok' → ok) (htakes : ∀ ptr, takes ptr → takes' ptr) :
    Carried s s' nodes nodes' ok' takes' where
  sound := h.sound
  kept hok' := h.kept (hok hok')
  apart ptr hptr hnot := h.apart ptr hptr fun htake => hnot (htakes ptr htake)

end Steps

end Bklib
