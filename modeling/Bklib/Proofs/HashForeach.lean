import Bklib.Proofs.HashVal

/-!
# `Bklib.Proofs.HashForeach`: callbacks of `hash_foreach` that change the table

The walk reads the node of each place when it gets there, from the last place of a bucket down. A
callback may remove the node that it was given: the places in front of it stay as they are.
`hashForeach_visits` is the rule for such callbacks. What it needs about `hash_remove` is that it
takes out the node of the callback and no other, because no two nodes have equal keys
(`HashT.Wf.place_unique`).

A callback that always goes on makes the walk a fold over the places (`hashForeach_eq_foldl`).
-/

set_option autoImplicit false

namespace Bklib

open Bklib.Lib

variable {κ ν σ : Type}

/-! ## Places -/

/-- The node of a place of the table, in normal form. -/
def HashT.PlaceOf (t : HashT κ ν) (ref : NodeRef) (x : HashNode κ ν) : Prop :=
  ∃ xs, t.view[ref.bucket]? = some xs ∧ xs[ref.idx]? = some x

theorem HashT.PlaceOf.mem_nodes {t : HashT κ ν} {ref : NodeRef} {x : HashNode κ ν}
    (h : t.PlaceOf ref x) : x ∈ t.nodes := by
  obtain ⟨xs, hxs, hx⟩ := h
  exact mem_flatten_of_getElem? hxs (List.mem_of_getElem? hx)

/-- Tables with the same view have the same places. -/
theorem HashT.PlaceOf.congr {t t' : HashT κ ν} {ref : NodeRef} {x : HashNode κ ν}
    (h : t.PlaceOf ref x) (hview : t'.view = t.view) : t'.PlaceOf ref x := by
  unfold HashT.PlaceOf
  rw [hview]
  exact h

/-- A node of the table stands in normal form at its place. -/
theorem HashT.placeOf_of_nodeAt {t : HashT κ ν} {ref : NodeRef} {n : HashNode κ ν}
    (h : t.nodeAt ref = some n) : t.PlaceOf ref (t.norm n) := by
  obtain ⟨arr, harr, hn⟩ := Option.bind_eq_some_iff.mp h
  refine ⟨arr.elts.map t.norm, ?_, ?_⟩
  · rw [t.getElem?_view, harr]
    rfl
  · rw [List.getElem?_map, hn]
    rfl

/-- The node at a place, and the bucket that its hash leads to. -/
theorem HashT.Placed.nodeAt_place {t : HashT κ ν} (h : t.Placed) {ref : NodeRef} {x : HashNode κ ν}
    (hx : t.PlaceOf ref x) :
    ∃ n, t.nodeAt ref = some n ∧ t.norm n = x ∧ t.slot n.nodeHash = ref.bucket := by
  obtain ⟨xs, hxs, hxi⟩ := hx
  have hslot : t.slot x.nodeHash = ref.bucket := h.slot _ _ hxs x (List.mem_of_getElem? hxi)
  rw [t.getElem?_view] at hxs
  obtain ⟨arr, harr, rfl⟩ := Option.map_eq_some_iff.mp hxs
  rw [List.getElem?_map] at hxi
  obtain ⟨n, hn, rfl⟩ := Option.map_eq_some_iff.mp hxi
  rw [t.norm_nodeHash] at hslot
  refine ⟨n, ?_, rfl, hslot⟩
  rw [HashT.nodeAt, harr]
  exact hn

/-- Nodes with equal keys stand at the same place. -/
theorem HashT.Wf.place_unique {t : HashT κ ν} (h : t.Wf)
    (heq : Equivalence (keyEq t.mHash t.mCmp)) {ref ref' : NodeRef} {x y : HashNode κ ν} {k k' : κ}
    (hx : t.PlaceOf ref x) (hy : t.PlaceOf ref' y) (hk : t.keyOf x = some k)
    (hk' : t.keyOf y = some k') (hkey : keyEq t.mHash t.mCmp k k') : ref = ref' := by
  have hhash : ∀ {z kz}, z ∈ t.nodes → t.keyOf z = some kz → z.nodeHash = t.mHash kz := by
    intro z kz hz hkz
    obtain ⟨k₀, hk₀, hh⟩ := (h.node z hz).key
    rw [hh, Option.some.inj (hk₀.symm.trans hkz)]
  have hxh := hhash hx.mem_nodes hk
  have hyh := hhash hy.mem_nodes hk'
  obtain ⟨xs, hxs, hxi⟩ := hx
  obtain ⟨ys, hys, hyi⟩ := hy
  -- Equal keys have equal hashes, so the buckets are the same.
  have hb : ref.bucket = ref'.bucket := by
    have hslot : t.slot x.nodeHash = ref.bucket := h.slot _ _ hxs x (List.mem_of_getElem? hxi)
    have hslot' : t.slot y.nodeHash = ref'.bucket := h.slot _ _ hys y (List.mem_of_getElem? hyi)
    rw [← hslot, ← hslot', hxh, hyh, hkey.1]
  rw [← hb, hxs] at hys
  obtain rfl := Option.some.inj hys
  have hpair : xs.Pairwise fun n n' => ∀ e, t.entryOf n = some e → ∀ e', t.entryOf n' = some e' →
      ¬keyEq t.mHash t.mCmp e.1 e'.1 := by
    have hnodes := List.pairwise_filterMap.mp h.distinct
    exact (List.pairwise_flatten.mp hnodes).1 xs (List.mem_of_getElem? hxs)
  have hentry : t.entryOf x = some (k, t.valOf x) := by rw [HashConf.entryOf, hk]; rfl
  have hentry' : t.entryOf y = some (k', t.valOf y) := by rw [HashConf.entryOf, hk']; rfl
  obtain ⟨hi, rfl⟩ := List.getElem?_eq_some_iff.mp hxi
  obtain ⟨hj, rfl⟩ := List.getElem?_eq_some_iff.mp hyi
  have hidx : ref.idx = ref'.idx := by
    rcases Nat.lt_trichotomy ref.idx ref'.idx with hlt | heq' | hgt
    · exact absurd hkey (List.pairwise_iff_getElem.mp hpair _ _ hi hj hlt _ hentry _ hentry')
    · exact heq'
    · exact absurd (heq.symm hkey)
        (List.pairwise_iff_getElem.mp hpair _ _ hj hi hgt _ hentry' _ hentry)
  cases ref
  cases ref'
  exact congrArg₂ NodeRef.mk hb hidx

/-- `hash_remove` of the key of a node takes out this node. -/
theorem hashRemove_place {t : HashT κ ν} (heq : Equivalence (keyEq t.mHash t.mCmp)) (h : t.Wf)
    {ref : NodeRef} {x : HashNode κ ν} {k : κ} (hx : t.PlaceOf ref x) (hk : t.keyOf x = some k) :
    (hashRemove t k).view = t.view.modify ref.bucket (·.eraseIdx ref.idx) := by
  obtain ⟨s, r, hget, hconf, hview, hcount, hnone, hsome⟩ := hashGet_spec h.placed k
  have hhit : t.hit k x = true :=
    (t.hit_iff (h.node x hx.mem_nodes)).mpr ⟨k, hk, heq.refl k⟩
  cases r with
  | none => exact absurd hhit (by rw [hnone rfl x hx.mem_nodes]; decide)
  | some ref' =>
      obtain ⟨n, hn, hhit', hslot, -, -⟩ := hsome ref' rfl
      have hplace : t.PlaceOf ref' (t.norm n) := by
        rw [← hconf]
        exact (HashT.placeOf_of_nodeAt hn).congr hview.symm
      obtain ⟨k', hk', hkey⟩ := (t.hit_iff (h.node _ hplace.mem_nodes)).mp
        ((t.hit_norm k n).trans hhit')
      obtain rfl := h.place_unique heq hx hplace hk hk' hkey
      simp only [hashRemove, hget]
      rw [(hashFree_spec hn hslot).2, hview]

/-- `hash_free` of the node of a key is what `hash_remove` of the key does. -/
theorem hashFree_place {t : HashT κ ν} (heq : Equivalence (keyEq t.mHash t.mCmp)) (h : t.Wf)
    {ref : NodeRef} {x : HashNode κ ν} {k : κ} (hx : t.PlaceOf ref x) (hk : t.keyOf x = some k) :
    (hashFree t (some ref)).view = (hashRemove t k).view ∧
      (hashFree t (some ref)).mNodeCount = (hashRemove t k).mNodeCount := by
  have hview := hashRemove_place heq h hx hk
  obtain ⟨n, hat, -, hslot⟩ := h.placed.nodeAt_place hx
  obtain ⟨hfree, hfreed⟩ := hashFree_spec hat hslot.symm
  refine ⟨hfreed.trans hview.symm, ?_⟩
  -- One node less in both: the key has a node, so `hash_remove` finds one.
  obtain ⟨s, r, hget, -, -, hcount, hnone, hsome⟩ := hashGet_spec h.placed k
  cases r with
  | none =>
      have hhit := (t.hit_iff (h.node _ hx.mem_nodes)).mpr ⟨k, hk, heq.refl k⟩
      exact absurd hhit (by rw [hnone rfl _ hx.mem_nodes]; decide)
  | some ref' =>
      obtain ⟨n', hn', -, hslot', -⟩ := hsome ref' rfl
      simp only [hashRemove, hget]
      rw [(hashFree_spec hn' hslot').1, hfree]
      show t.mNodeCount - 1 = s.mNodeCount - 1
      rw [hcount]

/-- `hash_free` changes nothing that the table was made with. -/
theorem toHashConf_hashFree (t : HashT κ ν) (node : Option NodeRef) :
    (hashFree t node).toHashConf = t.toHashConf := by
  unfold hashFree
  split
  · rfl
  · split <;> rfl

/-- `hash_free` of the node of a key drops the key. -/
theorem models_hashFree {hash : κ → UInt64} {cmp : κ → κ → Int} {heq : Equivalence (keyEq hash cmp)}
    {t : HashT κ ν} {m : KeyMap (keySetoid heq) (Option ν)} (h : t.Models heq m) {ref : NodeRef}
    {x : HashNode κ ν} {k : κ} (hx : t.PlaceOf ref x) (hk : t.keyOf x = some k) :
    (hashFree t (some ref)).Models heq (m.del k) := by
  have heq' : Equivalence (keyEq t.mHash t.mCmp) := by rw [h.hash_eq, h.cmp_eq]; exact heq
  obtain ⟨hview, hcount⟩ := hashFree_place heq' h.wf hx hk
  have hremoved := models_remove h k
  have hconf : (hashFree t (some ref)).toHashConf = (hashRemove t k).toHashConf := by
    rw [(hashRemove_spec heq' h.wf k).2.1, toHashConf_hashFree]
  exact hremoved.congr (hremoved.wf.congr hconf hview hcount) hconf fun e => by
    rw [HashT.entries_congr hconf hview]

/-- A fresh node stands for its key. -/
theorem HashT.Fresh.place {t : HashT κ ν} {ref : NodeRef} {key : κ} (h : t.Fresh ref key) :
    ∃ x, t.PlaceOf ref x ∧ t.keyOf x = some key := by
  obtain ⟨arr, n, harr, hn, hkey, -⟩ := h
  have hat : t.nodeAt ref = some n := by
    rw [HashT.nodeAt, harr]
    exact hn
  refine ⟨t.norm n, HashT.placeOf_of_nodeAt hat, ?_⟩
  rw [t.keyOf_norm]
  exact hkey

/-- What a node reads, when its pointers are fresh, is an entry of the map. -/
theorem HashT.Models.readVal_patchAt {hash : κ → UInt64} {cmp : κ → κ → Int}
    {heq : Equivalence (keyEq hash cmp)} {t : HashT κ ν} {m : KeyMap (keySetoid heq) (Option ν)}
    (h : t.Models heq m) {ref : NodeRef} {v : ν} (hread : (t.patchAt ref).readVal ref = some v) :
    ∃ x k, t.PlaceOf ref x ∧ t.keyOf x = some k ∧ m.get k = some (k, some v) := by
  obtain ⟨arr, harr, hn⟩ := Option.bind_eq_some_iff.mp hread
  obtain ⟨n, hn, -⟩ := Option.bind_eq_some_iff.mp hn
  have hat : (t.patchAt ref).nodeAt ref = some n := by
    rw [HashT.nodeAt, harr]
    exact hn
  have hplace : t.PlaceOf ref (t.norm n) :=
    (HashT.placeOf_of_nodeAt hat).congr (t.patchAt_spec ref).2.2.symm
  obtain ⟨k, hk, -⟩ := (h.wf.node _ hplace.mem_nodes).key
  have hentry : t.entryOf (t.norm n) = some (k, t.valOf (t.norm n)) := by
    rw [HashConf.entryOf, hk]
    rfl
  obtain ⟨_, hview, hx⟩ := id hplace
  have hfresh := (HashT.entryAt_patchAt h.wf.placed hview hx).trans hentry
  obtain ⟨k', -, hk'⟩ := Option.map_eq_some_iff.mp hfresh
  have hval : t.valOf (t.norm n) = some v := by
    rw [← hread]
    exact (congrArg Prod.snd hk').symm
  refine ⟨t.norm n, k, hplace, hk, (h.get_iff k _).mpr ⟨?_, heq.refl k⟩⟩
  exact HashT.mem_entries.mpr ⟨_, hplace.mem_nodes, hk, hval⟩

/-! ## The walk -/

/-- A callback that is given the node at `ref` may remove it and changes no other node. -/
structure OwnNode (t : HashT κ ν) (ref : NodeRef) (t' : HashT κ ν) : Prop where
  wf : t'.Wf
  conf : t'.toHashConf = t.toHashConf
  view : t'.view = t.view ∨ t'.view = t.view.modify ref.bucket (·.eraseIdx ref.idx)

/-- `OwnNode` for a table whose keys may be equal. -/
structure OwnPlace (t : HashT κ ν) (ref : NodeRef) (t' : HashT κ ν) : Prop where
  placed : t'.Placed
  conf : t'.toHashConf = t.toHashConf
  view : t'.view = t.view ∨ t'.view = t.view.modify ref.bucket (·.eraseIdx ref.idx)

theorem OwnNode.ownPlace {t t' : HashT κ ν} {ref : NodeRef} (h : OwnNode t ref t') :
    OwnPlace t ref t' := ⟨h.wf.placed, h.conf, h.view⟩

/-- The places in front of the node, and the other buckets, stay as they are. -/
theorem OwnPlace.getElem?_view {t t' : HashT κ ν} {ref : NodeRef} (h : OwnPlace t ref t') :
    (∀ b, b ≠ ref.bucket → t'.view[b]? = t.view[b]?) ∧
      ∀ xs, t.view[ref.bucket]? = some xs → ref.idx ≤ xs.length →
        ∃ ys, t'.view[ref.bucket]? = some ys ∧ ref.idx ≤ ys.length ∧
          ys.take ref.idx = xs.take ref.idx := by
  rcases h.view with hview | hview
  · exact ⟨fun b _ => by rw [hview], fun xs hxs hlen => ⟨xs, by rw [hview, hxs], hlen, rfl⟩⟩
  · constructor
    · intro b hb
      rw [hview, List.getElem?_modify_ne _ _ (Ne.symm hb)]
    · intro xs hxs hlen
      have htake : (xs.eraseIdx ref.idx).take ref.idx = xs.take ref.idx := by
        rw [List.eraseIdx_eq_take_drop_succ, List.take_append_of_le_length (by simp; omega),
          List.take_take, Nat.min_self]
      refine ⟨xs.eraseIdx ref.idx, ?_, ?_, htake⟩
      · rw [hview, List.getElem?_modify_eq, hxs]
        rfl
      · have := congrArg List.length htake
        simp only [List.length_take] at this
        omega

theorem OwnPlace.length_view {t t' : HashT κ ν} {ref : NodeRef} (h : OwnPlace t ref t') :
    t'.view.length = t.view.length := by
  rcases h.view with hview | hview
  · rw [hview]
  · rw [hview, List.length_modify]

section
variable {func : HashT κ ν → NodeRef → σ → HashT κ ν × σ × Int}

/-- The call that the walk makes for the place `ref`. -/
def callAt (func : HashT κ ν → NodeRef → σ → HashT κ ν × σ × Int) (s : HashT κ ν × σ)
    (ref : NodeRef) : HashT κ ν × σ :=
  match func (s.1.patchAt ref) ref s.2 with
  | (t, arg, _) => (t, arg)

/-- A walk over a bucket whose callback always gives zero is a fold of its calls. -/
theorem hashForeachBucket_eq_foldl (hret : ∀ t ref arg, (func t ref arg).2.2 = 0) (b j : Nat)
    (t : HashT κ ν) (arg : σ) :
    ∃ refs : List NodeRef, ∃ s, refs.foldl (callAt func) (t, arg) = s ∧
      hashForeachBucket func b j t arg = (s.1, s.2, 0) := by
  induction j generalizing t arg with
  | zero => exact ⟨[], _, rfl, rfl⟩
  | succ j ih =>
      rcases hfunc : func (t.patchAt ⟨b, j⟩) ⟨b, j⟩ arg with ⟨t', arg', n⟩
      obtain rfl : n = 0 := by have := hret (t.patchAt ⟨b, j⟩) ⟨b, j⟩ arg; rwa [hfunc] at this
      obtain ⟨refs, s, hs, hrest⟩ := ih t' arg'
      refine ⟨⟨b, j⟩ :: refs, s, ?_, ?_⟩
      · rw [List.foldl_cons, ← hs]
        simp only [callAt, hfunc]
      · simp only [hashForeachBucket, hfunc, ne_eq, not_true_eq_false, if_false, hrest]

/-- So is a walk over the buckets. -/
theorem hashForeachFrom_eq_foldl (hret : ∀ t ref arg, (func t ref arg).2.2 = 0) (n b : Nat)
    (t : HashT κ ν) (arg : σ) :
    ∃ refs : List NodeRef, ∃ s, refs.foldl (callAt func) (t, arg) = s ∧
      hashForeachFrom func b n t arg = (s.1, s.2, 0) := by
  induction n generalizing b t arg with
  | zero => exact ⟨[], _, rfl, rfl⟩
  | succ n ih =>
      obtain ⟨refs, s, hs, hbucket⟩ :=
        hashForeachBucket_eq_foldl hret b ((t.mBucket[b]?.map arrayCount).getD 0) t arg
      obtain ⟨refs', s', hs', hrest⟩ := ih (b + 1) s.1 s.2
      refine ⟨refs ++ refs', s', by rw [List.foldl_append, hs, ← hs'], ?_⟩
      simp only [hashForeachFrom, hbucket, ne_eq, not_true_eq_false, if_false, hrest]

/-- With a callback that always returns 0, `hash_foreach` is a sequence of calls. -/
theorem hashForeach_eq_foldl (hret : ∀ t ref arg, (func t ref arg).2.2 = 0) (t : HashT κ ν)
    (arg : σ) :
    ∃ refs : List NodeRef, ∃ s, refs.foldl (callAt func) (t, arg) = s ∧
      hashForeach func t arg = (s.1, s.2, 0) :=
  hashForeachFrom_eq_foldl hret t.mBucketCount 0 t arg

/-- What a call does, when `seen` are the entries of the calls before it: the callback is given an
entry, and it changes its own node only. Its result is the last argument of `P`. -/
def VisitsPlace (func : HashT κ ν → NodeRef → σ → HashT κ ν × σ × Int)
    (P : List (κ × Option ν) → HashT κ ν → σ → Int → Prop) : Prop :=
  ∀ seen t ref arg e, P seen t arg 0 → t.Placed →
    (∃ x, t.PlaceOf ref x ∧ t.entryOf x = some e) → (t.patchAt ref).entryAt ref = some e →
    ∃ t' arg' n, func (t.patchAt ref) ref arg = (t', arg', n) ∧ OwnPlace t ref t' ∧
      P (seen ++ [e]) t' arg' n

section
variable {P : List (κ × Option ν) → HashT κ ν → σ → Int → Prop}

/-- The walk of a bucket calls for the entries of its nodes, from the last one down, and leaves
out the `rest` only when a call ends the walk. -/
theorem hashForeachBucket_walk (hvisit : VisitsPlace func P) (b j : Nat) {t : HashT κ ν} {arg : σ}
    {xs : List (HashNode κ ν)} {seen : List (κ × Option ν)} (hP : P seen t arg 0)
    (hplaced : t.Placed) (hxs : t.view[b]? = some xs) (hj : j ≤ xs.length) :
    ∃ called rest t' arg' n, hashForeachBucket func b j t arg = (t', arg', n) ∧
      called ++ rest = (xs.take j).reverse.filterMap t.entryOf ∧ (n = 0 → rest = []) ∧
      t'.Placed ∧ t'.toHashConf = t.toHashConf ∧ (∀ b', b' ≠ b → t'.view[b']? = t.view[b']?) ∧
      t'.view.length = t.view.length ∧ P (seen ++ called) t' arg' n := by
  induction j generalizing t arg xs seen with
  | zero =>
      exact ⟨[], [], t, arg, 0, rfl, rfl, fun _ => rfl, hplaced, rfl, fun _ _ => rfl, rfl,
        by simpa using hP⟩
  | succ j ih =>
      have hx : xs[j]? = some xs[j] := List.getElem?_eq_getElem (by omega)
      generalize xs[j] = x at hx
      have hplace : t.PlaceOf ⟨b, j⟩ x := ⟨xs, hxs, hx⟩
      obtain ⟨k, hk, -⟩ := (hplaced.node x hplace.mem_nodes).key
      have hentry : t.entryOf x = some (k, t.valOf x) := by rw [HashConf.entryOf, hk]; rfl
      have hnodes : (xs.take (j + 1)).reverse.filterMap t.entryOf
          = (k, t.valOf x) :: (xs.take j).reverse.filterMap t.entryOf := by
        rw [List.take_add_one, hx, Option.toList_some, List.reverse_append, List.reverse_singleton,
          List.singleton_append, List.filterMap_cons_some hentry]
      obtain ⟨t₁, arg₁, n, hfunc, hown, hP₁⟩ := hvisit seen t ⟨b, j⟩ arg _ hP hplaced
        ⟨x, hplace, hentry⟩ ((HashT.entryAt_patchAt hplaced hxs hx).trans hentry)
      obtain ⟨hother, hbucket⟩ := hown.getElem?_view
      by_cases hn : n = 0
      · subst hn
        obtain ⟨ys, hys, hylen, hytake⟩ := hbucket xs hxs (show j ≤ xs.length by omega)
        obtain ⟨called, rest, t', arg', n', hrest, hcalled, hall, hplaced', hconf', hother', hlen',
          hP'⟩ := ih hP₁ hown.placed hys hylen
        refine ⟨(k, t.valOf x) :: called, rest, t', arg', n', ?_, ?_, hall, hplaced',
          hconf'.trans hown.conf, fun b' hb' => (hother' b' hb').trans (hother b' hb'),
          hlen'.trans hown.length_view, ?_⟩
        · simp only [hashForeachBucket, hfunc, ne_eq, not_true_eq_false, if_false, hrest]
        · -- The nodes in front of this one are those of the bucket at the start.
          have htake : ys.take j = xs.take j := hytake
          rw [List.cons_append, hcalled, htake, hown.conf, hnodes]
        · rw [List.append_assoc, List.singleton_append] at hP'
          exact hP'
      · refine ⟨[(k, t.valOf x)], (xs.take j).reverse.filterMap t.entryOf, t₁, arg₁, n, ?_,
          hnodes.symm, fun h => absurd h hn, hown.placed, hown.conf, hother, hown.length_view, hP₁⟩
        simp only [hashForeachBucket, hfunc, ne_eq, hn, not_false_eq_true, if_true]

/-- A walk calls each entry of the buckets at most once, in their order, and ends early on a nonzero
answer only. -/
theorem hashForeachFrom_walk (hvisit : VisitsPlace func P) (count b : Nat) {t : HashT κ ν}
    {arg : σ} {seen : List (κ × Option ν)} (hP : P seen t arg 0) (hplaced : t.Placed)
    (hb : b + count = t.view.length) :
    ∃ called rest t' arg' n, hashForeachFrom func b count t arg = (t', arg', n) ∧
      called ++ rest = ((t.view.drop b).flatMap List.reverse).filterMap t.entryOf ∧
      (n = 0 → rest = []) ∧ t'.Placed ∧ P (seen ++ called) t' arg' n := by
  induction count generalizing b t arg seen with
  | zero =>
      refine ⟨[], [], t, arg, 0, rfl, ?_, fun _ => rfl, hplaced, by simpa using hP⟩
      rw [List.drop_eq_nil_of_le (by omega)]
      rfl
  | succ count ih =>
      have hxs : t.view[b]? = some t.view[b] := List.getElem?_eq_getElem (by omega)
      have hdrop : t.view.drop b = t.view[b] :: t.view.drop (b + 1) :=
        List.drop_eq_getElem_cons (by omega)
      generalize t.view[b] = xs at hxs hdrop
      have hcount : (t.mBucket[b]?.map arrayCount).getD 0 = xs.length := by
        rw [t.getElem?_view] at hxs
        obtain ⟨arr, harr, rfl⟩ := Option.map_eq_some_iff.mp hxs
        simp [harr, arrayCount]
      have hnodes : ((t.view.drop b).flatMap List.reverse).filterMap t.entryOf
          = xs.reverse.filterMap t.entryOf
            ++ ((t.view.drop (b + 1)).flatMap List.reverse).filterMap t.entryOf := by
        rw [hdrop, List.flatMap_cons, List.filterMap_append]
      -- whatever the callback does to this bucket, the later ones stay as they are
      obtain ⟨called, rest, t₁, arg₁, n, hbucket, hcalled, hall, hplaced₁, hconf₁, hother, hlen,
        hP₁⟩ := hashForeachBucket_walk hvisit b xs.length hP hplaced hxs le_rfl
      rw [List.take_length] at hcalled
      by_cases hn : n = 0
      · subst hn
        obtain rfl := hall rfl
        obtain ⟨called', rest', t', arg', n', hrest, hcalled', hall', hplaced', hP'⟩ :=
          ih (b + 1) hP₁ hplaced₁ (by omega)
        refine ⟨called ++ called', rest', t', arg', n', ?_, ?_, hall', hplaced', ?_⟩
        · simp only [hashForeachFrom, hcount, hbucket, ne_eq, not_true_eq_false, if_false, hrest]
        · have hdrop₁ : t₁.view.drop (b + 1) = t.view.drop (b + 1) := by
            apply List.ext_getElem?
            intro i
            rw [List.getElem?_drop, List.getElem?_drop, hother _ (by omega)]
          rw [List.append_nil] at hcalled
          rw [hnodes, ← hcalled, List.append_assoc, hcalled', hdrop₁, hconf₁]
        · rw [← List.append_assoc]
          exact hP'
      · -- the callback has stopped the walk in this bucket
        refine ⟨called, rest ++ ((t.view.drop (b + 1)).flatMap List.reverse).filterMap t.entryOf,
          t₁, arg₁, n, ?_, ?_, fun h => absurd h hn, hplaced₁, hP₁⟩
        · simp only [hashForeachFrom, hcount, hbucket, ne_eq, hn, not_false_eq_true, if_true]
        · rw [hnodes, ← hcalled, List.append_assoc]

/-- The rule for callbacks that may remove their own node and may end the walk: the calls are for
entries that the table has at its start, and for all of them unless a call ends the walk. -/
theorem hashForeach_walk (hvisit : VisitsPlace func P) {t : HashT κ ν} {arg : σ}
    (hP : P [] t arg 0) (hplaced : t.Placed) :
    ∃ seen rest t' arg' n, hashForeach func t arg = (t', arg', n) ∧
      (seen ++ rest).Perm t.entries ∧ (n = 0 → rest = []) ∧ t'.Placed ∧ P seen t' arg' n := by
  obtain ⟨called, rest, t', arg', n, hforeach, hcalled, hall, hplaced', hP'⟩ :=
    hashForeachFrom_walk hvisit t.mBucketCount 0 hP hplaced (by rw [t.length_view, Nat.zero_add])
  refine ⟨called, rest, t', arg', n, hforeach, ?_, hall, hplaced', hP'⟩
  rw [hcalled, List.drop_zero]
  refine List.Perm.filterMap _ ?_
  rw [HashT.nodes_def, ← List.flatMap_id]
  exact List.Perm.flatMap_left _ fun xs _ => List.reverse_perm xs

end

/-- What a call does, when `seen` are the entries of the calls before it: the callback is given an
entry, it goes on, and it changes its own node only. -/
def VisitsOwn (func : HashT κ ν → NodeRef → σ → HashT κ ν × σ × Int)
    (P : List (κ × Option ν) → HashT κ ν → σ → Prop) : Prop :=
  ∀ seen t ref arg e, P seen t arg → t.Wf → (∃ x, t.PlaceOf ref x ∧ t.entryOf x = some e) →
    (t.patchAt ref).entryAt ref = some e →
    ∃ t' arg', func (t.patchAt ref) ref arg = (t', arg', 0) ∧ OwnNode t ref t' ∧
      P (seen ++ [e]) t' arg'

/-- The rule for callbacks that go on: the walk makes a call for every entry that the table has at
its start. -/
theorem hashForeach_visits {P : List (κ × Option ν) → HashT κ ν → σ → Prop}
    (hvisit : VisitsOwn func P) {t : HashT κ ν} {arg : σ} (hP : P [] t arg) (hwf : t.Wf) :
    ∃ seen t' arg', hashForeach func t arg = (t', arg', 0) ∧ seen.Perm t.entries ∧ t'.Wf ∧
      P seen t' arg' := by
  have hplace : VisitsPlace func fun seen t arg n => n = 0 ∧ t.Wf ∧ P seen t arg := by
    rintro seen t ref arg e ⟨-, hwf, hP⟩ - hx hat
    obtain ⟨t', arg', hfunc, hown, hP'⟩ := hvisit seen t ref arg e hP hwf hx hat
    exact ⟨t', arg', 0, hfunc, hown.ownPlace, rfl, hown.wf, hP'⟩
  obtain ⟨seen, rest, t', arg', n, hforeach, hperm, hall, -, rfl, hwf', hP'⟩ :=
    hashForeach_walk hplace ⟨rfl, hwf, hP⟩ hwf.placed
  rw [hall rfl, List.append_nil] at hperm
  exact ⟨seen, t', arg', hforeach, hperm, hwf', hP'⟩

end

end Bklib
