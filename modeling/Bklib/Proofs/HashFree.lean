import Bklib.Proofs.HashForeach

/-!
# `Bklib.Proofs.HashFree`: `hash_free` inside `hash_foreach`

`hash_free` shifts the rest of the bucket array down by one node, and the walk goes on to the node
in front of the freed one, which has not moved. So a callback may free the node that it is given:
the calls are for the entries that the table has at its start, each once and with its own key and
value, until a call returns nonzero.

The callbacks here are `freeing act`: `act` reads what it likes, says whether its node is freed, and
gives back its argument and its result. `logged act` also writes down its calls.

Nothing is assumed of the comparison: two entries of a table may have equal keys here.
-/

set_option autoImplicit false

namespace Bklib

open Bklib.Lib

variable {κ ν σ τ : Type}

/-- The callback that does what `act` says, and frees its node where `act` says so. -/
def freeing (act : HashT κ ν → NodeRef → σ → Bool × σ × Int) (t : HashT κ ν) (ref : NodeRef)
    (arg : σ) : HashT κ ν × σ × Int :=
  match act t ref arg with
  | (free, arg, n) => (if free then hashFree t (some ref) else t, arg, n)

/-- A call of the callback: what the key and value pointers of its node read, whether it frees the
node, and what it returns. -/
structure HashCall (κ ν : Type) where
  entry : Option (κ × Option ν)
  freed : Bool
  ret : Int
  deriving DecidableEq

/-- `act`, with a log of its calls. -/
def logged (act : HashT κ ν → NodeRef → σ → Bool × σ × Int) (t : HashT κ ν) (ref : NodeRef)
    (arg : σ × List (HashCall κ ν)) : Bool × (σ × List (HashCall κ ν)) × Int :=
  match act t ref arg.1 with
  | (free, arg', n) => (free, (arg', arg.2 ++ [⟨t.entryAt ref, free, n⟩]), n)

/-- The entries whose nodes the calls free. -/
def freedEntries (calls : List (HashCall κ ν)) : List (κ × Option ν) :=
  (calls.filter (·.freed)).filterMap (·.entry)

/-- What the last of the calls returns. -/
def lastRet (calls : List (HashCall κ ν)) : Int := (calls.getLast?.map (·.ret)).getD 0

/-- The tables that the users of `hash.c` can have. -/
inductive HashT.Built : HashT κ ν → Prop where
  | init (hash : κ → UInt64) (cmp : κ → κ → Int) (keySz valSz : Nat) (buckets : Int) :
      Built (hashInit hash cmp keySz valSz buckets)
  | put (addrOf : Nat → Nat) {t : HashT κ ν} (key : κ) (val : Option ν) :
      Built t → Built (hashPut addrOf t key val).1
  | get {t : HashT κ ν} (key : κ) : Built t → Built (hashGet t key).1
  | remove {t : HashT κ ν} (key : κ) : Built t → Built (hashRemove t key)
  | resize (addrOf : Nat → Nat) {t : HashT κ ν} {buckets : Nat} :
      1 ≤ buckets → Built t → Built (hashResize addrOf t buckets)
  | foreach {σ : Type} (act : HashT κ ν → NodeRef → σ → Bool × σ × Int) {t : HashT κ ν} (arg : σ) :
      Built t → Built (hashForeach (freeing act) t arg).1

/-! ## The callback -/

/-- `hash_free` of the node of a place. -/
theorem HashT.Placed.free_place {t : HashT κ ν} (h : t.Placed) {ref : NodeRef} {x : HashNode κ ν}
    (hx : t.PlaceOf ref x) :
    OwnPlace t ref (hashFree t (some ref)) ∧ (x :: (hashFree t (some ref)).nodes).Perm t.nodes := by
  obtain ⟨n, hat, rfl, hslot⟩ := h.nodeAt_place hx
  obtain ⟨hplaced, hconf, -, -, hnodes⟩ := hashFree_placed h hat hslot.symm
  exact ⟨⟨hplaced, hconf, Or.inr (hashFree_spec hat hslot.symm).2⟩, hnodes⟩

/-- What a call of `freeing act` does at the node of the entry `e`: it keeps the entries or it takes
out this one. -/
theorem freeing_spec (act : HashT κ ν → NodeRef → σ → Bool × σ × Int) {t : HashT κ ν}
    (h : t.Placed) {ref : NodeRef} {x : HashNode κ ν} {e : κ × Option ν} (hx : t.PlaceOf ref x)
    (he : t.entryOf x = some e) (arg : σ) {free : Bool} {arg' : σ} {n : Int}
    (hact : act (t.patchAt ref) ref arg = (free, arg', n)) :
    ∃ t', freeing act (t.patchAt ref) ref arg = (t', arg', n) ∧ OwnPlace t ref t' ∧
      ((if free then [e] else []) ++ t'.entries).Perm t.entries := by
  obtain ⟨hconf, hcount, hview⟩ := t.patchAt_spec ref
  have hpatched : (t.patchAt ref).Placed := h.congr hconf hview hcount
  have hentries := HashT.entries_congr hconf hview
  cases free with
  | false =>
      refine ⟨t.patchAt ref, by simp [freeing, hact], ⟨hpatched, hconf, Or.inl hview⟩, ?_⟩
      rw [hentries]
      exact List.Perm.refl _
  | true =>
      obtain ⟨hown, hnodes⟩ := hpatched.free_place (hx.congr hview)
      refine ⟨hashFree (t.patchAt ref) (some ref), by simp [freeing, hact],
        ⟨hown.placed, hown.conf.trans hconf, ?_⟩, ?_⟩
      · rw [← hview]
        exact hown.view
      · have hsame : (t.patchAt ref).nodes = t.nodes := by
          rw [HashT.nodes_def, hview, ← HashT.nodes_def]
        have hfilter := hnodes.filterMap t.entryOf
        rw [List.filterMap_cons_some he, hsame] at hfilter
        unfold HashT.entries
        rw [hown.conf, hconf]
        exact hfilter

/-! ## The log -/

/-- The walk does not depend on what a callback writes down besides its argument. -/
theorem hashForeachBucket_proj (f : τ → σ) {func : HashT κ ν → NodeRef → σ → HashT κ ν × σ × Int}
    {func' : HashT κ ν → NodeRef → τ → HashT κ ν × τ × Int}
    (hfunc : ∀ t ref arg, func t ref (f arg) = (func' t ref arg).map id (Prod.map f id))
    (b j : Nat) (t : HashT κ ν) (arg : τ) :
    hashForeachBucket func b j t (f arg)
      = (hashForeachBucket func' b j t arg).map id (Prod.map f id) := by
  induction j generalizing t arg with
  | zero => rfl
  | succ j ih =>
      rcases hcall : func' (t.patchAt ⟨b, j⟩) ⟨b, j⟩ arg with ⟨t', arg', n⟩
      have hcall' := hfunc (t.patchAt ⟨b, j⟩) ⟨b, j⟩ arg
      rw [hcall] at hcall'
      simp only [hashForeachBucket, hcall, hcall', Prod.map_apply, id]
      split
      · rfl
      · exact ih t' arg'

/-- A map of the argument that the callback goes along with goes along with the walk. -/
theorem hashForeachFrom_proj (f : τ → σ) {func : HashT κ ν → NodeRef → σ → HashT κ ν × σ × Int}
    {func' : HashT κ ν → NodeRef → τ → HashT κ ν × τ × Int}
    (hfunc : ∀ t ref arg, func t ref (f arg) = (func' t ref arg).map id (Prod.map f id))
    (b count : Nat) (t : HashT κ ν) (arg : τ) :
    hashForeachFrom func b count t (f arg)
      = (hashForeachFrom func' b count t arg).map id (Prod.map f id) := by
  induction count generalizing b t arg with
  | zero => rfl
  | succ count ih =>
      have hbucket := hashForeachBucket_proj f hfunc b
        ((t.mBucket[b]?.map arrayCount).getD 0) t arg
      rcases hcall : hashForeachBucket func' b ((t.mBucket[b]?.map arrayCount).getD 0) t arg with
        ⟨t', arg', n⟩
      rw [hcall] at hbucket
      simp only [hashForeachFrom, hcall, hbucket, Prod.map_apply, id]
      split
      · rfl
      · exact ih (b + 1) t' arg'

theorem hashForeach_logged (act : HashT κ ν → NodeRef → σ → Bool × σ × Int) (t : HashT κ ν)
    (arg : σ) (calls : List (HashCall κ ν)) :
    hashForeach (freeing act) t arg
      = (hashForeach (freeing (logged act)) t (arg, calls)).map id (Prod.map Prod.fst id) :=
  hashForeachFrom_proj Prod.fst (fun _ _ _ => rfl) 0 t.mBucketCount t (arg, calls)

/-- What the log says, when `seen` are the entries of the calls so far and the last of them returned
`n`. -/
structure LogInv (start : HashT κ ν) (seen : List (κ × Option ν)) (t : HashT κ ν)
    (arg : σ × List (HashCall κ ν)) (n : Int) : Prop where
  entries : arg.2.map (·.entry) = seen.map some
  goesOn : ∀ c ∈ arg.2.dropLast, c.ret = 0
  last : n = lastRet arg.2
  left : (freedEntries arg.2 ++ t.entries).Perm start.entries

theorem freedEntries_concat (calls : List (HashCall κ ν)) (e : κ × Option ν) (free : Bool)
    (n : Int) :
    freedEntries (calls ++ [⟨some e, free, n⟩]) = freedEntries calls ++ if free then [e] else [] := by
  cases free <;> simp [freedEntries]

/-- A logged callback visits the place it is called at. -/
theorem visitsPlace_logged (act : HashT κ ν → NodeRef → σ → Bool × σ × Int) (start : HashT κ ν) :
    VisitsPlace (freeing (logged act)) (LogInv start) := by
  rintro seen t ref ⟨arg, calls⟩ e h hplaced ⟨x, hx, he⟩ hat
  rcases hact : act (t.patchAt ref) ref arg with ⟨free, arg', n⟩
  have hlogged : logged act (t.patchAt ref) ref (arg, calls)
      = (free, (arg', calls ++ [⟨some e, free, n⟩]), n) := by
    simp only [logged, hact, hat]
  obtain ⟨t', hcall, hown, hperm⟩ := freeing_spec (logged act) hplaced hx he (arg, calls) hlogged
  refine ⟨t', _, n, hcall, hown, ?_, ?_, ?_, ?_⟩
  · have hentries : calls.map (·.entry) = seen.map some := h.entries
    simp only [List.map_append, hentries, List.map_cons, List.map_nil]
  · -- This call is made, so all the calls before it returned zero.
    have hgo : ∀ c ∈ calls.dropLast, c.ret = 0 := h.goesOn
    have hlast : 0 = lastRet calls := h.last
    show ∀ c ∈ (calls ++ [(⟨some e, free, n⟩ : HashCall κ ν)]).dropLast, c.ret = 0
    rw [List.dropLast_concat]
    intro c hc
    rcases List.eq_nil_or_concat calls with rfl | ⟨init, c', rfl⟩
    · exact absurd hc List.not_mem_nil
    · rw [List.concat_eq_append, List.dropLast_concat] at hgo
      rw [List.concat_eq_append, List.mem_append, List.mem_singleton] at hc
      rcases hc with hc | rfl
      · exact hgo c hc
      · simpa [lastRet] using hlast.symm
  · simp [lastRet]
  · have hleft : (freedEntries calls ++ t.entries).Perm start.entries := h.left
    show (freedEntries (calls ++ [(⟨some e, free, n⟩ : HashCall κ ν)]) ++ t'.entries).Perm start.entries
    rw [freedEntries_concat, List.append_assoc]
    exact (hperm.append_left _).trans hleft

/-! ## Iteration with deletion -/

/-- A new table is placed. -/
theorem placed_hashInit (hash : κ → UInt64) (cmp : κ → κ → Int) (keySz valSz : Nat)
    (buckets : Int) : (hashInit hash cmp keySz valSz buckets : HashT κ ν).Placed := by
  have hview : (hashInit hash cmp keySz valSz buckets : HashT κ ν).view
      = List.replicate (if buckets ≤ 0 then hashDefaultBuckets else buckets.toNat) [] :=
    view_replicate_arrayInit _ _
  have hnodes : (hashInit hash cmp keySz valSz buckets : HashT κ ν).nodes = [] := by
    rw [HashT.nodes_def, hview, flatten_replicate_nil]
  refine ⟨?_, ?_, ?_, ?_⟩
  · rw [HashT.mBucketCount, hashInit, List.length_replicate]
    split
    · decide
    · omega
  · rw [hview]
    exact inSlot_replicate_nil _ _
  · rw [hnodes]
    exact fun n hn => absurd hn List.not_mem_nil
  · rw [hnodes]
    rfl

/-- What a freeing walk does: the entries called and the rest are the table's, and the log tells
which were freed. -/
theorem hashForeach_freeing (act : HashT κ ν → NodeRef → σ → Bool × σ × Int) {t : HashT κ ν}
    (h : t.Placed) (arg : σ) :
    ∃ seen rest t' arg' calls n,
      hashForeach (freeing (logged act)) t (arg, []) = (t', (arg', calls), n) ∧
        (seen ++ rest).Perm t.entries ∧ (n = 0 → rest = []) ∧ t'.Placed ∧
        LogInv t seen t' (arg', calls) n := by
  have hstart : LogInv t [] t (arg, []) 0 :=
    ⟨rfl, fun c hc => absurd hc List.not_mem_nil, rfl, List.Perm.refl _⟩
  obtain ⟨seen, rest, t', ⟨arg', calls⟩, n, hforeach, hperm, hall, hplaced, hlog⟩ :=
    hashForeach_walk (visitsPlace_logged act t) hstart h
  exact ⟨seen, rest, t', arg', calls, n, hforeach, hperm, hall, hplaced, hlog⟩

/-- Every table the operations build is placed. -/
theorem HashT.Built.placed {t : HashT κ ν} (h : t.Built) : t.Placed := by
  induction h with
  | init hash cmp keySz valSz buckets => exact placed_hashInit hash cmp keySz valSz buckets
  | put addrOf key val _ ih =>
      obtain ⟨hremoved, -⟩ := hashRemove_placed ih key
      obtain ⟨hgrown, -⟩ := hashGrow_placed addrOf hremoved
      exact (hashPut_placed addrOf key val rfl hgrown).1
  | get key _ ih =>
      obtain ⟨s, r, hget, hconf, hview, hcount, -, -⟩ := hashGet_spec ih key
      rw [hget]
      exact ih.congr hconf hview hcount
  | remove key _ ih => exact (hashRemove_placed ih key).1
  | resize addrOf hbuckets _ ih => exact (hashResize_placed addrOf ih hbuckets).1
  | foreach act arg _ ih =>
      obtain ⟨-, -, t', arg', calls, n, hforeach, -, -, hplaced, -⟩ :=
        hashForeach_freeing act ih arg
      rw [hashForeach_logged act _ arg [], hforeach]
      exact hplaced

/-- A node gives one entry. -/
theorem HashT.Placed.hashCount_eq {t : HashT κ ν} (h : t.Placed) :
    hashCount t = t.entries.length := by
  rw [h.length_entries]
  exact h.count

/-- `hash_foreach` with a callback that may free its node: the calls are for the entries of the
table, each once and with its own key and value, and for all of them unless a call returns nonzero,
which ends the walk with its result. The table is left with the entries that were not freed. -/
theorem hashForeach_frees {t : HashT κ ν} (h : t.Built)
    (act : HashT κ ν → NodeRef → σ → Bool × σ × Int) (arg : σ) :
    ∃ seen rest t' arg' calls n, hashForeach (freeing act) t arg = (t', arg', n) ∧
      hashForeach (freeing (logged act)) t (arg, []) = (t', (arg', calls), n) ∧
      (seen ++ rest).Perm t.entries ∧ calls.map (·.entry) = seen.map some ∧
      (∀ c ∈ calls.dropLast, c.ret = 0) ∧ n = lastRet calls ∧ (n = 0 → rest = []) ∧
      (freedEntries calls ++ t'.entries).Perm t.entries ∧ hashCount t' = t'.entries.length := by
  obtain ⟨seen, rest, t', arg', calls, n, hforeach, hperm, hall, hplaced, hlog⟩ :=
    hashForeach_freeing act h.placed arg
  refine ⟨seen, rest, t', arg', calls, n, ?_, hforeach, hperm, hlog.entries, hlog.goesOn, hlog.last,
    hall, hlog.left, hplaced.hashCount_eq⟩
  rw [hashForeach_logged act t arg [], hforeach]
  rfl

/-- A bucket of four entries: the walk frees the last two nodes and ends at the next one. -/
theorem hashForeach_frees_two :
    let t : HashT Int Nat := run (fun t k => (hashPut id t k (some 7)).1)
      (hashInit (fun _ => 0) (fun a b => a - b) 4 0 1) [1, 2, 3, 4]
    let act : HashT Int Nat → NodeRef → Unit → Bool × Unit × Int := fun t ref arg =>
      match t.readKey ref with
      | some k => (decide (2 < k), arg, if k = 2 then 5 else 0)
      | none   => (false, arg, 0)
    ∃ seen rest : List (Int × Option Nat), ∃ t' arg' n, ∃ calls : List (HashCall Int Nat),
      hashForeach (freeing act) t () = (t', arg', n) ∧
      hashForeach (freeing (logged act)) t ((), []) = (t', (arg', calls), n) ∧
      (seen ++ rest).Perm t.entries ∧ calls.map (·.entry) = seen.map some ∧
      n = 5 ∧ t'.entries = [(1, some 7), (2, some 7)] ∧
      calls = [⟨some (4, some 7), true, 0⟩, ⟨some (3, some 7), true, 0⟩,
        ⟨some (2, some 7), false, 5⟩] := by
  intro t act
  have hbuilt : t.Built :=
    HashT.Built.put id _ _ <| HashT.Built.put id _ _ <| HashT.Built.put id _ _ <|
      HashT.Built.put id _ _ <| HashT.Built.init _ _ _ _ _
  obtain ⟨seen, rest, t', arg', calls, n, hforeach, hlogged, hperm, hcalls, -⟩ :=
    hashForeach_frees hbuilt act ()
  have hrun : (hashForeach (freeing (logged act)) t ((), [])).2 = (((), [⟨some (4, some 7), true, 0⟩,
      ⟨some (3, some 7), true, 0⟩, ⟨some (2, some 7), false, 5⟩]), 5) := by decide +kernel
  have hleft : (hashForeach (freeing act) t ()).1.entries = [(1, some 7), (2, some 7)] := by
    decide +kernel
  rw [hlogged] at hrun
  rw [hforeach] at hleft
  obtain ⟨⟨-, rfl⟩, rfl⟩ := (by simpa using hrun :
    ((arg' = () ∧ calls = _) ∧ n = 5))
  exact ⟨seen, rest, t', _, _, _, hforeach, hlogged, hperm, hcalls, rfl, hleft, rfl⟩

end Bklib
