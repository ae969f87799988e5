import Mathlib.Data.Set.Card
import Bklib.Model.DebugLeak
import Bklib.Proofs.HashStores

/-!
# `Bklib.Proofs.DebugLeak`: the leak accounting follows the history of each pointer

`liveLocs` says of a sequence of calls which locations a pointer has, from its latest creation on.
Each call does to the table what it does to this function (`leakCall_spec`), and a walk with
`debug_leak_by_line_foreach_hash` adds one to the count of the first location of each live pointer
(`leakByLine_stores`).

`debug_leak_create_f` initialises the table, the other two calls do not: they warn about a pointer
that the table does not know, and on the zeroed table they jump through a null pointer instead.
`debugLeak_exact_iff` says when the accounting is right.
-/

set_option autoImplicit false

namespace Bklib

open Bklib.Lib

/-! ### The history of a pointer -/

/-- A call. -/
inductive LeakOp where
  | create (ptr : UInt64) (loc : LeakLoc)
  | stack (ptr : UInt64) (loc : LeakLoc)
  | delete (ptr : UInt64) (loc : LeakLoc)

def LeakOp.isCreate : LeakOp → Bool
  | .create _ _ => true
  | _           => false

/-- What a call does to the locations of one pointer: `none` when it is not live. -/
def locsAfter (ptr : UInt64) (locs : Option (List LeakLoc)) : LeakOp → Option (List LeakLoc)
  | .create p loc => if ptr = p then some [loc] else locs
  | .stack p loc  => if ptr = p then locs.map (· ++ [loc]) else locs
  | .delete p _   => if ptr = p then none else locs

/-- The locations of a pointer since its latest creation, when it has not been deleted since. -/
def liveLocs (ops : List LeakOp) (ptr : UInt64) : Option (List LeakLoc) :=
  ops.foldl (locsAfter ptr) none

/-- The live pointers whose latest creation was at a location. -/
def liveAt (ops : List LeakOp) (loc : LeakLoc) : Set UInt64 :=
  {ptr | ∃ rest, liveLocs ops ptr = some (loc :: rest)}

/-! ### Runs -/

/-- A call on the static variables. -/
def leakCall (addrOf : Nat → Nat) (self : DebugLeak) : LeakOp → Option DebugLeak
  | .create ptr loc => debugLeakCreateF addrOf self ptr loc.file loc.line
  | .stack ptr loc  => debugLeakStackF self ptr loc.file loc.line
  | .delete ptr loc => debugLeakDeleteF self ptr loc.file loc.line

def leakRun (addrOf : Nat → Nat) (self : DebugLeak) (ops : List LeakOp) : Option DebugLeak :=
  ops.foldlM (leakCall addrOf) self

/-- The static variables before the first call: as the program starts, or behind
`debug_leak_init_f`. -/
def leakStart (inited : Bool) : DebugLeak :=
  if inited then debugLeakInitF .static else .static

/-- The stack of the record that `hash_get` finds for a pointer. -/
def leakFound (self : DebugLeak) (ptr : UInt64) : Option (List LeakLoc) :=
  self.hash.bind fun hash =>
    ((hashGetEntry hash ptr).bind fun e => e.2).map fun rec => rec.mStack.elts

/-- The pointers that `hash_foreach` goes through. -/
def leakPtrs (self : DebugLeak) : List UInt64 :=
  (self.hash.map fun hash => (hashEntries hash).map fun e => e.1).getD []

/-- The count that a table by line has for a location. -/
def leakLineCount (byLine : HashT LeakByLine LeakByLine) (loc : LeakLoc) : Option Int :=
  ((hashGetEntry byLine ⟨loc.file, loc.line, 0⟩).bind fun e => e.2).map fun r => r.count

/-- The accounting is right behind some calls: each live pointer is found with its locations and is
listed once, no other one is, and the table by line has the number of live pointers for each
location that has some. -/
structure LeakExact (addrOf : Nat → Nat) (ops : List LeakOp) (leak : DebugLeak) : Prop where
  found   : ∀ ptr, leakFound leak ptr = liveLocs ops ptr
  listed  : (leakPtrs leak).Nodup ∧ ∀ ptr, ptr ∈ leakPtrs leak ↔ (liveLocs ops ptr).isSome
  counted : ∀ loc, leakLineCount (debugLeakByLineF addrOf leak) loc =
    if (liveAt ops loc).ncard = 0 then none else some ((liveAt ops loc).ncard : Int)

/-! ### The keys of the table by line -/

/-- A line as a pointer is sign-extended. -/
theorem toInt_linePtr (line : Int32) :
    line.toInt = (linePtr line).toNat ∨ line.toInt = (linePtr line).toNat - 2 ^ 64 := by
  have h : line.toInt64.toInt = line.toInt := Int32.toInt_toInt64 line
  have h' : line.toInt64.toInt = ((linePtr line).toNat : Int).bmod (2 ^ 64) := by
    rw [← Int64.toInt_toBitVec, BitVec.toInt_eq_toNat_bmod]
    rfl
  have hlt := (linePtr line).toNat_lt
  rw [← h, h', Int.bmod_eq_emod]
  split <;> omega

/-- `hash_cmp_int` cuts the difference of two pointers to an `int`, which loses nothing for lines. -/
theorem hashCmpInt_linePtr (a b : Int32) : hashCmpInt (linePtr a) (linePtr b) = 0 ↔ a = b := by
  have ha := toInt_linePtr a
  have hb := toInt_linePtr b
  have hlta := (linePtr a).toNat_lt
  have hltb := (linePtr b).toNat_lt
  have ha₁ := Int32.le_toInt a
  have ha₂ := Int32.toInt_lt a
  have hb₁ := Int32.le_toInt b
  have hb₂ := Int32.toInt_lt b
  rw [hashCmpInt, UInt64.toNat_sub, natToInt32, ← Int32.toInt_inj]
  -- both differences are less than `2 ^ 32`, so that 0 is cut to 0 only
  constructor
  · intro h0
    split at h0 <;> omega
  · intro h0
    rw [if_pos (by omega)]
    omega

/-- The table by line tells records apart by file and line. -/
theorem keyClass_byLine :
    KeyClass debugLeakByLineHashHash debugLeakByLineHashCmp (fun a => ⟨a.file, a.line⟩)
      (fun loc : LeakLoc => ⟨loc.file, loc.line, 0⟩) where
  cls_rep _ := rfl
  key_iff a b := by
    rw [LeakLoc.mk.injEq]
    constructor
    · intro h
      have hcmp : debugLeakByLineHashCmp a b = 0 := h.2
      unfold debugLeakByLineHashCmp at hcmp
      -- the files are compared first
      by_cases hfile : strcmp a.file b.file = 0
      · rw [if_pos hfile, hashCmpInt_linePtr] at hcmp
        exact ⟨strcmp_eq_zero_iff.mp hfile, hcmp⟩
      · rw [if_neg hfile] at hcmp
        exact absurd hcmp hfile
    · rintro ⟨hfile, hline⟩
      constructor
      · unfold debugLeakByLineHashHash
        rw [hfile, hline]
      · unfold debugLeakByLineHashCmp
        rw [if_pos (strcmp_eq_zero_iff.mpr hfile), hashCmpInt_linePtr]
        exact hline

/-! ### What a call does to the table -/

section
variable {hash : HashT UInt64 LeakRec} {recs : UInt64 → Option LeakRec}

/-- The record and its node are gone, when there were some. -/
theorem debugLeakRecDrop_spec (h : hash.Stores keyClass_int recs) (ptr : UInt64) :
    ∃ s, debugLeakRecDrop hash ptr = some s ∧
      s.Stores keyClass_int (Function.update recs ptr none) := by
  obtain ⟨s, r, hget, hstores, hr⟩ := h.get ptr
  rw [id_eq] at hget
  unfold debugLeakRecDrop
  rw [hget]
  rcases hr with ⟨rfl, hnone⟩ | ⟨ref, rec, rfl, hread, -, hfresh⟩
  · refine ⟨s, rfl, ?_⟩
    have hsame : Function.update recs ptr none = recs := by rw [← hnone, Function.update_eq_self]
    rw [hsame]
    exact hstores
  · -- the record is written before its node is freed
    have hwritten := hstores.writeVal hfresh (debugLeakRecFree rec)
    have hfreed := hwritten.free (hfresh.writeVal (debugLeakRecFree rec))
    rw [Function.update_idem] at hfreed
    exact ⟨_, by dsimp only; rw [hread]; rfl, hfreed⟩

/-- A record with one more location. -/
def LeakRec.push (rec : LeakRec) (loc : LeakLoc) : LeakRec :=
  { rec with mStack := (arrayAppend LeakLoc.zero 1 rec.mStack loc).1 }

/-- The location goes to the end of the stack of a pointer that the table knows. -/
theorem debugLeakStackF_spec (h : hash.Stores keyClass_int recs) (counter : Int) (ptr : UInt64)
    (loc : LeakLoc) :
    ∃ s, debugLeakStackF ⟨some hash, counter⟩ ptr loc.file loc.line = some ⟨some s, counter⟩ ∧
      s.Stores keyClass_int (Function.update recs ptr ((recs ptr).map fun rec => rec.push loc)) := by
  obtain ⟨s, r, hget, hstores, hr⟩ := h.get ptr
  rw [id_eq] at hget
  unfold debugLeakStackF
  dsimp only [Option.bind_some]
  rw [hget]
  rcases hr with ⟨rfl, hnone⟩ | ⟨ref, rec, rfl, hread, hsome, hfresh⟩
  · refine ⟨s, rfl, ?_⟩
    rw [hnone, Option.map_none, ← hnone, Function.update_eq_self]
    exact hstores
  · dsimp only
    rw [hread, hsome]
    exact ⟨_, rfl, hstores.writeVal hfresh (rec.push loc)⟩

/-- A new record replaces the one of a pointer that is created twice. -/
theorem debugLeakCreateF_spec (addrOf : Nat → Nat) (h : hash.Stores keyClass_int recs)
    (counter : Int) (ptr : UInt64) (loc : LeakLoc) :
    ∃ s counter', debugLeakCreateF addrOf ⟨some hash, counter⟩ ptr loc.file loc.line =
        some ⟨some s, counter'⟩ ∧
      s.Stores keyClass_int (Function.update recs ptr
        (some ((debugLeakRecInit counter ptr).1.push loc))) := by
  -- the old record goes, a new one is put, and the location goes on its empty stack
  obtain ⟨s₁, hdrop, hstores₁⟩ := debugLeakRecDrop_spec h ptr
  obtain ⟨s₂, ref, hput, hstores₂⟩ :=
    hstores₁.put_null addrOf ptr (debugLeakRecInit counter ptr).1
  rw [Function.update_idem] at hstores₂
  obtain ⟨s₃, hstack, hstores₃⟩ :=
    debugLeakStackF_spec hstores₂ (debugLeakRecInit counter ptr).2 ptr loc
  rw [Function.update_idem, Function.update_self] at hstores₃
  refine ⟨s₃, (debugLeakRecInit counter ptr).2, ?_, hstores₃⟩
  rw [id_eq] at hput
  unfold debugLeakCreateF
  simp only [debugLeakInitF, Option.bind_some, hdrop, hput]
  exact hstack

end

/-- The table has a record for each live pointer, with the pointer's locations on its stack. -/
def LeakHolds (self : DebugLeak) (locs : UInt64 → Option (List LeakLoc)) : Prop :=
  ∃ hash recs, self.hash = some hash ∧ hash.Stores keyClass_int recs ∧
    ∀ ptr, (recs ptr).map (fun rec => rec.mStack.elts) = locs ptr

theorem leakHolds_init : LeakHolds (leakStart true) fun _ => none :=
  ⟨_, _, rfl, stores_hashInit keyClass_int 0 (by decide) 0, fun _ => rfl⟩

/-- An update of the record of a pointer is an update of its locations. -/
theorem map_update_recs {recs : UInt64 → Option LeakRec} {locs : UInt64 → Option (List LeakLoc)}
    (h : ∀ ptr, (recs ptr).map (fun rec => rec.mStack.elts) = locs ptr) (p : UInt64)
    (r : Option LeakRec) (ptr : UInt64) :
    (Function.update recs p r ptr).map (fun rec => rec.mStack.elts) =
      if ptr = p then r.map (fun rec => rec.mStack.elts) else locs ptr := by
  by_cases hp : ptr = p
  · rw [if_pos hp, hp, Function.update_self]
  · rw [if_neg hp, Function.update_of_ne hp, h]

/-- The step lemma: a call on the table is a call on the locations of each pointer. -/
theorem leakCall_spec (addrOf : Nat → Nat) {self : DebugLeak}
    {locs : UInt64 → Option (List LeakLoc)} (h : LeakHolds self locs) (op : LeakOp) :
    ∃ self', leakCall addrOf self op = some self' ∧
      LeakHolds self' fun ptr => locsAfter ptr (locs ptr) op := by
  obtain ⟨hash, counter⟩ := self
  obtain ⟨hash, recs, rfl, hstores, hrecs⟩ := h
  cases op with
  | create p loc =>
      obtain ⟨s, counter', hcall, hstores'⟩ := debugLeakCreateF_spec addrOf hstores counter p loc
      refine ⟨_, hcall, s, _, rfl, hstores', fun ptr => ?_⟩
      rw [map_update_recs hrecs]
      rfl
  | stack p loc =>
      obtain ⟨s, hcall, hstores'⟩ := debugLeakStackF_spec hstores counter p loc
      refine ⟨_, hcall, s, _, rfl, hstores', fun ptr => ?_⟩
      rw [map_update_recs hrecs]
      show _ = if ptr = p then (locs ptr).map (· ++ [loc]) else locs ptr
      by_cases hp : ptr = p
      · -- `array_append` puts the location behind the others
        rw [if_pos hp, if_pos hp, hp, ← hrecs p, Option.map_map, Option.map_map]
        refine congrArg (fun f => Option.map f (recs p)) (funext fun rec => ?_)
        exact elts_arrayAppend ..
      · rw [if_neg hp, if_neg hp]
  | delete p loc =>
      obtain ⟨s, hdrop, hstores'⟩ := debugLeakRecDrop_spec hstores p
      refine ⟨⟨some s, counter⟩, ?_, s, _, rfl, hstores', fun ptr => ?_⟩
      · simp only [leakCall, debugLeakDeleteF, Option.bind_some, hdrop, Option.map_some]
      · rw [map_update_recs hrecs]
        rfl

/-- The run lemma, by induction on the calls. -/
theorem leakRun_spec (addrOf : Nat → Nat) (ops : List LeakOp) {self : DebugLeak}
    {locs : UInt64 → Option (List LeakLoc)} (h : LeakHolds self locs) :
    ∃ self', leakRun addrOf self ops = some self' ∧
      LeakHolds self' fun ptr => ops.foldl (locsAfter ptr) (locs ptr) := by
  induction ops generalizing self locs with
  | nil => exact ⟨self, rfl, h⟩
  | cons op ops ih =>
      obtain ⟨self₁, hcall, h₁⟩ := leakCall_spec addrOf h op
      obtain ⟨self₂, hrun, h₂⟩ := ih h₁
      refine ⟨self₂, ?_, h₂⟩
      rw [leakRun, List.foldlM_cons, hcall]
      exact hrun

/-! ### What the walk counts -/

section
variable (addrOf : Nat → Nat)

/-- The table by line has a record for each location that is counted, with the count cut to an
`int`. -/
def lineCounts (n : LeakLoc → Nat) (loc : LeakLoc) : Option LeakByLine :=
  if n loc = 0 then none else some ⟨loc.file, loc.line, toInt32 (n loc)⟩

/-- One more for a location is an update. -/
theorem lineCounts_succ (n : LeakLoc → Nat) (loc : LeakLoc) :
    Function.update (lineCounts n) loc (some ⟨loc.file, loc.line, toInt32 (n loc + 1)⟩) =
      lineCounts (Function.update n loc (n loc + 1)) := by
  funext loc'
  unfold lineCounts
  by_cases hloc : loc' = loc
  · rw [hloc, Function.update_self, Function.update_self, if_neg (Nat.succ_ne_zero _)]
    rfl
  · rw [Function.update_of_ne hloc, Function.update_of_ne hloc]

/-- A location is counted once more, whether the table has a record for it or not. -/
theorem leakByLineCount_spec {byLine : HashT LeakByLine LeakByLine} {n : LeakLoc → Nat}
    (h : byLine.Stores keyClass_byLine (lineCounts n)) (loc : LeakLoc) :
    (leakByLineCount addrOf byLine loc).Stores keyClass_byLine
      (lineCounts (Function.update n loc (n loc + 1))) := by
  obtain ⟨s, r, hget, hstores, hr⟩ := h.get loc
  unfold leakByLineCount
  dsimp only
  rw [hget]
  rcases hr with ⟨rfl, hnone⟩ | ⟨ref, r, rfl, hread, hsome, hfresh⟩
  · -- the first one: the record is put with a count of 0
    have hzero : n loc = 0 := by
      by_contra hne
      exact absurd hnone (by rw [lineCounts, if_neg hne]; simp)
    obtain ⟨s', ref, hput, hread, hfresh, hstores'⟩ :=
      hstores.put addrOf loc ⟨loc.file, loc.line, 0⟩
    have hwritten := hstores'.writeVal hfresh ⟨loc.file, loc.line, toInt32 (n loc + 1)⟩
    rw [Function.update_idem, lineCounts_succ] at hwritten
    rw [hzero] at hwritten ⊢
    dsimp only
    rw [hput]
    dsimp only
    rw [hread]
    exact hwritten
  · have hne : n loc ≠ 0 := by
      intro h0
      rw [lineCounts, if_pos h0] at hsome
      exact absurd hsome (by simp)
    rw [lineCounts, if_neg hne, Option.some.injEq] at hsome
    have hwritten := hstores.writeVal hfresh ⟨loc.file, loc.line, toInt32 (n loc + 1)⟩
    rw [lineCounts_succ] at hwritten
    dsimp only
    rw [hread, ← hsome]
    dsimp only
    rw [toInt32_succ]
    exact hwritten

/-- The location that a walk counts for an entry of the table. -/
def firstLoc (e : UInt64 × Option LeakRec) : Option LeakLoc :=
  e.2.bind fun rec => arrayElt rec.mStack 0

/-- What a call of the walk does for an entry. -/
def countEntry (byLine : HashT LeakByLine LeakByLine) (e : UInt64 × Option LeakRec) :
    HashT LeakByLine LeakByLine :=
  match firstLoc e with
  | none     => byLine
  | some loc => leakByLineCount addrOf byLine loc

/-- The callback leaves the table it is called on. -/
theorem visits_debugLeakByLineForeachHash :
    Visits (debugLeakByLineForeachHash addrOf) (countEntry addrOf) := by
  intro t ref byLine e he
  obtain ⟨k, -, rfl⟩ := Option.map_eq_some_iff.mp he
  unfold debugLeakByLineForeachHash countEntry firstLoc
  dsimp only
  cases (t.readVal ref).bind fun rec => arrayElt rec.mStack 0 with
  | none     => rfl
  | some loc => rfl

/-- The counts behind the entries of a walk. -/
theorem countEntries_spec (entries : List (UInt64 × Option LeakRec))
    {byLine : HashT LeakByLine LeakByLine} {n : LeakLoc → Nat}
    (h : byLine.Stores keyClass_byLine (lineCounts n)) :
    (entries.foldl (countEntry addrOf) byLine).Stores keyClass_byLine
      (lineCounts fun loc => n loc + entries.countP fun e => firstLoc e = some loc) := by
  induction entries generalizing byLine n with
  | nil => exact h
  | cons e entries ih =>
      rw [List.foldl_cons]
      cases he : firstLoc e with
      | none =>
          -- an empty stack is not counted
          have hstep := ih h
          have hcall : countEntry addrOf byLine e = byLine := by rw [countEntry, he]
          have hcounts : ∀ loc, (e :: entries).countP (fun e => firstLoc e = some loc) =
              entries.countP fun e => firstLoc e = some loc := by
            intro loc
            exact List.countP_cons_of_neg (by simp [he])
          simp only [hcall, hcounts]
          exact hstep
      | some first =>
          have hstep := ih (leakByLineCount_spec addrOf h first)
          have hcall : countEntry addrOf byLine e = leakByLineCount addrOf byLine first := by
            rw [countEntry, he]
          have hcounts : (fun loc => n loc +
              (e :: entries).countP fun e => firstLoc e = some loc) =
              fun loc => Function.update n first (n first + 1) loc +
                entries.countP fun e => firstLoc e = some loc := by
            funext loc
            by_cases hloc : loc = first
            · rw [hloc, Function.update_self, List.countP_cons_of_pos (by simp [he])]
              omega
            · rw [Function.update_of_ne hloc, List.countP_cons_of_neg]
              rw [he]
              simpa using fun h => hloc h.symm
          rw [hcall, hcounts]
          exact hstep

end

/-! ### The accounting behind a run -/

/-- The element at 0 is the head. -/
theorem arrayElt_zero {α : Type} (arr : ArrayT α) : arrayElt arr 0 = arr.elts.head? := by
  cases helts : arr.elts with
  | nil =>
      have hget : arrayGet arr (0 : Nat) = none := by
        rw [arrayGet, arrayWrap_natCast, if_pos (Or.inr (by simp [arrayCount, helts]))]
      exact congrArg (Option.bind · _) hget
  | cons x xs =>
      have hget : arrayGet arr (0 : Nat) = some 0 :=
        arrayGet_of_lt arr 0 (by rw [helts]; exact Nat.succ_pos _)
      refine (congrArg (Option.bind · _) hget).trans ?_
      rw [Option.bind_some, helts]
      rfl

section
variable {hash : HashT UInt64 LeakRec} {recs : UInt64 → Option LeakRec} {ops : List LeakOp}

/-- The entries whose first location is `loc` are those of the live pointers that were created
there. -/
theorem countP_firstLoc (h : hash.Stores keyClass_int recs)
    (hrecs : ∀ ptr, (recs ptr).map (fun rec => rec.mStack.elts) = liveLocs ops ptr)
    {entries : List (UInt64 × Option LeakRec)} (hperm : entries.Perm hash.entries)
    (loc : LeakLoc) :
    entries.countP (fun e => firstLoc e = some loc) = (liveAt ops loc).ncard := by
  have hnodup : (entries.map fun e => e.1).Nodup := h.nodup hperm
  have hset : liveAt ops loc =
      (((entries.filter fun e => firstLoc e = some loc).map fun e => e.1).toFinset : Set UInt64) := by
    ext ptr
    rw [List.coe_toFinset]
    simp only [liveAt, Set.mem_ofPred_eq, List.mem_map, List.mem_filter, decide_eq_true_eq,
      hperm.mem_iff, h.mem_entries]
    constructor
    · rintro ⟨rest, hlive⟩
      rw [← hrecs] at hlive
      -- a live pointer has a record, and its entry is in the table
      obtain ⟨rec, hrec, helts⟩ := Option.map_eq_some_iff.mp hlive
      refine ⟨(ptr, some rec), ⟨⟨ptr, rec, hrec, rfl⟩, ?_⟩, rfl⟩
      show arrayElt rec.mStack 0 = some loc
      rw [arrayElt_zero, helts]
      rfl
    · rintro ⟨_, ⟨⟨p, rec, hrec, rfl⟩, hfirst⟩, rfl⟩
      change arrayElt rec.mStack 0 = some loc at hfirst
      rw [arrayElt_zero] at hfirst
      obtain ⟨rest, helts⟩ := List.head?_eq_some_iff.mp hfirst
      refine ⟨rest, ?_⟩
      show liveLocs ops p = _
      rw [← hrecs, hrec, Option.map_some, helts]
  rw [hset, Set.ncard_coe_finset, List.toFinset_card_of_nodup, List.length_map,
    List.countP_eq_length_filter]
  exact hnodup.sublist (List.Sublist.map _ List.filter_sublist)

end

section
variable {self : DebugLeak} {ops : List LeakOp}

/-- What the table finds for a pointer is where it was allocated. -/
theorem LeakHolds.found (h : LeakHolds self (liveLocs ops)) (ptr : UInt64) :
    leakFound self ptr = liveLocs ops ptr := by
  obtain ⟨hash, recs, hhash, hstores, hrecs⟩ := h
  have hentry : hashGetEntry hash ptr = (recs ptr).map fun rec => (ptr, some rec) :=
    hstores.entry ptr
  rw [leakFound, hhash, Option.bind_some, hentry, ← hrecs]
  cases recs ptr <;> rfl

/-- The pointers listed are the live ones, each once. -/
theorem LeakHolds.listed (h : LeakHolds self (liveLocs ops)) :
    (leakPtrs self).Nodup ∧ ∀ ptr, ptr ∈ leakPtrs self ↔ (liveLocs ops ptr).isSome := by
  obtain ⟨hash, recs, hhash, hstores, hrecs⟩ := h
  have hperm := perm_hashEntries hstores.wf
  rw [leakPtrs, hhash]
  refine ⟨hstores.nodup hperm, fun ptr => ?_⟩
  rw [← hrecs, Option.isSome_map, Option.map_some, Option.getD_some, List.mem_map]
  constructor
  · rintro ⟨e, he, rfl⟩
    obtain ⟨p, rec, hrec, rfl⟩ := (hstores.mem_entries e).mp (hperm.mem_iff.mp he)
    show (recs p).isSome
    rw [hrec]
    rfl
  · intro hsome
    obtain ⟨rec, hrec⟩ := Option.isSome_iff_exists.mp hsome
    exact ⟨_, hperm.mem_iff.mpr ((hstores.mem_entries _).mpr ⟨ptr, rec, hrec, rfl⟩), rfl⟩

/-- The counts by line, each cut to an `int`. -/
theorem LeakHolds.counted (addrOf : Nat → Nat) (h : LeakHolds self (liveLocs ops))
    (loc : LeakLoc) :
    leakLineCount (debugLeakByLineF addrOf self) loc =
      if (liveAt ops loc).ncard = 0 then none else some (toInt32 (liveAt ops loc).ncard) := by
  obtain ⟨hash, recs, hhash, hstores, hrecs⟩ := h
  obtain ⟨s, entries, hwalk, hperm, -⟩ :=
    hashForeach_spec (visits_debugLeakByLineForeachHash addrOf) hstores.wf leakByLineInit
  have hnone : lineCounts (fun _ => 0) = fun _ => none := funext fun _ => if_pos rfl
  -- the table by line starts empty, with no location counted
  have hinit : leakByLineInit.Stores keyClass_byLine (lineCounts fun _ => 0) := by
    rw [hnone]
    exact stores_hashInit keyClass_byLine leakByLineSize (show leakByLineSize ≠ 0 by decide) 0
  have hcounts := (countEntries_spec addrOf entries hinit).entry loc
  have hcount := countP_firstLoc hstores hrecs hperm loc
  unfold leakLineCount debugLeakByLineF
  rw [hhash]
  dsimp only
  rw [hwalk, hcounts]
  simp only [lineCounts, Nat.zero_add, hcount]
  by_cases h0 : (liveAt ops loc).ncard = 0
  · simp only [h0, if_true, Option.map_none, Option.bind_none]
  · simp only [h0, if_false, Option.map_some, Option.bind_some]

/-- Nothing is left out of a count below `2 ^ 31`. -/
theorem LeakHolds.exact_iff (addrOf : Nat → Nat) (h : LeakHolds self (liveLocs ops)) :
    LeakExact addrOf ops self ↔ ∀ loc, (liveAt ops loc).ncard < 2 ^ 31 := by
  constructor
  · intro hexact loc
    have hcount := (h.counted addrOf loc).symm.trans (hexact.counted loc)
    by_cases h0 : (liveAt ops loc).ncard = 0
    · rw [h0]
      decide
    · rw [if_neg h0, if_neg h0, Option.some.injEq] at hcount
      -- a count that was cut is below `2 ^ 31`, and so is the true one when they agree
      have hlt := (toInt32_range (liveAt ops loc).ncard).2
      omega
  · intro hlt
    refine ⟨h.found, h.listed, fun loc => ?_⟩
    have hloc := hlt loc
    rw [h.counted, toInt32_eq_self (by omega) (by omega)]

end

/-! ### The first call -/

theorem liveAt_nil (loc : LeakLoc) : liveAt [] loc = ∅ := by
  ext ptr
  simp [liveAt, liveLocs]

/-- The zeroed table holds what it should hold before any call. -/
theorem leakExact_nil (addrOf : Nat → Nat) : LeakExact addrOf [] (leakStart false) := by
  refine ⟨fun _ => rfl, ⟨List.nodup_nil, fun ptr => by simp [leakPtrs, leakStart, liveLocs,
    DebugLeak.static]⟩, fun loc => ?_⟩
  have hentry := (stores_hashInit (ν := LeakByLine) keyClass_byLine leakByLineSize
    (show leakByLineSize ≠ 0 by decide) 0).entry loc
  rw [liveAt_nil, Set.ncard_empty, if_pos rfl]
  show leakLineCount leakByLineInit loc = none
  rw [leakLineCount]
  exact congrArg (fun e => Option.map LeakByLine.count (Option.bind e Prod.snd)) hentry

/-- `debug_leak_create_f` initialises the table itself. -/
theorem leakRun_create (addrOf : Nat → Nat) (inited : Bool) {op : LeakOp} (hop : op.isCreate = true)
    (ops : List LeakOp) :
    leakRun addrOf (leakStart inited) (op :: ops) = leakRun addrOf (leakStart true) (op :: ops) := by
  cases op with
  | create ptr loc => cases inited <;> rfl
  | stack ptr loc  => exact absurd hop Bool.false_ne_true
  | delete ptr loc => exact absurd hop Bool.false_ne_true

/-- The other calls need a hash function, which the zeroed table does not have. -/
theorem leakRun_zeroed (addrOf : Nat → Nat) {op : LeakOp} (hop : op.isCreate = false)
    (ops : List LeakOp) : leakRun addrOf (leakStart false) (op :: ops) = none := by
  cases op with
  | create ptr loc => exact absurd hop.symm Bool.false_ne_true
  | stack ptr loc  => rfl
  | delete ptr loc => rfl

/-- The accounting is exact behind a sequence of calls if and only if the table is initialised before
the first call that is not `debug_leak_create_f`, and each count by line fits an `int`. `inited`
says whether `debug_leak_init_f` has been called before. -/
theorem debugLeak_exact_iff (addrOf : Nat → Nat) (inited : Bool) (ops : List LeakOp) :
    (∃ self, leakRun addrOf (leakStart inited) ops = some self ∧ LeakExact addrOf ops self) ↔
      (inited = true ∨ ∀ op, ops.head? = some op → op.isCreate = true) ∧
        ∀ loc, (liveAt ops loc).ncard < 2 ^ 31 := by
  have hinited : leakRun addrOf (leakStart inited) ops = leakRun addrOf (leakStart true) ops →
      ((∃ self, leakRun addrOf (leakStart inited) ops = some self ∧ LeakExact addrOf ops self) ↔
        ∀ loc, (liveAt ops loc).ncard < 2 ^ 31) := by
    intro hrun
    -- from the initialised table on, every call has a result
    obtain ⟨self, hself, hholds⟩ := leakRun_spec addrOf ops leakHolds_init
    rw [hrun, hself]
    constructor
    · rintro ⟨_, hsome, hexact⟩
      obtain rfl := Option.some.inj hsome
      exact (hholds.exact_iff addrOf).mp hexact
    · exact fun hlt => ⟨self, rfl, (hholds.exact_iff addrOf).mpr hlt⟩
  cases inited with
  | true => rw [hinited rfl, and_iff_right (Or.inl rfl)]
  | false =>
      cases ops with
      | nil =>
          -- no call at all
          refine iff_of_true ⟨_, rfl, leakExact_nil addrOf⟩ ⟨Or.inr (by simp), fun loc => ?_⟩
          rw [liveAt_nil, Set.ncard_empty]
          decide
      | cons op ops =>
          cases hop : op.isCreate with
          | true =>
              rw [hinited (leakRun_create addrOf false hop ops), and_iff_right]
              exact Or.inr fun op' hop' => by rw [← Option.some.inj hop']; exact hop
          | false =>
              rw [leakRun_zeroed addrOf hop ops]
              refine iff_of_false ?_ ?_
              · rintro ⟨self, hself, -⟩
                exact absurd hself (Option.some_ne_none self).symm
              · rintro ⟨hinit | hcreate, -⟩
                · exact absurd hinit (by decide)
                · exact Bool.false_ne_true (hop.symm.trans (hcreate op rfl))

/-- The deletion of an unknown pointer as the first call of a program has no result. -/
theorem debugLeak_unknown_delete :
    leakRun id (leakStart false) [.delete 4096 ⟨bytes "main.c", 7⟩] = none ∧
      ¬∃ self, leakRun id (leakStart false) [.delete 4096 ⟨bytes "main.c", 7⟩] = some self ∧
        LeakExact id [.delete 4096 ⟨bytes "main.c", 7⟩] self :=
  ⟨rfl, fun ⟨self, hself, _⟩ => absurd hself (Option.some_ne_none self).symm⟩

end Bklib
