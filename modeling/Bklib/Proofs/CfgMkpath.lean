import Bklib.Proofs.CfgStore

/-!
# `Bklib.Proofs.CfgMkpath`: when a value can be put

`dir_mkpath` makes the directories in front of the last separator, and then says that it failed unless
`errno` is `EEXIST`. A directory that is made leaves `errno`, so what counts is whether one of them was
there before, or `errno` was `EEXIST` from another call (`dirMkpath_plain`). Where all that is needed
is permitted, this decides whether `cfg_put` stores a value. If it does not, the directories are there
now, and the next call stores it (`cfg_put_plain`).
-/

set_option autoImplicit false

namespace Bklib

open Lib

/-! ## Plain paths -/

/-- A name without separators that is no name of a directory relative to another. -/
structure PlainName (n : FileName) : Prop where
  ne_nil  : n ≠ []
  ne_dot  : n ≠ bytes "."
  ne_dots : n ≠ bytes ".."
  no_sep  : ∀ ch ∈ n, ch ∉ pathSep

theorem plainName_iff {n : FileName} : PlainName n ↔
    n ≠ [] ∧ n ≠ bytes "." ∧ n ≠ bytes ".." ∧ ∀ ch ∈ n, ch ∉ pathSep :=
  ⟨fun h => ⟨h.ne_nil, h.ne_dot, h.ne_dots, h.no_sep⟩, fun h => ⟨h.1, h.2.1, h.2.2.1, h.2.2.2⟩⟩

/-- The absolute path with these names. -/
def pathText : List FileName → List UInt8
  | []      => []
  | n :: ns => 47 :: (n ++ pathText ns)

@[simp] theorem pathText_append (ns ms : List FileName) :
    pathText (ns ++ ms) = pathText ns ++ pathText ms := by
  induction ns with
  | nil => rfl
  | cons n ns ih => rw [List.cons_append, pathText, ih, pathText, List.cons_append, List.append_assoc]

theorem pathText_ne_nil {ns : List FileName} (h : ns ≠ []) : pathText ns ≠ [] := by
  cases ns with
  | nil => exact absurd rfl h
  | cons n ns => exact List.cons_ne_nil _ _

theorem hops_append (xs ys : List UInt8) : hops (xs ++ 47 :: ys) = hops xs ++ hops ys := by
  have hsplit : (xs ++ 47 :: ys).splitOn 47 = xs.splitOn 47 ++ ys.splitOn 47 :=
    List.splitOnP_append_cons xs ys (by decide)
  rw [hops, hsplit, List.filterMap_append]
  rfl

theorem PlainName.no_slash {n : FileName} (h : PlainName n) : ∀ ch ∈ n, (ch == 47) = false := by
  intro ch hch
  rw [beq_eq_false_iff_ne]
  intro heq
  exact h.no_sep ch hch (by rw [heq]; decide)

theorem hops_plain {n : FileName} (h : PlainName n) : hops n = [.down n] := by
  have hsplit : n.splitOn 47 = [n] := List.splitOnP_eq_singleton h.no_slash
  rw [hops, hsplit, List.filterMap_cons, nameHop, if_neg h.ne_nil, if_neg h.ne_dot, if_neg h.ne_dots]
  rfl

/-- Plain names joined by one slash each are one hop down for each name. -/
theorem hops_plains {ns : List FileName} (hns : ∀ n ∈ ns, PlainName n) :
    ∀ {n : FileName}, PlainName n → hops (n ++ pathText ns) = .down n :: ns.map .down := by
  induction ns with
  | nil =>
      intro n h
      rw [pathText, List.append_nil, hops_plain h, List.map_nil]
  | cons m ms ih =>
      intro n h
      have hrest := ih (fun k hk => hns k (List.mem_cons_of_mem _ hk)) (hns m List.mem_cons_self)
      rw [pathText, hops_append, hops_plain h, hrest]
      rfl

/-- The hops of a plain path are its names. -/
theorem hops_pathText {ns : List FileName} (hns : ∀ n ∈ ns, PlainName n) :
    hops (pathText ns) = ns.map .down := by
  cases ns with
  | nil => rfl
  | cons n ns =>
      have hsplit := hops_append [] (n ++ pathText ns)
      have hrest := hops_plains (fun k hk => hns k (List.mem_cons_of_mem _ hk))
        (hns n List.mem_cons_self)
      rw [hrest, List.nil_append] at hsplit
      exact hsplit

/-- Hops down go along their names. -/
theorem move_downs (ns : List FileName) (p : List FileName) :
    (ns.map Hop.down).foldl Hop.move p = p ++ ns := by
  induction ns generalizing p with
  | nil => exact (List.append_nil p).symm
  | cons n ns ih =>
      rw [List.map_cons, List.foldl_cons, ih, Hop.move, List.append_assoc]
      rfl

theorem base_pathText (e : FileEnv) {ns : List FileName} (h : ns ≠ []) :
    e.base (pathText ns) = [] := by
  cases ns with
  | nil => exact absurd rfl h
  | cons n ns => rfl

/-- A plain path names what it says, whether it is there or not. -/
theorem target_pathText (e : FileEnv) {ns : List FileName} (h : ns ≠ [])
    (hns : ∀ n ∈ ns, PlainName n) : e.target (pathText ns) = ns := by
  rw [FileEnv.target, hops_pathText hns, base_pathText e h, move_downs, List.nil_append]

/-- A plain path does not end in a separator. -/
theorem slashed_pathText {ns : List FileName} (h : ns ≠ []) (hns : ∀ n ∈ ns, PlainName n) :
    slashed (pathText ns) = false := by
  obtain ⟨ms, m, rfl⟩ := (List.eq_nil_or_concat' ns).resolve_left h
  have hm := hns m (List.mem_append_right _ (List.mem_singleton_self m))
  obtain ⟨ks, k, rfl⟩ := (List.eq_nil_or_concat' m).resolve_left hm.ne_nil
  have htext : pathText (ms ++ [ks ++ [k]]) = pathText ms ++ 47 :: ks ++ [k] := by
    rw [pathText_append, pathText, pathText, List.append_nil, List.append_assoc]
    rfl
  have hk := hm.no_slash k (List.mem_append_right _ (List.mem_singleton_self k))
  rw [slashed, htext, List.getLast?_concat]
  exact hk

/-- A walk down through directories. -/
theorem walk_downs {t : FileTree FileName UInt8} (ns : List FileName) :
    ∀ {p : List FileName}, (∀ k < ns.length, t.entry (p ++ ns.take k) = some .dir) →
      t.walk p (ns.map .down) = some (p ++ ns) := by
  induction ns with
  | nil => intro p _; rw [List.append_nil]; rfl
  | cons n ns ih =>
      intro p hdirs
      have hp := hdirs 0 (Nat.succ_pos _)
      rw [List.take_zero, List.append_nil] at hp
      have hrest : ∀ k < ns.length, t.entry ((p ++ [n]) ++ ns.take k) = some .dir := by
        intro k hk
        have hnext := hdirs (k + 1) (Nat.succ_lt_succ hk)
        rwa [List.take_succ_cons, List.append_cons] at hnext
      rw [List.map_cons, FileTree.walk, if_pos (Entry.isDir_iff.mpr hp), Hop.move, ih hrest,
        List.append_assoc]
      rfl

/-- A plain path leads to its names where all directories above are there. -/
theorem locate_pathText {e : FileEnv} {s : FileSys} {ns : List FileName} (h : ns ≠ [])
    (hns : ∀ n ∈ ns, PlainName n) (hdirs : ∀ k < ns.length, s.tree.entry (ns.take k) = some .dir) :
    s.locate e (pathText ns) = some ns := by
  have hroot : Entry.isDir (s.tree.entry []) = true := Entry.isDir_iff.mpr s.tree.root
  rw [FileSys.locate, base_pathText e h, hroot, if_neg (by simp [pathText_ne_nil h]),
    hops_pathText hns, walk_downs ns (by simpa using hdirs), List.nil_append]

/-! ## `dir_mkpath` -/

variable {e : FileEnv} {c : Cfg} {s : FileSys} {ns : List FileName}

/-- A directory that is there or can be made. -/
def DirReady (e : FileEnv) (s : FileSys) (p : List FileName) : Prop :=
  s.tree.entry p = some .dir ∨ s.tree.entry p = none ∧ e.creatable p = true

/-- `mkdir` of a directory that is ready: it is there then, and `errno` says if it was there before. -/
theorem mkdir_ready {done : List FileName} (hne : done ≠ []) (hdone : ∀ n ∈ done, PlainName n)
    (hdirs : ∀ k < done.length, s.tree.entry (done.take k) = some .dir) (hready : DirReady e s done) :
    ((s.mkdir e (pathText done)).1.tree.entry done = some .dir ∧
      ∀ q, q ≠ done → (s.mkdir e (pathText done)).1.tree.entry q = s.tree.entry q) ∧
    ((s.mkdir e (pathText done)).1.errno = .exist ↔
      s.errno = .exist ∨ s.tree.entry done = some .dir) := by
  have hlocate : s.locate e (pathText done) = some done := locate_pathText hne hdone hdirs
  unfold FileSys.mkdir
  rw [hlocate]
  rcases hready with hdir | ⟨hnone, hcreatable⟩
  · simp only [hdir, or_true, iff_true]
    exact ⟨⟨hdir, fun _ _ => rfl⟩, rfl⟩
  · have hleaf := FileSys.leaf_of_locate hlocate (by rw [hnone]; exact fun heq => by cases heq)
    have hno : ¬ (none : Option (Entry UInt8)) = some .dir := fun heq => by cases heq
    simp only [hnone, hcreatable, if_true, hno, or_false]
    exact ⟨⟨FileTree.put_self hleaf _, fun q hq => FileTree.put_other _ _ hq⟩, trivial⟩

/-- Characters between separators are passed. -/
theorem dirMkpathLoop_name (e : FileEnv) (n : List UInt8) (hn : ∀ ch ∈ n, ch ∉ pathSep)
    (rest : List UInt8) : ∀ (done : List UInt8) (s : FileSys),
    dirMkpathLoop e done (n ++ rest) s = dirMkpathLoop e (done ++ n) rest s := by
  induction n with
  | nil => intro done s; rw [List.nil_append, List.append_nil]
  | cons ch n ih =>
      intro done s
      have hch : ch ∉ pathSep := hn ch List.mem_cons_self
      have hrest := ih (fun k hk => hn k (List.mem_cons_of_mem _ hk)) (done ++ [ch]) s
      rw [List.cons_append, dirMkpathLoop, if_neg fun h => hch h.2, hrest, List.append_assoc]
      rfl

/-- What the loop leaves behind the names `done` of `ns`: the directories on the way are there, and
nothing else has changed. `errno` says if one of them was there before. -/
structure DirsMade (s s' : FileSys) (ns done : List FileName) : Prop where
  dirs  : ∀ k < ns.length, s'.tree.entry (ns.take k) = some .dir
  other : ∀ q, (∀ k < ns.length, q ≠ ns.take k) → s'.tree.entry q = s.tree.entry q
  errno : s'.errno = .exist ↔ s.errno = .exist ∨
    ∃ k, 0 < k ∧ done.length ≤ k ∧ k < ns.length ∧ s.tree.entry (ns.take k) = some .dir

/-- The state behind the separator that follows `done`. In front of the first name nothing is made. -/
theorem mkpath_step {done : List FileName} (hdone : ∀ n ∈ done, PlainName n)
    (hdirs : ∀ k < done.length, s.tree.entry (done.take k) = some .dir) (hready : DirReady e s done) :
    ∃ s₁, (if pathText done ≠ [] then (s.mkdir e (pathText done)).1 else s) = s₁ ∧
      s₁.tree.entry done = some .dir ∧ (∀ q, q ≠ done → s₁.tree.entry q = s.tree.entry q) ∧
      (s₁.errno = .exist ↔ s.errno = .exist ∨ 0 < done.length ∧ s.tree.entry done = some .dir) := by
  by_cases hne : done = []
  · subst hne
    exact ⟨s, if_neg (not_not.mpr rfl), s.tree.root, fun _ _ => rfl, by simp⟩
  · obtain ⟨⟨hdir, hother⟩, herrno⟩ := mkdir_ready hne hdone hdirs hready
    have hpos : 0 < done.length := List.length_pos_iff.mpr hne
    exact ⟨_, if_pos (pathText_ne_nil hne), hdir, hother, by simp only [herrno, hpos, true_and]⟩

/-- First parts of different lengths are different. -/
theorem take_ne_of_length {ns : List FileName} {j k : Nat} (hj : j ≤ ns.length) (hk : k ≤ ns.length)
    (hne : j ≠ k) : ns.take j ≠ ns.take k := by
  intro heq
  have hlen := congrArg List.length heq
  rw [List.length_take, List.length_take] at hlen
  omega

/-- One more separator, in front of all that follows. -/
theorem DirsMade.cons {s₁ s' : FileSys} {done : List FileName} {n : FileName}
    (hlt : done.length < ns.length) (htake : ns.take done.length = done)
    (hother : ∀ q, q ≠ done → s₁.tree.entry q = s.tree.entry q)
    (herrno : s₁.errno = .exist ↔ s.errno = .exist ∨ 0 < done.length ∧ s.tree.entry done = some .dir)
    (h : DirsMade s₁ s' ns (done ++ [n])) : DirsMade s s' ns done := by
  have hsame : ∀ k, done.length < k → k < ns.length →
      s₁.tree.entry (ns.take k) = s.tree.entry (ns.take k) := by
    intro k hk hk'
    have hne := take_ne_of_length (Nat.le_of_lt hk') (Nat.le_of_lt hlt) (Nat.ne_of_gt hk)
    rw [htake] at hne
    exact hother _ hne
  refine ⟨h.dirs, fun q hq => ?_, ?_⟩
  · have hne := hq done.length hlt
    rw [htake] at hne
    exact (h.other q hq).trans (hother q hne)
  · rw [h.errno, herrno, List.length_append, List.length_singleton]
    constructor
    · rintro ((hexist | ⟨hpos, hdir⟩) | ⟨k, hpos, hle, hk, hdir⟩)
      · exact Or.inl hexist
      · exact Or.inr ⟨done.length, hpos, Nat.le_refl _, hlt, by rw [htake]; exact hdir⟩
      · exact Or.inr ⟨k, hpos, by omega, hk, by rw [← hsame k (by omega) hk]; exact hdir⟩
    · rintro (hexist | ⟨k, hpos, hle, hk, hdir⟩)
      · exact Or.inl (Or.inl hexist)
      · rcases Nat.eq_or_lt_of_le hle with rfl | hlt'
        · rw [htake] at hdir
          exact Or.inl (Or.inr ⟨hpos, hdir⟩)
        · exact Or.inr ⟨k, hpos, hlt', hk, by rw [hsame k hlt' hk]; exact hdir⟩

/-- The induction is on the names that are left. -/
theorem dirMkpathLoop_made (e : FileEnv) (rest : List FileName) :
    ∀ (done : List FileName) (s : FileSys), (∀ n ∈ done ++ rest, PlainName n) →
      (∀ k < done.length, s.tree.entry (done.take k) = some .dir) →
      (∀ k, done.length ≤ k → k < (done ++ rest).length →
        DirReady e s ((done ++ rest).take k)) →
      DirsMade s (dirMkpathLoop e (pathText done) (pathText rest) s) (done ++ rest) done := by
  induction rest with
  | nil =>
      intro done s _ hdirs _
      rw [List.append_nil, pathText, dirMkpathLoop]
      refine ⟨hdirs, fun _ _ => rfl, ?_⟩
      rw [iff_self_or]
      rintro ⟨k, -, hle, hlt, -⟩
      omega
  | cons n rest ih =>
      intro done s hplain hdirs hready
      have hn : PlainName n := hplain n (by simp)
      have happ : done ++ n :: rest = (done ++ [n]) ++ rest := List.append_cons done n rest
      have htake : (done ++ n :: rest).take done.length = done := List.take_left
      have hsep : (47 : UInt8) ∈ pathSep := by decide
      have hlen : done.length < (done ++ n :: rest).length := by simp
      have hhere := hready done.length (Nat.le_refl _) hlen
      rw [htake] at hhere
      obtain ⟨s₁, hs₁, hdir, hother, herrno⟩ :=
        mkpath_step (fun k hk => hplain k (List.mem_append_left _ hk)) hdirs hhere
      -- The loop stops at the separator in front of `n`, and then passes `n`.
      have hloop : dirMkpathLoop e (pathText done) (pathText (n :: rest)) s =
          dirMkpathLoop e (pathText (done ++ [n])) (pathText rest) s₁ := by
        rw [pathText, dirMkpathLoop, dirMkpathLoop_name e n hn.no_sep, pathText_append, pathText,
          pathText, List.append_nil, List.append_assoc, ← hs₁]
        simp only [hsep, and_true]
        rfl
      have hsame : ∀ k ≤ (done ++ n :: rest).length, k ≠ done.length →
          s₁.tree.entry ((done ++ n :: rest).take k) = s.tree.entry ((done ++ n :: rest).take k) := by
        intro k hk hne
        have htake' := take_ne_of_length hk (Nat.le_of_lt hlen) hne
        rw [htake] at htake'
        exact hother _ htake'
      have hdirs₁ : ∀ k < (done ++ [n]).length, s₁.tree.entry ((done ++ [n]).take k) = some .dir := by
        intro k hk
        rw [List.length_append, List.length_singleton] at hk
        rw [List.take_append_of_le_length (by omega)]
        rcases Nat.eq_or_lt_of_le (Nat.le_of_lt_succ hk) with rfl | hlt
        · rw [List.take_length]
          exact hdir
        · have hk' := hsame k (by omega) (by omega)
          rw [List.take_append_of_le_length (by omega)] at hk'
          rw [hk']
          exact hdirs k hlt
      have hready₁ : ∀ k, (done ++ [n]).length ≤ k → k < ((done ++ [n]) ++ rest).length →
          DirReady e s₁ (((done ++ [n]) ++ rest).take k) := by
        intro k hle hlt
        rw [← happ] at hlt ⊢
        rw [List.length_append, List.length_singleton] at hle
        rw [DirReady, hsame k (Nat.le_of_lt hlt) (by omega)]
        exact hready k (by omega) hlt
      have hmade := ih (done ++ [n]) s₁ (by rw [← happ]; exact hplain) hdirs₁ hready₁
      rw [← happ, ← hloop] at hmade
      exact hmade.cons hlen htake hother herrno

/-- `errno` is `EEXIST`, or the first directory on the way is there. -/
def FileSys.finds (s : FileSys) (ns : List FileName) : Bool :=
  s.errno = .exist ∨ 1 < ns.length ∧ Entry.isDir (s.tree.entry (ns.take 1)) = true

theorem FileSys.finds_iff : s.finds ns = true ↔
    s.errno = .exist ∨ 1 < ns.length ∧ s.tree.entry (ns.take 1) = some .dir := by
  rw [finds, decide_eq_true_iff, Entry.isDir_iff]

/-- `dir_mkpath` of a path on which each directory is there or can be made. -/
theorem dirMkpath_plain (e : FileEnv) (s : FileSys) (hns : ∀ n ∈ ns, PlainName n)
    (hready : ∀ k, 0 < k → k < ns.length → DirReady e s (ns.take k)) :
    DirsMade s (dirMkpath e s (pathText ns) false).1 ns [] ∧
      (dirMkpath e s (pathText ns) false).2 =
        if s.finds ns then 0 else -1 := by
  have hready₀ : ∀ k, ([] : List FileName).length ≤ k → k < ([] ++ ns).length →
      DirReady e s (([] ++ ns).take k) := by
    intro k _ hk
    rcases Nat.eq_zero_or_pos k with rfl | hpos
    · exact Or.inl s.tree.root
    · exact hready k hpos hk
  have hmade := dirMkpathLoop_made e ns [] s hns (fun k hk => absurd hk (Nat.not_lt_zero k)) hready₀
  rw [List.nil_append, pathText] at hmade
  -- If one of the directories was there, the first one was.
  have hfirst : (∃ k, 0 < k ∧ ([] : List FileName).length ≤ k ∧ k < ns.length ∧
      s.tree.entry (ns.take k) = some .dir) ↔
        1 < ns.length ∧ s.tree.entry (ns.take 1) = some .dir := by
    constructor
    · rintro ⟨k, hpos, -, hk, hdir⟩
      refine ⟨by omega, ?_⟩
      rcases Nat.eq_or_lt_of_le (Nat.succ_le_of_lt hpos) with rfl | hlt
      · exact hdir
      · have hsplit : ns.take k = ns.take 1 ++ (ns.take k).drop 1 := by
          have htake := List.take_append_drop 1 (ns.take k)
          rw [List.take_take, Nat.min_eq_left (Nat.le_of_lt hlt)] at htake
          exact htake.symm
        have hrest : (ns.take k).drop 1 ≠ [] := by
          rw [← List.length_pos_iff, List.length_drop, List.length_take]
          omega
        refine FileTree.entry_of_append hrest ?_
        rw [← hsplit, hdir]
        exact Option.some_ne_none _
    · rintro ⟨hlt, hdir⟩
      exact ⟨1, Nat.one_pos, Nat.zero_le _, hlt, hdir⟩
  have herrno := hmade.errno
  rw [hfirst, ← FileSys.finds_iff] at herrno
  unfold dirMkpath
  simp only [Bool.false_eq_true, false_and, if_false]
  by_cases hexist : (dirMkpathLoop e [] (pathText ns) s).errno = .exist
  · rw [if_neg fun h => h.2 hexist, if_pos (herrno.mp hexist)]
    exact ⟨hmade, rfl⟩
  · rw [if_pos ⟨by decide, hexist⟩, if_neg fun h => hexist (herrno.mpr h)]
    exact ⟨hmade, rfl⟩

/-! ## `cfg_put` -/

/-- All that `cfg_put` needs for a value is permitted: the directories on the way are there or can be
made, and the file can be made, and written to if it is there. -/
structure CfgWritable (e : FileEnv) (s : FileSys) (ns : List FileName) : Prop where
  ne_nil    : ns ≠ []
  plain     : ∀ n ∈ ns, PlainName n
  dirs      : ∀ k, 0 < k → k < ns.length → DirReady e s (ns.take k)
  file      : s.tree.entry ns ≠ some .dir
  permitted : e.creatable ns = true ∧ e.writable ns = true

/-- A place that can be written is opened while its own entry stays. -/
theorem CfgWritable.opens (h : CfgWritable e s ns) {s' : FileSys}
    (hentry : s'.tree.entry ns = s.tree.entry ns) : s'.opens e ns = true := by
  have hfile := h.file
  unfold FileSys.opens
  rw [hentry]
  split
  · exact h.permitted.1
  · rename_i hdir
    exact absurd hdir hfile
  · exact h.permitted.2

/-- A value that fits is stored if `dir_mkpath` succeeds. -/
theorem cfgPutVal_plain {val : List UInt8} {len : Int} {room : FileRoom} (h : CfgWritable e s ns)
    (hlen : ((cfgPutData val len).length : Int) = cfgPutLen val len)
    (hroom : (cfgPutData val len).length ≤ room.stored) :
    (∀ k < ns.length, (cfgPutVal e s (pathText ns) val len room).1.tree.entry (ns.take k) = some .dir) ∧
      (cfgPutVal e s (pathText ns) val len room).1.tree.entry ns ≠ some .dir ∧
      (cfgPutVal e s (pathText ns) val len room).2 =
        if s.finds ns
          then ((cfgPutData val len).length : Int) else -1 := by
  obtain ⟨hmade, hret⟩ := dirMkpath_plain e s h.plain h.dirs
  have hproper : ∀ k < ns.length, ns ≠ ns.take k := by
    intro k hk heq
    have htake := take_ne_of_length (Nat.le_refl ns.length) (Nat.le_of_lt hk) (Nat.ne_of_gt hk)
    rw [List.take_length] at htake
    exact htake heq
  have hentry := hmade.other ns hproper
  have hdirs := hmade.dirs
  unfold cfgPutVal
  generalize dirMkpath e s (pathText ns) false = made at hentry hdirs hret ⊢
  obtain ⟨s₁, i⟩ := made
  dsimp only at hentry hdirs hret ⊢
  by_cases hok : s.finds ns = true
  · rw [if_pos hok] at hret ⊢
    have hlocate : s₁.locate e (pathText ns) = some ns := locate_pathText h.ne_nil h.plain hdirs
    have hopen : s₁.fopenWrite e (pathText ns) =
        ({ s₁ with tree := s₁.tree.put ns (some (.file [])) }, some ns) := by
      unfold FileSys.fopenWrite
      rw [hlocate]
      simp only [slashed_pathText h.ne_nil h.plain, h.opens hentry, Bool.not_true, Bool.or_self,
        Bool.false_eq_true, if_false]
    have hleaf := FileSys.leaf_of_locate hlocate (by rw [hentry]; exact h.file)
    have hall : ((cfgPutData val len).take room.taken).length = (cfgPutData val len).length := by
      rw [List.take_of_length_le (Nat.le_trans hroom room.stored_le)]
    have htree : ({ s₁ with tree := s₁.tree.put ns (some (.file [])) } : FileSys).tree =
        s₁.tree.put ns (some (.file [])) := rfl
    obtain ⟨honly, hfile⟩ := FileSys.fwrite_tree htree hleaf (cfgPutData val len) room
    rw [if_neg (not_not.mpr hret), hopen]
    dsimp only
    rw [FileSys.fwrite] at honly hfile ⊢
    dsimp only at honly hfile ⊢
    rw [hall, if_neg (not_not.mpr hlen)]
    refine ⟨fun k hk => honly.keeps _ (hdirs k hk), ?_, rfl⟩
    rw [hfile]
    exact fun heq => by cases heq
  · rw [if_neg hok] at hret ⊢
    rw [if_pos (by rw [hret]; decide)]
    exact ⟨hdirs, by rw [hentry]; exact h.file, rfl⟩

/-- Where all that is needed is permitted, `cfg_put` stores a value if and only if `errno` is `EEXIST` or
the first directory on the way is there. If it does not, the directories on the way are there behind
it, so that the next call stores the value. -/
theorem cfg_put_plain (e : FileEnv) (c : Cfg) (s : FileSys) (put : CfgPut) (val : List UInt8)
    (ns : List FileName) (hval : put.val = some val) (hdir : c.dir put.loc ≠ [])
    (hpath : cfgFile (c.dir put.loc) put.key = pathText ns) (h : CfgWritable e s ns)
    (hlen : ((cfgPutData val put.len).length : Int) = cfgPutLen val put.len)
    (hroom : (cfgPutData val put.len).length ≤ put.room.stored) :
    (cfgPut e c s put).2 =
        (if s.finds ns
          then ((cfgPutData val put.len).length : Int) else -1) ∧
      (1 < ns.length →
        (cfgPut e c (cfgPut e c s put).1 put).2 = ((cfgPutData val put.len).length : Int)) := by
  have hput : ∀ s, cfgPut e c s put = cfgPutVal e s (pathText ns) val put.len put.room := by
    intro s
    unfold cfgPut
    dsimp only
    rw [if_neg hdir, hval, hpath]
  obtain ⟨hdirs, hfile, hret⟩ := cfgPutVal_plain h hlen hroom
  rw [hput s]
  refine ⟨hret, fun hmore => ?_⟩
  have hagain : CfgWritable e (cfgPutVal e s (pathText ns) val put.len put.room).1 ns :=
    ⟨h.ne_nil, h.plain, fun k _ hk => Or.inl (hdirs k hk), hfile, h.permitted⟩
  rw [hput, (cfgPutVal_plain hagain hlen hroom).2.2]
  exact if_pos (FileSys.finds_iff.mpr (Or.inr ⟨hmore, hdirs 1 hmore⟩))

/-- The names on the way to a value. -/
def namesA : List FileName := [bytes "home", bytes ".a", bytes "color", bytes "back"]

theorem namesA_plain : ∀ n ∈ namesA, PlainName n := by
  have hall : ∀ n ∈ namesA, n ≠ [] ∧ n ≠ bytes "." ∧ n ≠ bytes ".." ∧ ∀ ch ∈ n, ch ∉ pathSep := by
    decide +kernel
  exact fun n hn => plainName_iff.mpr (hall n hn)

/-- A file of an empty tree can be written. -/
theorem cfgWritable_a : CfgWritable fileEnvA fileSysA namesA where
  ne_nil    := by decide
  plain     := namesA_plain
  dirs k hpos hk := by
    have hother : ∀ p : List FileName, p ≠ [bytes "home"] → p ≠ [] → fileSysA.tree.entry p = none := by
      intro p hne hnil
      rw [fileSysA, FileTree.put_other _ _ hne]
      exact if_neg (by simpa using hnil)
    rcases Nat.eq_or_lt_of_le (Nat.succ_le_of_lt hpos) with rfl | hlt
    · exact Or.inl (Entry.isDir_iff.mp (by decide))
    · refine Or.inr ⟨hother _ ?_ ?_, rfl⟩
      · exact take_ne_of_length (j := k) (k := 1) (Nat.le_of_lt hk) (by decide) (by omega)
      · exact take_ne_of_length (j := k) (k := 0) (Nat.le_of_lt hk) (by decide) (by omega)
  file      := fun h => absurd (Entry.isDir_iff.mpr h) (by decide)
  permitted := ⟨rfl, rfl⟩

theorem cfg_put_plain_a :
    (cfgPut fileEnvA cfgA fileSysA (cfgPutA .user "red")).2 =
        (if fileSysA.finds namesA
          then ((cfgPutData (bytes "red" ++ [0]) (-1)).length : Int) else -1) ∧
      (1 < namesA.length →
        (cfgPut fileEnvA cfgA (cfgPut fileEnvA cfgA fileSysA (cfgPutA .user "red")).1
          (cfgPutA .user "red")).2 = ((cfgPutData (bytes "red" ++ [0]) (-1)).length : Int)) :=
  cfg_put_plain fileEnvA cfgA fileSysA (cfgPutA .user "red") (bytes "red" ++ [0]) namesA rfl
    (by decide) (by decide) cfgWritable_a rfl (by decide)

end Bklib
