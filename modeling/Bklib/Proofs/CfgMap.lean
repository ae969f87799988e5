import Bklib.Proofs.CfgMkpath
import Mathlib.Data.Set.Defs

/-!
# `Bklib.Proofs.CfgMap`: a configuration is a map

The abstract configuration is a map from places to what was put there. `cfg_put` changes it at one
place (`cfgMapStep`), and the value of a key is that in the user's directory, or else that in the
system's (`cfgMapValue`).

The files are such a map (`CfgFiles`) where all that is needed is permitted, the first directory on
each way is there, and no key is a directory on the way to another one (`CfgLayout`). Each call
keeps this, so after every run the results of `cfg_put` and `cfg_get` are those of the map
(`cfg_map`).
-/

set_option autoImplicit false

namespace Bklib

open Lib

/-! ## The map -/

/-- The place of a key. -/
def Cfg.place (e : FileEnv) (c : Cfg) (loc : CfgPutWhere) (key : List UInt8) : List FileName :=
  e.target (cfgFile (c.dir loc) key)

/-- The value of a key. -/
def cfgMapValue (e : FileEnv) (c : Cfg) (m : List FileName → Option (List UInt8))
    (key : List UInt8) : Option (List UInt8) :=
  (m (c.place e .user key)).or (m (c.place e .global key))

/-- What a call makes of the map. -/
def cfgMapStep (e : FileEnv) (c : Cfg) (m : List FileName → Option (List UInt8)) :
    CfgCall → List FileName → Option (List UInt8)
  | .put put =>
      Function.update m (c.place e put.loc put.key) (put.val.map fun val => cfgPutData val put.len)
  | .get _ => m

/-- What `cfg_put` reports. -/
def CfgPut.reported (put : CfgPut) : Int :=
  match put.val with
  | none     => 0
  | some val => (cfgPutData val put.len).length

/-- What `cfg_get` shows of the value of a key. -/
def CfgGet.Shows (got : CfgGet) (len : Nat) : Option (List UInt8) → Prop
  | none      => got.ret = 0 ∧ readAt got.mem 0 1 = [0]
  | some data => got.Tells len data

/-- A call for one of the keys. All of a value is there, and there is room for it. -/
def CfgCall.Fits (keys : Set (List UInt8)) : CfgCall → Prop
  | .put call => call.key ∈ keys ∧ ∀ val, call.val = some val →
      ((cfgPutData val call.len).length : Int) = cfgPutLen val call.len ∧
        (cfgPutData val call.len).length ≤ call.room.stored
  | .get _    => True

/-! ## The files -/

/-- The places of the keys. -/
def Cfg.places (e : FileEnv) (c : Cfg) (keys : Set (List UInt8)) : Set (List FileName) :=
  {p | ∃ loc, ∃ key ∈ keys, c.place e loc key = p}

/-- A place for a value. -/
structure CfgPlace (e : FileEnv) (p : List FileName) : Prop where
  plain     : ∀ n ∈ p, PlainName n
  below     : 1 < p.length
  readable  : e.readable p = true
  writable  : e.writable p = true
  creatable : e.creatable p = true
  removable : e.removable p = true

/-- The keys have places for values, and none of these is a directory on the way to another one. -/
structure CfgLayout (e : FileEnv) (c : Cfg) (keys : Set (List UInt8)) : Prop where
  dir   : ∀ loc, c.dir loc ≠ []
  path  : ∀ loc, ∀ key ∈ keys, cfgFile (c.dir loc) key = pathText (c.place e loc key)
  place : ∀ p ∈ c.places e keys, CfgPlace e p
  apart : ∀ p ∈ c.places e keys, ∀ q ∈ c.places e keys, ∀ k < p.length, q ≠ p.take k

/-- The files hold what the map has for the places. -/
structure CfgFiles (e : FileEnv) (c : Cfg) (keys : Set (List UInt8))
    (m : List FileName → Option (List UInt8)) (s : FileSys) : Prop where
  file  : ∀ p ∈ c.places e keys, s.tree.entry p = (m p).map .file
  first : ∀ p ∈ c.places e keys, s.tree.entry (p.take 1) = some .dir
  dirs  : ∀ p ∈ c.places e keys, ∀ k, 0 < k → k < p.length → DirReady e s (p.take k)

variable {e : FileEnv} {c : Cfg} {keys : Set (List UInt8)}
  {m : List FileName → Option (List UInt8)} {s s' : FileSys} {p : List FileName}

theorem Cfg.place_mem (loc : CfgPutWhere) {key : List UInt8} (hkey : key ∈ keys) :
    c.place e loc key ∈ c.places e keys := ⟨loc, key, hkey, rfl⟩

theorem CfgPlace.ne_nil (h : CfgPlace e p) : p ≠ [] := by
  intro hnil
  have hbelow := h.below
  rw [hnil] at hbelow
  exact absurd hbelow (by decide)

/-- `errno` does not matter. -/
theorem CfgFiles.congr (hs : CfgFiles e c keys m s) (htree : s'.tree = s.tree) :
    CfgFiles e c keys m s' :=
  ⟨by rw [htree]; exact hs.file, by rw [htree]; exact hs.first,
    by unfold DirReady; rw [htree]; exact hs.dirs⟩

/-- A change at one place, and of directories on the way to it. -/
theorem CfgFiles.update (h : CfgLayout e c keys) (hs : CfgFiles e c keys m s)
    (hp : p ∈ c.places e keys) {d : Option (List UInt8)} (hfile : s'.tree.entry p = d.map .file)
    (hway : ∀ k < p.length, s'.tree.entry (p.take k) = some .dir ∨
      s'.tree.entry (p.take k) = s.tree.entry (p.take k))
    (hother : ∀ q, q ≠ p → (∀ k < p.length, q ≠ p.take k) → s'.tree.entry q = s.tree.entry q) :
    CfgFiles e c keys (Function.update m p d) s' := by
  have hdir : ∀ q, q ≠ p → s'.tree.entry q = some .dir ∨ s'.tree.entry q = s.tree.entry q := by
    intro q hq
    by_cases hon : ∃ k, k < p.length ∧ q = p.take k
    · obtain ⟨k, hk, rfl⟩ := hon
      exact hway k hk
    · exact Or.inr (hother q hq fun k hk heq => hon ⟨k, hk, heq⟩)
  -- No directory on the way to a place is a place itself.
  have htake : ∀ q ∈ c.places e keys, ∀ k < q.length, q.take k ≠ p :=
    fun q hq k hk heq => h.apart q hq p hp k hk heq.symm
  refine ⟨fun q hq => ?_, fun q hq => ?_, fun q hq k hpos hk => ?_⟩
  · by_cases heq : q = p
    · rw [heq, Function.update_self]
      exact hfile
    · rw [Function.update_of_ne heq, hother q heq fun k hk => h.apart p hp q hq k hk]
      exact hs.file q hq
  · rcases hdir _ (htake q hq 1 (h.place q hq).below) with hmade | hsame
    · exact hmade
    · rw [hsame]
      exact hs.first q hq
  · rcases hdir _ (htake q hq k hk) with hmade | hsame
    · exact Or.inl hmade
    · unfold DirReady
      rw [hsame]
      exact hs.dirs q hq k hpos hk

/-! ## `cfg_put` -/

/-- Beside the value, only `dir_mkpath` changes something. -/
theorem cfgPutVal_other (e : FileEnv) (s : FileSys) {buf : List UInt8} (val : List UInt8)
    (len : Int) (room : FileRoom) {q : List FileName} (hq : q ≠ e.target buf)
    (hmade : (dirMkpath e s buf false).1.tree.entry q = s.tree.entry q) :
    (cfgPutVal e s buf val len room).1.tree.entry q = s.tree.entry q := by
  unfold cfgPutVal
  generalize dirMkpath e s buf false = made at hmade ⊢
  obtain ⟨s₁, i⟩ := made
  dsimp only at hmade ⊢
  split
  · exact hmade
  · have hopened := FileSys.fopenWrite_other e s₁ hq
    cases hopen : s₁.fopenWrite e buf with
    | mk s₂ f =>
        rw [hopen] at hopened
        have hsame := hopened.trans hmade
        cases f with
        | none => exact hsame
        | some p =>
            obtain ⟨hlocate, -⟩ := FileSys.fopenWrite_some hopen
            have hp : q ≠ p := by
              rw [FileSys.locate_eq hlocate]
              exact hq
            have hwritten : (s₂.fwrite p (cfgPutData val len) room).1.tree.entry q
                = s.tree.entry q := (FileTree.put_other s₂.tree _ hp).trans hsame
            dsimp only
            split
            · exact hwritten
            · exact hwritten

/-- Every place of the layout can be written. -/
theorem CfgFiles.writable (h : CfgLayout e c keys) (hs : CfgFiles e c keys m s)
    (hp : p ∈ c.places e keys) : CfgWritable e s p where
  ne_nil    := (h.place p hp).ne_nil
  plain     := (h.place p hp).plain
  dirs      := hs.dirs p hp
  file      := by
    rw [hs.file p hp]
    cases m p with
    | none => exact fun heq => by cases heq
    | some data => exact fun heq => by cases heq
  permitted := ⟨(h.place p hp).creatable, (h.place p hp).writable⟩

/-- A value is put. -/
theorem CfgFiles.put (h : CfgLayout e c keys) (hs : CfgFiles e c keys m s) {put : CfgPut}
    {val : List UInt8} (hkey : put.key ∈ keys) (hval : put.val = some val)
    (hlen : ((cfgPutData val put.len).length : Int) = cfgPutLen val put.len)
    (hroom : (cfgPutData val put.len).length ≤ put.room.stored) :
    (cfgPut e c s put).2 = (cfgPutData val put.len).length ∧
      CfgFiles e c keys
        (Function.update m (c.place e put.loc put.key) (some (cfgPutData val put.len)))
        (cfgPut e c s put).1 := by
  have hp := Cfg.place_mem (e := e) (c := c) put.loc hkey
  have hpath := h.path put.loc put.key hkey
  have hput : cfgPut e c s put
      = cfgPutVal e s (pathText (c.place e put.loc put.key)) val put.len put.room := by
    unfold cfgPut
    dsimp only
    rw [if_neg (h.dir put.loc), hval, hpath]
  have hwritable := hs.writable h hp
  have hfirst : s.finds (c.place e put.loc put.key) = true :=
    FileSys.finds_iff.mpr (Or.inr ⟨(h.place _ hp).below, hs.first _ hp⟩)
  obtain ⟨hdirs, -, hret⟩ := cfgPutVal_plain hwritable hlen hroom
  obtain ⟨hmade, -⟩ := dirMkpath_plain e s hwritable.plain hwritable.dirs
  rw [if_pos hfirst, ← hput] at hret
  obtain ⟨-, hstored⟩ := cfgPut_stored hval (show 0 ≤ (cfgPut e c s put).2 by rw [hret]; omega)
  rw [List.take_of_length_le hroom] at hstored
  rw [← hput] at hdirs
  refine ⟨hret, hs.update h hp hstored.file (fun k hk => Or.inl (hdirs k hk)) fun q hq hway => ?_⟩
  rw [hput]
  refine cfgPutVal_other e s val put.len put.room ?_ (hmade.other q hway)
  rw [target_pathText e hwritable.ne_nil hwritable.plain]
  exact hq

/-- What stands at a place can be reached. -/
theorem CfgFiles.locate (h : CfgLayout e c keys) (hs : CfgFiles e c keys m s)
    (hp : p ∈ c.places e keys) {data : List UInt8} (hdata : m p = some data) :
    s.locate e (pathText p) = some p := by
  refine locate_pathText (h.place p hp).ne_nil (h.place p hp).plain fun k hk => ?_
  have hrest : p.drop k ≠ [] := by
    rw [← List.length_pos_iff, List.length_drop]
    omega
  refine FileTree.entry_of_append hrest ?_
  rw [List.take_append_drop, hs.file p hp, hdata]
  exact Option.some_ne_none _

/-- A value is removed. -/
theorem CfgFiles.unlink (h : CfgLayout e c keys) (hs : CfgFiles e c keys m s)
    (hp : p ∈ c.places e keys) :
    CfgFiles e c keys (Function.update m p none) (s.unlink e (pathText p)).1 := by
  have hplace := h.place p hp
  have htarget := target_pathText e hplace.ne_nil hplace.plain
  have hentry := hs.file p hp
  cases hdata : m p with
  | none =>
      rw [hdata] at hentry
      have hmissing : s.tree.entry (e.target (pathText p)) = none := by
        rw [htarget]
        exact hentry
      rw [← hdata, Function.update_eq_self]
      exact hs.congr (FileSys.unlink_missing e s hmissing)
  | some data =>
      rw [hdata] at hentry
      have hunlink : s.unlink e (pathText p) = ({ s with tree := s.tree.put p none }, 0) := by
        unfold FileSys.unlink
        rw [hs.locate h hp hdata]
        simp only [hentry, Option.map_some, slashed_pathText hplace.ne_nil hplace.plain,
          hplace.removable, Bool.not_true, Bool.or_self, Bool.false_eq_true, if_false]
      have hkept : ∀ q, q ≠ p → (s.tree.put p none).entry q = s.tree.entry q :=
        fun q hq => FileTree.put_other s.tree none hq
      rw [hunlink]
      refine hs.update h hp (FileTree.put_self (FileTree.leaf_of_file hentry) none) ?_
        fun q hq _ => hkept q hq
      exact fun k hk => Or.inr (hkept _ fun heq => h.apart p hp p hp k hk heq.symm)

/-- The step lemma. -/
theorem CfgFiles.step (h : CfgLayout e c keys) (hs : CfgFiles e c keys m s) {call : CfgCall}
    (hcall : call.Fits keys) : CfgFiles e c keys (cfgMapStep e c m call) (cfgStep e c s call) := by
  cases call with
  | get key => exact hs.congr (cfgFind_tree e c s key)
  | put put =>
      obtain ⟨hkey, hfits⟩ := hcall
      show CfgFiles e c keys (Function.update m (c.place e put.loc put.key)
        (put.val.map fun val => cfgPutData val put.len)) (cfgPut e c s put).1
      cases hval : put.val with
      | none =>
          have hunlink := hs.unlink h (Cfg.place_mem put.loc hkey)
          rw [← h.path put.loc put.key hkey] at hunlink
          unfold cfgPut
          dsimp only
          rw [if_neg (h.dir put.loc), hval]
          exact hunlink
      | some val =>
          obtain ⟨hlen, hroom⟩ := hfits val hval
          exact (hs.put h hkey hval hlen hroom).2

/-- The result of `cfg_put`. -/
theorem CfgFiles.ret (h : CfgLayout e c keys) (hs : CfgFiles e c keys m s) {put : CfgPut}
    (hcall : (CfgCall.put put).Fits keys) : (cfgPut e c s put).2 = put.reported := by
  obtain ⟨hkey, hfits⟩ := hcall
  unfold CfgPut.reported
  cases hval : put.val with
  | none =>
      unfold cfgPut
      dsimp only
      rw [if_neg (h.dir put.loc), hval]
  | some val =>
      obtain ⟨hlen, hroom⟩ := hfits val hval
      exact (hs.put h hkey hval hlen hroom).1

/-! ## `cfg_get` -/

/-- One of the two tries. -/
theorem CfgFiles.opened (h : CfgLayout e c keys) (hs : CfgFiles e c keys m s) (loc : CfgPutWhere)
    {key : List UInt8} (hkey : key ∈ keys) :
    (cfgOpen e s (c.dir loc) key).2 = m (c.place e loc key) := by
  have hp := Cfg.place_mem (e := e) (c := c) loc hkey
  have hplace := h.place _ hp
  have hpath := h.path loc key hkey
  have hentry := hs.file _ hp
  cases hdata : m (c.place e loc key) with
  | some data =>
      rw [hdata] at hentry
      have hlocate := hs.locate h hp hdata
      refine cfgOpen_stored (h.dir loc) hplace.readable ⟨?_, ?_, hentry⟩
      · rw [hpath, hlocate, target_pathText e hplace.ne_nil hplace.plain]
      · rw [hpath, slashed_pathText hplace.ne_nil hplace.plain]
  | none =>
      rw [hdata] at hentry
      rw [cfgOpen, if_neg (h.dir loc)]
      unfold FileSys.fopenRead
      split
      · rfl
      · rename_i p hlocate
        have hp' : p = c.place e loc key := FileSys.locate_eq hlocate
        rw [hp', hplace.readable, hentry]
        rfl

/-- The file that is found. -/
theorem CfgFiles.found (h : CfgLayout e c keys) (hs : CfgFiles e c keys m s) {key : List UInt8}
    (hkey : key ∈ keys) : (cfgFind e c s key).2.map Prod.snd = cfgMapValue e c m key := by
  have huser := hs.opened h .user hkey
  have htree := cfgOpen_tree e s c.userDir key
  unfold cfgFind cfgMapValue
  rw [← huser, Cfg.dir]
  cases hopen : cfgOpen e s c.userDir key with
  | mk s₁ f =>
      rw [hopen] at htree
      cases f with
      | some data => rfl
      | none =>
          have hglobal := (hs.congr htree).opened h .global hkey
          rw [← hglobal, Cfg.dir]
          dsimp only
          rw [Option.map_map, Option.none_or]
          exact Option.map_id'

/-- `cfg_get` shows the value the map gives. -/
theorem CfgFiles.shows (h : CfgLayout e c keys) (hs : CfgFiles e c keys m s) {key : List UInt8}
    (hkey : key ∈ keys) (val : Int → UInt8) {len : Nat} (hlen : 0 < len) :
    (cfgGet e c s key val len).Shows len (cfgMapValue e c m key) := by
  rw [← hs.found h hkey]
  cases hfind : (cfgFind e c s key).2 with
  | some found => exact cfgGet_tells hlen hfind
  | none =>
      obtain ⟨s', hs'⟩ : ∃ s', cfgFind e c s key = (s', none) := ⟨_, Prod.ext rfl hfind⟩
      unfold cfgGet cfgGetValOrPath
      rw [hs']
      exact ⟨rfl, readAt_writeAt val 0 [0]⟩

/-- The files of a configuration are a map, in every run of calls of `cfg_put` and `cfg_get` for the
keys: `cfg_put` reports the length of the value, and `cfg_get` shows the value that the key has in
the map. -/
theorem cfg_map (e : FileEnv) (c : Cfg) (keys : Set (List UInt8))
    (m : List FileName → Option (List UInt8)) (s : FileSys) (h : CfgLayout e c keys)
    (hs : CfgFiles e c keys m s) (calls : List CfgCall) (hcalls : ∀ call ∈ calls, call.Fits keys) :
    let m' := run (cfgMapStep e c) m calls
    let s' := cfgRun e c s calls
    CfgFiles e c keys m' s' ∧
      (∀ put : CfgPut, (CfgCall.put put).Fits keys → (cfgPut e c s' put).2 = put.reported) ∧
      ∀ key ∈ keys, ∀ (val : Int → UInt8) (len : Nat), 0 < len →
        (cfgGet e c s' key val len).Shows len (cfgMapValue e c m' key) := by
  intro m' s'
  have hstep : ∀ m s (call : CfgCall), CfgFiles e c keys m s → call.Fits keys →
      CfgFiles e c keys (cfgMapStep e c m call) (cfgStep e c s call) :=
    fun m s call hs hcall => hs.step h hcall
  have hfiles : CfgFiles e c keys m' s' := run_sim hstep hs hcalls
  exact ⟨hfiles, fun put hput => hfiles.ret h hput,
    fun key hkey val len hlen => hfiles.shows h hkey val hlen⟩

/-! ### Two keys -/

def keysB : Set (List UInt8) := {key | key = bytes "color/back" ∨ key = bytes "color/text"}

/-- Their places, in the user's directory and in the system's. -/
def namesB : List (List FileName) :=
  [[bytes "home", bytes ".a", bytes "color", bytes "back"],
    [bytes "home", bytes ".a", bytes "color", bytes "text"],
    [bytes "etc", bytes "a", bytes "color", bytes "back"],
    [bytes "etc", bytes "a", bytes "color", bytes "text"]]

/-- Neither of the two directories is there yet. -/
def fileSysB : FileSys := { fileSysA with tree := fileSysA.tree.put [bytes "etc"] (some .dir) }

theorem places_b : ∀ p ∈ cfgA.places fileEnvA keysB, p ∈ namesB := by
  rintro p ⟨loc, key, rfl | rfl, rfl⟩
  · cases loc <;> decide
  · cases loc <;> decide

/-- Two plain keys under two absolute directories are a layout. -/
theorem cfgLayout_b : CfgLayout fileEnvA cfgA keysB where
  dir loc := by cases loc <;> decide
  path := by
    rintro loc key (rfl | rfl)
    · cases loc <;> decide
    · cases loc <;> decide
  place p hp := by
    have hall : ∀ p ∈ namesB, (∀ n ∈ p, n ≠ [] ∧ n ≠ bytes "." ∧ n ≠ bytes ".." ∧
        ∀ ch ∈ n, ch ∉ pathSep) ∧ 1 < p.length := by decide +kernel
    obtain ⟨hplain, hbelow⟩ := hall p (places_b p hp)
    exact ⟨fun n hn => plainName_iff.mpr (hplain n hn), hbelow, rfl, rfl, rfl, rfl⟩
  apart p hp q hq :=
    have hall : ∀ p ∈ namesB, ∀ q ∈ namesB, ∀ k < p.length, q ≠ p.take k := by decide
    hall p (places_b p hp) q (places_b q hq)

/-- No value is there. -/
theorem cfgFiles_b : CfgFiles fileEnvA cfgA keysB (fun _ => none) fileSysB where
  file p hp :=
    have hall : ∀ p ∈ namesB, (fileSysB.tree.entry p).isNone = true := by decide
    Option.isNone_iff_eq_none.mp (hall p (places_b p hp))
  first p hp :=
    have hall : ∀ p ∈ namesB, Entry.isDir (fileSysB.tree.entry (p.take 1)) = true := by
      decide
    Entry.isDir_iff.mp (hall p (places_b p hp))
  dirs p hp k hpos hk := by
    have hall : ∀ p ∈ namesB, ∀ k < p.length, 0 < k →
        Entry.isDir (fileSysB.tree.entry (p.take k)) = true ∨
          (fileSysB.tree.entry (p.take k)).isNone = true := by decide
    rcases hall p (places_b p hp) k hk hpos with hdir | hnone
    · exact Or.inl (Entry.isDir_iff.mp hdir)
    · exact Or.inr ⟨Option.isNone_iff_eq_none.mp hnone, rfl⟩

/-- A value of the user, put and removed again, hides that of the system for a while. -/
def callsB : List CfgCall :=
  [.put (cfgPutA .global "green"), .put (cfgPutA .user "red"), .get (bytes "color/text"),
    .put ⟨bytes "color/back", none, 0, .user, fileRoomA⟩]

/-- The calls stay inside the keys of the layout. -/
theorem callsB_fits : ∀ call ∈ callsB, call.Fits keysB := by
  have hput : ∀ loc, ∀ text ∈ ["green", "red"], (CfgCall.put (cfgPutA loc text)).Fits keysB := by
    intro loc text htext
    have hall : ∀ text ∈ ["green", "red"], (cfgPutData (bytes text ++ [0]) (-1)).length ≤ 100 := by
      decide
    refine ⟨Or.inl rfl, fun val hval => ?_⟩
    obtain rfl := Option.some.inj hval
    exact ⟨rfl, hall text htext⟩
  intro call hcall
  simp only [callsB, List.mem_cons, List.not_mem_nil, or_false] at hcall
  rcases hcall with rfl | rfl | rfl | rfl
  · exact hput .global "green" (by decide)
  · exact hput .user "red" (by decide)
  · trivial
  · exact ⟨Or.inl rfl, fun val hval => by cases hval⟩

theorem cfg_map_b :
    let s := cfgRun fileEnvA cfgA fileSysB callsB
    (cfgGet fileEnvA cfgA s (bytes "color/back") (fun _ => 7) 16).Shows 16 (some (bytes "green")) ∧
      (cfgGet fileEnvA cfgA s (bytes "color/text") (fun _ => 7) 16).Shows 16 none := by
  obtain ⟨-, -, hget⟩ := cfg_map fileEnvA cfgA keysB (fun _ => none) fileSysB cfgLayout_b cfgFiles_b
    callsB callsB_fits
  exact ⟨hget (bytes "color/back") (Or.inl rfl) (fun _ => 7) 16 (by decide),
    hget (bytes "color/text") (Or.inr rfl) (fun _ => 7) 16 (by decide)⟩

end Bklib
