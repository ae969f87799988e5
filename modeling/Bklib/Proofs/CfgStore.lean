import Bklib.Model.CfgStore
import Bklib.Proofs.Files

/-!
# `Bklib.Proofs.CfgStore`: a value that was put is found

`cfg_put` works at one path: other files stay, and on the way there directories are made where
nothing was (`cfgPut_only`). Where it reports a length, the file holds what there was room for
(`cfgPut_stored`), which may be less: the last bytes are written by `fclose`, and its result is
dropped. Whatever is put elsewhere and read in between, the value stays (`cfgRun_keeps`), and
`cfg_get` finds it if there was room for all of it. A value of the system is found where the user's
directory has nothing for the key (`cfg_put_get`).
-/

set_option autoImplicit false

namespace Bklib

open Lib

variable {e : FileEnv} {c : Cfg} {s s' : FileSys}

/-! ## Directories on the way -/

/-- The induction is on what `strcspn` has not passed. -/
theorem dirMkpathLoop_grows (e : FileEnv) (rest : List UInt8) :
    ∀ (done : List UInt8) (s : FileSys), s.Grows (dirMkpathLoop e done rest s) := by
  induction rest with
  | nil => intro done s; exact FileSys.Grows.refl s
  | cons ch rest ih =>
      intro done s
      rw [dirMkpathLoop]
      split
      · exact (FileSys.mkdir_grows e s done).trans (ih _ _)
      · exact ih _ _

/-- `dir_mkpath` only adds directories. -/
theorem dirMkpath_grows (e : FileEnv) (s : FileSys) (dir : List UInt8) (last : Bool) :
    s.Grows (dirMkpath e s dir last).1 := by
  have hloop := dirMkpathLoop_grows e dir [] s
  unfold dirMkpath
  dsimp only
  split
  · split
    · exact hloop.trans (FileSys.mkdir_grows e _ dir)
    · exact hloop.trans (FileSys.mkdir_grows e _ dir)
  · split
    · exact hloop
    · exact hloop

/-- Opening a file of settings leaves the tree. -/
theorem cfgOpen_tree (e : FileEnv) (s : FileSys) (dir key : List UInt8) :
    (cfgOpen e s dir key).1.tree = s.tree := by
  unfold cfgOpen
  split
  · rfl
  · exact FileSys.fopenRead_tree e s _

/-- `cfg_find` opens files for reading and changes none. -/
theorem cfgFind_tree (e : FileEnv) (c : Cfg) (s : FileSys) (key : List UInt8) :
    (cfgFind e c s key).1.tree = s.tree := by
  have huser := cfgOpen_tree e s c.userDir key
  unfold cfgFind
  split
  · rename_i hopen
    rwa [hopen] at huser
  · rename_i s' hopen
    rw [hopen] at huser
    exact (cfgOpen_tree e s' c.etcDir key).trans huser

/-! ## `cfg_put` -/

/-- The path that a call of `cfg_put` works at. -/
def CfgPut.target (e : FileEnv) (c : Cfg) (put : CfgPut) : List FileName :=
  e.target (cfgFile (c.dir put.loc) put.key)

/-- A value that is stored: its path can be followed, and its file holds it. -/
structure CfgStored (e : FileEnv) (s : FileSys) (path data : List UInt8) : Prop where
  locate : s.locate e path = some (e.target path)
  plain  : slashed path = false
  file   : s.tree.entry (e.target path) = some (.file data)

/-- What `cfg_put` leaves when it has a value. -/
theorem cfgPutVal_spec (e : FileEnv) (s : FileSys) (buf val : List UInt8) (len : Int)
    (room : FileRoom) :
    s.Only (cfgPutVal e s buf val len room).1 (e.target buf) ∧
      (0 ≤ (cfgPutVal e s buf val len room).2 →
        CfgStored e (cfgPutVal e s buf val len room).1 buf
          ((cfgPutData val len).take room.stored)) := by
  have hgrows := dirMkpath_grows e s buf false
  have hneg : ¬ (0 : Int) ≤ -1 := by decide
  unfold cfgPutVal
  generalize dirMkpath e s buf false = made at hgrows ⊢
  obtain ⟨s₁, i⟩ := made
  dsimp only at hgrows ⊢
  split
  · exact ⟨hgrows.only _, fun h => absurd h hneg⟩
  · cases hopen : s₁.fopenWrite e buf with
    | mk s₂ f =>
        cases f with
        | none => exact ⟨(hgrows.trans (FileSys.fopenWrite_none hopen)).only _,
            fun h => absurd h hneg⟩
        | some p =>
            obtain ⟨hlocate, hplain, hleaf, htree⟩ := FileSys.fopenWrite_some hopen
            have hp : p = e.target buf := FileSys.locate_eq hlocate
            subst hp
            have hfwrite := FileSys.fwrite_tree htree hleaf (cfgPutData val len) room
            have honly := (hgrows.only (e.target buf)).trans hfwrite.1
            dsimp only
            split
            · exact ⟨honly, fun h => absurd h hneg⟩
            · exact ⟨honly, fun _ => ⟨FileSys.locate_mono hfwrite.1.keeps hlocate, hplain, hfwrite.2⟩⟩

/-- `cfg_put` works at one path. -/
theorem cfgPut_only (e : FileEnv) (c : Cfg) (s : FileSys) (put : CfgPut) :
    s.Only (cfgPut e c s put).1 (put.target e c) := by
  unfold cfgPut
  dsimp only
  split
  · exact (FileSys.Grows.refl s).only _
  · split
    · exact FileSys.unlink_only e s _
    · rename_i val _
      exact (cfgPutVal_spec e s _ val put.len put.room).1

/-- A value whose length is reported is stored, as far as there is room for it. -/
theorem cfgPut_stored {put : CfgPut} {val : List UInt8} (hval : put.val = some val)
    (hret : 0 ≤ (cfgPut e c s put).2) :
    c.dir put.loc ≠ [] ∧ CfgStored e (cfgPut e c s put).1 (cfgFile (c.dir put.loc) put.key)
      ((cfgPutData val put.len).take put.room.stored) := by
  have hneg : ¬ (0 : Int) ≤ -1 := by decide
  unfold cfgPut at hret ⊢
  dsimp only at hret ⊢
  rw [hval] at hret ⊢
  split at hret
  · exact absurd hret hneg
  · rename_i hdir
    rw [if_neg hdir]
    exact ⟨hdir, (cfgPutVal_spec e s _ val put.len put.room).2 hret⟩

/-! ## Runs -/

/-- A call that puts nothing at `p`. -/
def CfgCall.Avoids (e : FileEnv) (c : Cfg) (p : List FileName) : CfgCall → Prop
  | .put call => call.target e c ≠ p
  | .get _    => True

instance (e : FileEnv) (c : Cfg) (p : List FileName) :
    (call : CfgCall) → Decidable (call.Avoids e c p)
  | .put call => inferInstanceAs (Decidable (call.target e c ≠ p))
  | .get _    => inferInstanceAs (Decidable True)

/-- A value stays in a call for something else. -/
theorem cfgStep_keeps {path data : List UInt8} {call : CfgCall}
    (hcall : call.Avoids e c (e.target path)) (h : CfgStored e s path data) :
    CfgStored e (cfgStep e c s call) path data := by
  cases call with
  | put put =>
      have honly := cfgPut_only e c s put
      have hne : e.target path ≠ put.target e c := fun heq => hcall heq.symm
      have hsome : s.tree.entry (e.target path) ≠ none := by
        rw [h.file]
        exact Option.some_ne_none _
      exact ⟨FileSys.locate_mono honly.keeps h.locate, h.plain,
        (honly.entry hne hsome).trans h.file⟩
  | get key =>
      have htree := cfgFind_tree e c s key
      have hkeeps : s.tree.Keeps (cfgFind e c s key).1.tree := by
        rw [htree]
        exact FileTree.Keeps.refl _
      exact ⟨FileSys.locate_mono hkeeps h.locate, h.plain, by rw [cfgStep, htree, h.file]⟩

/-- A value stays in a run for other things. -/
theorem cfgRun_keeps {path data : List UInt8} (calls : List CfgCall)
    (hcalls : ∀ call ∈ calls, call.Avoids e c (e.target path)) (h : CfgStored e s path data) :
    CfgStored e (cfgRun e c s calls) path data :=
  run_inv_of_allSteps (I := fun s => CfgStored e s path data)
    (P := fun _ (call : CfgCall) => call.Avoids e c (e.target path))
    (fun _ _ hs hcall => cfgStep_keeps hcall hs) h (allSteps_of_forall_mem hcalls)

/-! ## `cfg_get` -/

/-- What a buffer of `len` bytes and the result say of a value. -/
structure CfgGet.Tells (got : CfgGet) (len : Nat) (data : List UInt8) : Prop where
  ret  : got.ret = min data.length len
  text : readAt got.mem 0 (min data.length (len - 1) + 1) = data.take (len - 1) ++ [0]

/-- A file found is told with its length and what fits. -/
theorem cfgGet_tells {key buf data : List UInt8} {val : Int → UInt8} {len : Nat} (hlen : 0 < len)
    (hfind : (cfgFind e c s key).2 = some (buf, data)) : (cfgGet e c s key val len).Tells len data := by
  obtain ⟨s', hs'⟩ : ∃ s', cfgFind e c s key = (s', some (buf, data)) := ⟨_, Prod.ext rfl hfind⟩
  have htaken : (data.take len).length = min len data.length := List.length_take ..
  -- The NUL comes behind the bytes, or on the last one.
  have hend : (if (data.take len).length < len then ((data.take len).length : Int) else (len : Int) - 1)
      = ((min data.length (len - 1) : Nat) : Int) := by
    split
    · omega
    · omega
  unfold cfgGet cfgGetValOrPath
  rw [hs']
  simp only [Bool.false_eq_true, if_false, hend]
  refine ⟨?_, ?_⟩
  · dsimp only
    omega
  · have hfront : readAt (writeAt (writeAt val 0 [0]) 0 (data.take len)) 0 (min data.length (len - 1))
        = data.take (len - 1) := by
      rw [← take_readAt _ _ (show min data.length (len - 1) ≤ (data.take len).length by omega),
        readAt_writeAt, List.take_take]
      rcases Nat.le_total data.length (len - 1) with hle | hle
      · rw [List.take_of_length_le (by omega), List.take_of_length_le hle]
      · rw [show min (min data.length (len - 1)) len = len - 1 by omega]
    dsimp only
    have hmem := readAt_writeAt_append (writeAt (writeAt val 0 [0]) 0 (data.take len)) 0
      (min data.length (len - 1)) [0]
    rw [Int.zero_add, List.length_singleton, hfront] at hmem
    exact hmem

theorem cfgOpen_stored {dir key data : List UInt8} (hdir : dir ≠ [])
    (hread : e.readable (e.target (cfgFile dir key)) = true)
    (h : CfgStored e s (cfgFile dir key) data) : (cfgOpen e s dir key).2 = some data := by
  rw [cfgOpen, if_neg hdir, FileSys.fopenRead_file h.locate hread h.plain h.file]

/-- A value is found in the user's directory, and in the other one if there is nothing. -/
theorem cfgFind_stored {loc : CfgPutWhere} {key data : List UInt8} (hdir : c.dir loc ≠ [])
    (hread : e.readable (e.target (cfgFile (c.dir loc) key)) = true)
    (hfirst : loc = .global → (cfgOpen e s c.userDir key).2 = none)
    (h : CfgStored e s (cfgFile (c.dir loc) key) data) :
    (cfgFind e c s key).2 = some (cfgFile (c.dir loc) key, data) := by
  have htree := cfgOpen_tree e s c.userDir key
  unfold cfgFind
  cases hopen : cfgOpen e s c.userDir key with
  | mk s₁ f =>
      rw [hopen] at htree
      cases loc with
      | user =>
          have hfound := cfgOpen_stored hdir hread h
          rw [Cfg.dir, hopen] at hfound
          obtain rfl : f = some data := hfound
          rfl
      | global =>
          have hnone := hfirst rfl
          rw [hopen] at hnone
          obtain rfl : f = none := hnone
          have hkeeps : s.tree.Keeps s₁.tree := by
            rw [htree]
            exact FileTree.Keeps.refl _
          have hfile : s₁.tree.entry (e.target (cfgFile c.etcDir key)) = some (.file data) := by
            rw [htree]
            exact h.file
          have hfound := cfgOpen_stored hdir hread
            ⟨FileSys.locate_mono hkeeps h.locate, h.plain, hfile⟩
          dsimp only
          rw [show (cfgOpen e s₁ c.etcDir key).2 = some data from hfound]
          rfl

/-- After `cfg_put` has reported a length for a value that there was room for, and whatever is put at
other paths and read since, `cfg_get` of the key tells the value, if its file can be read. A value of
the system is told as long as there is nothing to open in the directory of the user. -/
theorem cfg_put_get (e : FileEnv) (c : Cfg) (s : FileSys) (put : CfgPut) (val : List UInt8)
    (calls : List CfgCall) (buf : Int → UInt8) (len : Nat) (hval : put.val = some val)
    (hput : 0 ≤ (cfgPut e c s put).2)
    (hroom : (cfgPutData val put.len).length ≤ put.room.stored) (hread : e.readable (put.target e c) = true)
    (hcalls : ∀ call ∈ calls, call.Avoids e c (put.target e c))
    (hfirst : put.loc = .global →
      (cfgOpen e (cfgRun e c (cfgPut e c s put).1 calls) c.userDir put.key).2 = none)
    (hlen : 0 < len) :
    (cfgGet e c (cfgRun e c (cfgPut e c s put).1 calls) put.key buf len).Tells len
      (cfgPutData val put.len) := by
  obtain ⟨hdir, hstored⟩ := cfgPut_stored hval hput
  rw [List.take_of_length_le hroom] at hstored
  have hkept := cfgRun_keeps calls hcalls hstored
  exact cfgGet_tells hlen (cfgFind_stored hdir hread hfirst hkept)

/-! ### A configuration -/

/-- All is permitted. -/
def fileEnvA : FileEnv where
  cwd         := []
  readable _  := true
  writable _  := true
  creatable _ := true
  removable _ := true

/-- The directory of the user is not there yet. -/
def fileSysA : FileSys := ⟨FileTree.empty.put [bytes "home"] (some .dir), .other⟩

def cfgA : Cfg := ⟨bytes "/home/.a", bytes "/etc/a"⟩

/-- Room for 100 bytes. -/
def fileRoomA : FileRoom := ⟨100, 100, Nat.le_refl 100⟩

/-- A value for `color/back`. -/
def cfgPutA (loc : CfgPutWhere) (val : String) : CfgPut :=
  ⟨bytes "color/back", some (bytes val ++ [0]), -1, loc, fileRoomA⟩

example : cfgNew (some (bytes "/home")) (bytes "a") = some cfgA := by decide

theorem cfg_put_get_a : (cfgGet fileEnvA cfgA
    (cfgRun fileEnvA cfgA (cfgPut fileEnvA cfgA fileSysA (cfgPutA .user "red")).1
      [.get (bytes "color"), .put (cfgPutA .global "blue"),
        .put ⟨bytes "color", none, 0, .user, fileRoomA⟩]) (bytes "color/back") (fun _ => 7) 16).Tells 16
      (cfgPutData (bytes "red" ++ [0]) (-1)) :=
  cfg_put_get fileEnvA cfgA fileSysA (cfgPutA .user "red") (bytes "red" ++ [0]) _ (fun _ => 7) 16 rfl
    (by decide) (by decide) rfl (by decide) (fun h => by cases h) (by decide)

/-- A value that only the buffer has room for is reported, and the file is empty. -/
example :
    let put : CfgPut := ⟨bytes "a", some (bytes "red"), 3, .user, ⟨4096, 0, Nat.zero_le _⟩⟩
    (cfgPut fileEnvA cfgA fileSysA put).2 = 3 ∧
      (cfgFind fileEnvA cfgA (cfgPut fileEnvA cfgA fileSysA put).1 put.key).2
        = some (bytes "/home/.a/a", []) := by
  decide

end Bklib
