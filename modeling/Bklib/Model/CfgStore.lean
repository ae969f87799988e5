import Bklib.Lib.Run
import Bklib.Model.Dir
import Bklib.Model.Files
import Bklib.Model.Snprintf

/-!
# `Bklib.Model.CfgStore`: the values that `cfg.c` keeps in files

A value is a file below the directory of the user or the directory of the system, and its key is the
path from there. `cfg_put` makes the directories on the way with `dir_mkpath`. `cfg_get` looks in the
directory of the user first. The arrays that paths are printed to have room for 4096 bytes, so that
longer paths are cut.
-/

set_option autoImplicit false

namespace Bklib

open Lib

/-! ## `dir_mkpath` -/

/-- `dir_mkdir`. -/
def dirMkdir (e : FileEnv) (s : FileSys) (dir : List UInt8) : FileSys × Int := s.mkdir e dir

/-- The loop of `dir_mkpath`, from where `strcspn` has come to: `done` is in front of it. The first
character is stepped over, and at each separator from there on `dir` is cut for a moment. -/
def dirMkpathLoop (e : FileEnv) (done : List UInt8) : List UInt8 → FileSys → FileSys
  | [],        s => s
  | c :: rest, s =>
      let s := if done ≠ [] ∧ c ∈ pathSep then (dirMkdir e s done).1 else s
      dirMkpathLoop e (done ++ [c]) rest s

/-- `dir_mkpath`. Behind the last separator `err` is -1 unless that directory is to be made, too. -/
def dirMkpath (e : FileEnv) (s : FileSys) (dir : List UInt8) (last : Bool) : FileSys × Int :=
  let s := dirMkpathLoop e [] dir s
  let (s, err) := if last ∧ dir ≠ [] then dirMkdir e s dir else (s, -1)
  if err ≠ 0 ∧ s.errno ≠ .exist then (s, err) else (s, 0)

/-! ## The configuration -/

/-- The directories of a configuration. -/
structure Cfg where
  userDir : List UInt8
  etcDir  : List UInt8
  deriving DecidableEq

/-- What a text is in an array of `MAX_PATH` bytes. -/
def maxPath (text : List UInt8) : List UInt8 := cstr (snprintf 4096 text)

/-- `cfg_new`. There is no configuration where the name does not end in its array. -/
def cfgNew (home : Option (List UInt8)) (appname : List UInt8) : Option Cfg :=
  if 256 ≤ appname.length then none
  else
    let etcDir := maxPath (bytes "/etc/" ++ appname)
    let userDir := match home with
      | some home => maxPath (home ++ bytes "/." ++ appname)
      | none      => etcDir
    some ⟨userDir, etcDir⟩

/-- `cfg_new_rootdir`. -/
def cfgNewRootdir (home : Option (List UInt8)) (rootdir : List UInt8) : Option Cfg :=
  (cfgNew home rootdir).map fun _ => ⟨rootdir, rootdir⟩

/-- `cfg_put_where_t`. -/
inductive CfgPutWhere where
  | user
  | global
  deriving DecidableEq

/-- The directory that `cfg_put` works in. -/
def Cfg.dir (c : Cfg) : CfgPutWhere → List UInt8
  | .user   => c.userDir
  | .global => c.etcDir

/-- The path of a value. -/
def cfgFile (dir key : List UInt8) : List UInt8 := maxPath (dir ++ bytes "/" ++ key)

/-! ## `cfg_put` -/

/-- A call of `cfg_put`: `val` is the memory there, and `room` how much of it can be stored. -/
structure CfgPut where
  key  : List UInt8
  val  : Option (List UInt8)
  len  : Int
  loc  : CfgPutWhere
  room : FileRoom

/-- The bytes of a value: `len` of them, or a C string. -/
def cfgPutData (val : List UInt8) (len : Int) : List UInt8 :=
  if 0 ≤ len then val.take len.toNat else cstr val

/-- The length that `cfg_put` goes by. -/
def cfgPutLen (val : List UInt8) (len : Int) : Int := if 0 ≤ len then len else (cstr val).length

/-- The part of `cfg_put` in which the value is stored. The number that counts is that of `fwrite`; what
`fclose` says is dropped. -/
def cfgPutVal (e : FileEnv) (s : FileSys) (buf val : List UInt8) (len : Int) (room : FileRoom) :
    FileSys × Int :=
  let (s, i) := dirMkpath e s buf false
  if i ≠ 0 then (s, -1)
  else
    match s.fopenWrite e buf with
    | (s, none)   => (s, -1)
    | (s, some f) =>
        let (s, n) := s.fwrite f (cfgPutData val len) room
        if (n : Int) ≠ cfgPutLen val len then (s, -1) else (s, n)

/-- `cfg_put`. -/
def cfgPut (e : FileEnv) (c : Cfg) (s : FileSys) (put : CfgPut) : FileSys × Int :=
  let dir := c.dir put.loc
  if dir = [] then (s, -1)
  else
    let buf := cfgFile dir put.key
    match put.val with
    | none     => ((s.unlink e buf).1, 0)
    | some val => cfgPutVal e s buf val put.len put.room

/-- The call of `cfg_put` that `cfg_put_int` makes. -/
def cfgPutInt (key : List UInt8) (val : Int) (loc : CfgPutWhere) (room : FileRoom) : CfgPut :=
  let buf := fmtD val
  ⟨key, some (buf ++ [0]), buf.length, loc, room⟩

/-! ## `cfg_get` -/

/-- One of the two tries to open the file of a key. -/
def cfgOpen (e : FileEnv) (s : FileSys) (dir key : List UInt8) : FileSys × Option (List UInt8) :=
  if dir = [] then (s, none) else s.fopenRead e (cfgFile dir key)

/-- The file of a key: its path, and what can be read. -/
def cfgFind (e : FileEnv) (c : Cfg) (s : FileSys) (key : List UInt8) :
    FileSys × Option (List UInt8 × List UInt8) :=
  match cfgOpen e s c.userDir key with
  | (s, some f) => (s, some (cfgFile c.userDir key, f))
  | (s, none)   =>
      let (s, f) := cfgOpen e s c.etcDir key
      (s, f.map fun f => (cfgFile c.etcDir key, f))

/-- What `cfg_get_val_or_path` leaves: the file system, the memory of the buffer, and the result. -/
structure CfgGet where
  sys : FileSys
  mem : Int → UInt8
  ret : Int

/-- `cfg_get_val_or_path`. The buffer is at 0. -/
def cfgGetValOrPath (e : FileEnv) (c : Cfg) (s : FileSys) (key : List UInt8) (val : Int → UInt8)
    (len : Nat) (pathOnly : Bool) : CfgGet :=
  let val := writeAt val 0 [0]
  match cfgFind e c s key with
  | (s, none)          => ⟨s, val, 0⟩
  | (s, some (buf, f)) =>
      if pathOnly then ⟨s, writeAt val 0 (snprintf len buf), buf.length⟩
      else
        let data := f.take len
        let val := writeAt val 0 data
        ⟨s, writeAt val (if data.length < len then (data.length : Int) else (len : Int) - 1) [0],
          data.length⟩

/-- `cfg_get`. -/
def cfgGet (e : FileEnv) (c : Cfg) (s : FileSys) (key : List UInt8) (val : Int → UInt8) (len : Nat) :
    CfgGet :=
  cfgGetValOrPath e c s key val len false

/-- `cfg_path`: whether there is a path, behind the memory. -/
def cfgPath (e : FileEnv) (c : Cfg) (s : FileSys) (key : List UInt8) (pathBuf : Int → UInt8)
    (pathLen : Nat) : (Int → UInt8) × Bool :=
  let got := cfgGetValOrPath e c s key pathBuf pathLen true
  (got.mem, decide (0 < got.ret))

/-- `cfg_get_int`: `*val` and the result. `buf` is what the array holds before. -/
def cfgGetInt (e : FileEnv) (c : Cfg) (s : FileSys) (key : List UInt8) (buf : Int → UInt8) :
    Int × Int :=
  let got := cfgGet e c s key buf 1024
  if got.ret ≤ 0 then (0, -1)
  else
    let (v, p) := strtoul (cstr (readAt got.mem 0 1024))
    (toInt32 v, if p = 0 then -1 else got.ret)

/-! ## Runs -/

/-- A call that works on the files. -/
inductive CfgCall where
  | put (put : CfgPut)
  | get (key : List UInt8)

/-- A call leaves the files. -/
def cfgStep (e : FileEnv) (c : Cfg) (s : FileSys) : CfgCall → FileSys
  | .put put => (cfgPut e c s put).1
  | .get key => (cfgFind e c s key).1

/-- Calls, one after the other. -/
def cfgRun (e : FileEnv) (c : Cfg) (s : FileSys) (calls : List CfgCall) : FileSys :=
  run (cfgStep e c) s calls

end Bklib
