import Bklib.Lib.FileTree
import Bklib.Model.Libc

/-!
# `Bklib.Model.Files`: the file system that `dir.c` and `cfg.c` work on

There are no links, and what is permitted depends on the path alone and does not change. `errno` is
kept only as far as it is looked at: a call that fails sets it, and one that succeeds leaves it.
-/

set_option autoImplicit false

namespace Bklib

open Lib

/-- A name in a directory. -/
abbrev FileName := List UInt8

/-- The directory that relative paths start from, and what is permitted. -/
structure FileEnv where
  cwd       : List FileName
  readable  : List FileName → Bool
  writable  : List FileName → Bool
  creatable : List FileName → Bool
  removable : List FileName → Bool

/-- `errno`: whether it is `EEXIST`. -/
inductive Errno where
  | exist
  | other
  deriving DecidableEq

structure FileSys where
  tree  : FileTree FileName UInt8
  errno : Errno

/-! ## Paths -/

/-- The hop for a name in a path. -/
def nameHop (name : FileName) : Option (Hop FileName) :=
  if name = [] then none
  else if name = bytes "." then some .stay
  else if name = bytes ".." then some .up
  else some (.down name)

/-- The hops that a path is made of. -/
def hops (path : List UInt8) : List (Hop FileName) := (path.splitOn 47).filterMap nameHop

/-- Where a path starts. -/
def FileEnv.base (e : FileEnv) (path : List UInt8) : List FileName :=
  if path.head? = some 47 then [] else e.cwd

/-- What a path names, if it names anything. -/
def FileEnv.target (e : FileEnv) (path : List UInt8) : List FileName :=
  (hops path).foldl Hop.move (e.base path)

/-- Follow a path. -/
def FileSys.locate (e : FileEnv) (s : FileSys) (path : List UInt8) : Option (List FileName) :=
  if path = [] ∨ Entry.isDir (s.tree.entry (e.base path)) = false then none
  else s.tree.walk (e.base path) (hops path)

/-- A path that can name a directory only. -/
def slashed (path : List UInt8) : Bool := path.getLast? == some 47

/-! ## Calls -/

/-- A call that fails. -/
def FileSys.fail (s : FileSys) (errno : Errno) : FileSys := { s with errno := errno }

/-- `mkdir`. -/
def FileSys.mkdir (e : FileEnv) (s : FileSys) (path : List UInt8) : FileSys × Int :=
  match s.locate e path with
  | none   => (s.fail .other, -1)
  | some p =>
      match s.tree.entry p with
      | some _ => (s.fail .exist, -1)
      | none   =>
          if e.creatable p then ({ s with tree := s.tree.put p (some .dir) }, 0)
          else (s.fail .other, -1)

/-- `fopen (path, "rb")`: what can be read. A directory can be opened, but not read. -/
def FileSys.fopenRead (e : FileEnv) (s : FileSys) (path : List UInt8) :
    FileSys × Option (List UInt8) :=
  match s.locate e path with
  | none   => (s.fail .other, none)
  | some p =>
      if !e.readable p then (s.fail .other, none)
      else
        match s.tree.entry p with
        | none                => (s.fail .other, none)
        | some .dir           => (s.fail .other, some [])
        | some (.file content) => if slashed path then (s.fail .other, none) else (s, some content)

/-- Whether `fopen (path, "wb")` can open what stands at `p`. -/
def FileSys.opens (e : FileEnv) (s : FileSys) (p : List FileName) : Bool :=
  match s.tree.entry p with
  | none           => e.creatable p
  | some .dir      => false
  | some (.file _) => e.writable p

/-- `fopen (path, "wb")`: the file, which is empty then. -/
def FileSys.fopenWrite (e : FileEnv) (s : FileSys) (path : List UInt8) :
    FileSys × Option (List FileName) :=
  match s.locate e path with
  | none   => (s.fail .other, none)
  | some p =>
      if slashed path || !s.opens e p then (s.fail .other, none)
      else ({ s with tree := s.tree.put p (some (.file [])) }, some p)

/-- The room for what is written to a stream: how many bytes `fwrite` takes, into its buffer or to the
file, and how many of them are in the file behind `fclose`. The buffer is written by `fclose`, and a
disk may be full by then. -/
structure FileRoom where
  taken     : Nat
  stored    : Nat
  stored_le : stored ≤ taken

/-- `fwrite` of bytes to a file that is empty, and the `fclose` behind it, whose result nobody looks
at: the file as it is then, and the number that `fwrite` gives. -/
def FileSys.fwrite (s : FileSys) (p : List FileName) (content : List UInt8) (room : FileRoom) :
    FileSys × Nat :=
  ({ s with tree := s.tree.put p (some (.file (content.take room.stored))) },
    (content.take room.taken).length)

/-- `unlink`. -/
def FileSys.unlink (e : FileEnv) (s : FileSys) (path : List UInt8) : FileSys × Int :=
  match s.locate e path with
  | none   => (s.fail .other, -1)
  | some p =>
      match s.tree.entry p with
      | some (.file _) =>
          if slashed path || !e.removable p then (s.fail .other, -1)
          else ({ s with tree := s.tree.put p none }, 0)
      | _ => (s.fail .other, -1)

end Bklib
