import Mathlib.Data.UInt
import Bklib.Lib.SparseFile
import Bklib.Model.CInt

/-!
# `Bklib.Model.Mmap`: a file written through a mapping

`MmapState` is an `mmap_t` with the file, the position and the mapping that the kernel has behind it.
Addresses and sizes are 64-bit numbers, so sums are taken modulo `2 ^ 64` as `size_t` does.

Whether a system call succeeds is an input (`MmapResults`). `mmap` and `mremap` fail by returning
`MAP_FAILED`; an address that they do return is not null, and the mapping ends in front of the last
address.
-/

set_option autoImplicit false

namespace Bklib

open Lib (pad put)

/-- `mmap_t`; `fd` is the file of the state. -/
structure Mmap where
  /-- `MMAP_MODE_WRITE` and `MMAP_MODE_PRIVATE` of `mode` -/
  modeWrite   : Bool
  modePrivate : Bool
  blocksz     : Int
  start       : Nat
  max         : Nat
  len         : Nat
  deriving DecidableEq

/-- An `mmap_t` and what the kernel holds for it. -/
structure MmapState where
  mm   : Mmap
  file : List UInt8
  /-- The file offset. -/
  pos  : Nat
  /-- Where the mapping starts, and its size. -/
  map  : Option (Nat × Nat)
  deriving DecidableEq

namespace MmapState

variable (s : MmapState) (n : Nat)

/-- `mm->start = n` -/
def setStart : MmapState := { s with mm := { s.mm with start := n } }

/-- `mm->max = n` -/
def setMax : MmapState := { s with mm := { s.mm with max := n } }

/-- `mm->len = n` -/
def setLen : MmapState := { s with mm := { s.mm with len := n } }

end MmapState

/-- The results of the system calls of one function. -/
structure MmapResults where
  lseek : Bool
  write : Bool
  /-- What `mmap` or `mremap` finds. -/
  map   : Option Nat

/-- `MAP_FAILED`. -/
def mapFailed : Nat := 2 ^ 64 - 1

/-- `MMAP_APPEND`. -/
def mmapAppend : Nat := 2 ^ 64 - 1

/-- A number as a `size_t`. -/
def sizeT (n : Nat) : Nat := n % 2 ^ 64

/-- The address of a new mapping of `size` bytes, unless there is none. -/
def sysMap (r : Option Nat) (size : Nat) : Option Nat :=
  r.filter fun a => 0 < a && a + size < 2 ^ 64 && 0 < size

/-- `init_mmap`. -/
def initMmap (s : MmapState) (r : Option Nat) : MmapState × Int :=
  if s.mm.max = 0 then (s, 0)
  else
    match sysMap r s.mm.max with
    | none   => (s.setStart mapFailed, 0)
    | some a => ({ s.setStart a with map := some (a, s.mm.max) }, 0)

/-- `mmap_fd` on a file, with the page size of the system. -/
def mmapFd (file : List UInt8) (pos : Nat) (modeWrite modePrivate : Bool) (blocksz pageSize : Int)
    (fstat : Bool) (r : Option Nat) : MmapState × Int :=
  let blocksz := if blocksz = 0 then 4 * pageSize else blocksz
  let s : MmapState := ⟨⟨modeWrite, modePrivate, blocksz, 0, 0, 0⟩, file, pos, none⟩
  if !fstat then (s, -1)
  else initMmap ((s.setMax file.length).setLen file.length) r

/-- `(n + blocksz - 1) / blocksz * blocksz`. -/
def mmapRound (blocksz : Int) (n : Nat) : Nat :=
  sizeT (n + intToSizeT blocksz + (2 ^ 64 - 1)) / intToSizeT blocksz * intToSizeT blocksz

/-- `lseek`: an offset is a signed 64-bit number. -/
def sysLseek (ok : Bool) (off : Nat) : Option Nat := if ok && off < 2 ^ 63 then some off else none

/-- `lseek` to the last byte of the new size, and a zero there; `false` where an `assertb` fails. The
result of `lseek` goes through an `int`. -/
def mmapExtend (s : MmapState) (r : MmapResults) : MmapState × Bool :=
  let last := sizeT (s.mm.max + (2 ^ 64 - 1))
  let res := sysLseek r.lseek last
  let s := { s with pos := res.getD s.pos }
  let e := match res with
    | none     => -1
    | some off => natToInt32 off
  if intToSizeT e ≠ last then (s, false)
  else if !r.write then (s, false)
  else ({ s with file := put s.file s.pos [0], pos := s.pos + 1 }, true)

/-- `mremap` from `oldMax` bytes, or the first `mmap`. Neither null test sees `MAP_FAILED`. -/
def mmapRemap (s : MmapState) (oldMax : Nat) (r : MmapResults) : MmapState :=
  if s.mm.start = 0 then (initMmap s r.map).1
  else
    match sysMap (if s.map = some (s.mm.start, oldMax) then r.map else none) s.mm.max with
    | none   => s.setStart mapFailed
    | some a => { s.setStart a with map := some (a, s.mm.max) }

/-- The end of `mmap_write`: the new length, and the pointer. -/
def mmapFinish (s : MmapState) (off sum : Nat) : MmapState × Nat :=
  (s.setLen (max s.mm.len sum), sizeT (s.mm.start + off))

/-- Where `mmap_write` writes. -/
def mmapOff (mm : Mmap) (off : Nat) : Nat := if off = mmapAppend then mm.len else off

/-- `mmap_write`: the pointer is 0 where an `assertb` fails. -/
def mmapWrite (s : MmapState) (off len : Nat) (r : MmapResults) : MmapState × Nat :=
  if !s.mm.modeWrite then (s, 0)
  else
    let off := mmapOff s.mm off
    let sum := sizeT (off + len)
    if s.mm.start = 0 ∨ s.mm.max < sum then
      let oldMax := s.mm.max
      let s := s.setMax (mmapRound s.mm.blocksz sum)
      if s.mm.max < sum then (s, 0)
      else
        let x := mmapExtend s r
        if x.2 then mmapFinish (mmapRemap x.1 oldMax r) off sum else (x.1, 0)
    else mmapFinish s off sum

/-- A store of the caller through a pointer into a shared mapping; `none` outside of it. -/
def mmapStore (s : MmapState) (ptr : Nat) (xs : List UInt8) : Option MmapState :=
  match s.map with
  | none        => none
  | some (a, n) =>
      if a ≤ ptr ∧ ptr + xs.length ≤ a + n then some { s with file := put s.file (ptr - a) xs }
      else none

/-- `mmap_close`, with the results of `munmap` and `ftruncate`. -/
def mmapClose (s : MmapState) (munmap ftruncate : Bool) : MmapState :=
  let s := { s.setStart 0 with map := if s.mm.start ≠ 0 && munmap then none else s.map }
  if s.mm.modeWrite && s.mm.len ≠ s.mm.max && ftruncate then
    { s with file := (pad s.mm.len s.file).take s.mm.len }
  else s

end Bklib
