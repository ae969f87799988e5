import Bklib.Model.CInt
import Bklib.Model.Word

/-!
# `Bklib.Model.Pack`: `pack.h`

One function reads and writes a field, as its direction says. `buf` and `len` are where the next
field goes and how much room is left; both keep moving when a field did not fit.
-/

set_option autoImplicit false

namespace Bklib

open Bklib.Lib

/-- `pack_dir_t`. -/
inductive PackDir where
  | read
  | write
  deriving DecidableEq

/-- What `char **buf` and `int *len` lead to. -/
structure PackBuf where
  mem : Int → UInt8
  buf : Int
  len : Int

/-- `*buf += n; *len -= n`. The functions return how far `buf` has moved. -/
def PackBuf.advance (s : PackBuf) (n : Int) : PackBuf :=
  { s with buf := s.buf + n, len := toInt32 (s.len - n) }

/-- `pack_i16`: the room that is left and `*v`. -/
def packI16 (d : PackDir) (s : PackBuf) (v : Int) : PackBuf × Int :=
  match d with
  | .read  => (s.advance 2, if 2 ≤ s.len then toInt16 (htons (get16 s.mem s.buf)) else v)
  | .write =>
      ({ s with
          mem := if 2 ≤ s.len then put16 s.mem s.buf (htons (v % 65536).toNat) else s.mem }.advance 2,
        v)

/-- `pack_i32`. -/
def packI32 (d : PackDir) (s : PackBuf) (v : Int) : PackBuf × Int :=
  match d with
  | .read  => (s.advance 4, if 4 ≤ s.len then toInt32 (htonl (get32 s.mem s.buf)).toNat else v)
  | .write =>
      ({ s with
          mem := if 4 ≤ s.len then put32 s.mem s.buf (htonl (UInt32.ofInt v)) else s.mem }.advance 4,
        v)

/-- The copy in `pack_buf16` and `pack_buf32`, and the NUL behind what was read if there is room.
`v` is the memory from the caller's pointer on. A length that was read may be negative, and the C
code does not survive `memcpy` then; here it copies nothing. -/
def packCopy (d : PackDir) (s : PackBuf) (v : Int → UInt8) (vlen max : Int) :
    PackBuf × (Int → UInt8) :=
  match d with
  | .read  =>
      let v := writeAt v 0 (readAt s.mem s.buf vlen.toNat)
      (s, if vlen < max then writeAt v vlen [0] else v)
  | .write => ({ s with mem := writeAt s.mem s.buf (readAt v 0 vlen.toNat) }, v)

/-- `if (max == 0) max = *vlen`. -/
def packMax (vlen max : Int) : Int := if max = 0 then vlen else max

/-- `pack_buf16`: the room that is left, `v` and `*vlen`. -/
def packBuf16 (d : PackDir) (s : PackBuf) (v : Int → UInt8) (vlen max : Int) :
    PackBuf × (Int → UInt8) × Int :=
  let max := packMax vlen max
  let (s, vlen) := packI16 d s vlen
  let (s, v) := if vlen ≤ s.len ∧ vlen ≤ max then packCopy d s v vlen max else (s, v)
  (s.advance vlen, v, vlen)

/-- `pack_buf32`, which does not ask for `max` before it copies. -/
def packBuf32 (d : PackDir) (s : PackBuf) (v : Int → UInt8) (vlen max : Int) :
    PackBuf × (Int → UInt8) × Int :=
  let max := packMax vlen max
  let (s, vlen) := packI32 d s vlen
  let (s, v) := if vlen ≤ s.len then packCopy d s v vlen max else (s, v)
  (s.advance vlen, v, vlen)

/-! ## Sequences of fields -/

/-- The arguments of one call. -/
inductive PackField where
  | i16 (v : Int)
  | i32 (v : Int)
  | buf16 (v : Int → UInt8) (vlen max : Int)
  | buf32 (v : Int → UInt8) (vlen max : Int)

/-- One call: the room that is left, and the arguments as they are then. -/
def PackField.pack (d : PackDir) (s : PackBuf) : PackField → PackBuf × PackField
  | .i16 v            => let (s, v) := packI16 d s v; (s, .i16 v)
  | .i32 v            => let (s, v) := packI32 d s v; (s, .i32 v)
  | .buf16 v vlen max => let (s, v, vlen) := packBuf16 d s v vlen max; (s, .buf16 v vlen max)
  | .buf32 v vlen max => let (s, v, vlen) := packBuf32 d s v vlen max; (s, .buf32 v vlen max)

/-- Calls for a list of fields, one after the other. -/
def packFields (d : PackDir) : PackBuf → List PackField → PackBuf × List PackField
  | s, []        => (s, [])
  | s, f :: rest =>
      let (s, f) := f.pack d s
      let (s, rest) := packFields d s rest
      (s, f :: rest)

/-! ## What a read touches -/

/-- The ranges of the input that are read and those of `v` that are written: where they start, and
their sizes. -/
structure PackAccess where
  reads  : List (Int × Nat)
  writes : List (Int × Nat)

/-- `memcpy (v, *buf, *vlen)`, and the NUL. -/
def packCopyAccess (s : PackBuf) (vlen max : Int) : PackAccess :=
  { reads := [(s.buf, intToSizeT vlen)]
    writes := (0, intToSizeT vlen) :: if vlen < max then [(vlen, 1)] else [] }

/-- What `pack_buf16` touches with `PACK_READ`. -/
def packBuf16Access (s : PackBuf) (vlen max : Int) : PackAccess :=
  let max := packMax vlen max
  let reads := if 2 ≤ s.len then [(s.buf, 2)] else []
  let (s, vlen) := packI16 .read s vlen
  if vlen ≤ s.len ∧ vlen ≤ max then
    let copy := packCopyAccess s vlen max
    { copy with reads := reads ++ copy.reads }
  else { reads, writes := [] }

/-- What `pack_buf32` touches with `PACK_READ`. -/
def packBuf32Access (s : PackBuf) (vlen max : Int) : PackAccess :=
  let max := packMax vlen max
  let reads := if 4 ≤ s.len then [(s.buf, 4)] else []
  let (s, vlen) := packI32 .read s vlen
  if vlen ≤ s.len then
    let copy := packCopyAccess s vlen max
    { copy with reads := reads ++ copy.reads }
  else { reads, writes := [] }

/-! ## Bit fields -/

/-- `x << n`. The machine counts modulo the width. -/
def shl32 (x : BitVec 32) (n : Int) : BitVec 32 := x <<< (n % 32).toNat

/-- `x >> n` of an `int`. -/
def sar32 (x : BitVec 32) (n : Int) : BitVec 32 := x.sshiftRight (n % 32).toNat

/-- `pack_bits32`: the result, `*p` and `*bits`. -/
def packBits32 (d : PackDir) (p : BitVec 32) (fromBit toBit : Int) (bits : BitVec 32) :
    Int × BitVec 32 × BitVec 32 :=
  let len := fromBit - toBit + 1
  let shift := 32 - len
  let mask := ~~~(-(shl32 1 len))
  if shift < 0 ∨ len < 0 ∨ 32 < len then (-1, p, bits)
  else
    match d with
    | .write =>
        let p := p &&& ~~~(shl32 mask shift)
        (len, p ||| shl32 (bits &&& mask) shift, bits)
    | .read => (len, p, sar32 (p &&& shl32 mask shift) shift)

end Bklib
