import Bklib.Lib.Mem
import Bklib.Model.CInt
import Bklib.Model.Libc

/-!
# `Bklib.Model.Snprintf`: texts appended with `snprintf`

`buf` is where the next text goes, and `len` how much room is left. `snprintf` stores no more bytes
than its size says, one of them a NUL, and returns the length of the whole text. That is what `buf`
and `len` are moved by, so `len` becomes negative behind a text that was cut, and a negative `len` is
a huge size for the next one. The subtraction is exact: `len` is negative long before it could leave
the range of an `int`.
-/

set_option autoImplicit false

namespace Bklib

open Lib

/-- A buffer that texts are appended to, with a log of the ranges that were stored to. -/
structure SnBuf where
  mem    : Int → UInt8
  buf    : Int
  len    : Int
  stored : List (Int × Nat)

/-- The bytes that `snprintf` stores. -/
def snprintf (size : Nat) (text : List UInt8) : List UInt8 :=
  if size = 0 then [] else text.take (size - 1) ++ [0]

/-- `i = snprintf (buf, len, ..); buf += i; len -= i`. -/
def SnBuf.add (b : SnBuf) (text : List UInt8) : SnBuf :=
  let out := snprintf (intToSizeT b.len) text
  { mem    := writeAt b.mem b.buf out
    buf    := b.buf + text.length
    len    := b.len - text.length
    stored := b.stored ++ [(b.buf, out.length)] }

/-- Texts appended one after the other. -/
def SnBuf.adds (b : SnBuf) (texts : List (List UInt8)) : SnBuf := texts.foldl SnBuf.add b

/-- A buffer of `len` bytes at `buf`, before the first text. -/
def SnBuf.init (mem : Int → UInt8) (buf len : Int) : SnBuf := ⟨mem, buf, len, []⟩

/-! ## Conversions -/

/-- `%d`. The argument is an `int`. -/
def fmtD (x : Int) : List UInt8 := bytes (toString (toInt32 x))

/-- `%4d`: blanks in front, up to four characters. -/
def fmt4d (x : Int) : List UInt8 := List.replicate (4 - (fmtD x).length) 32 ++ fmtD x

/-- `%02x` of a byte. -/
def fmt02x (b : UInt8) : List UInt8 :=
  [b.toNat / 16, b.toNat % 16].map fun d => (Nat.digitChar d).toNat.toUInt8

end Bklib
