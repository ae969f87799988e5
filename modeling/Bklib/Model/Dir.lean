import Bklib.Model.Libc

/-!
# `Bklib.Model.Dir`: `dir_basename` of `dir.c`

The path is a C string, and `p` is an offset into it.
-/

set_option autoImplicit false

namespace Bklib

/-- `strchr (s, c) != 0`. The NUL behind `s` counts as one of its characters. -/
def strchrFinds (s : List UInt8) (c : UInt8) : Bool := c ∈ s ∨ c = 0

/-- The `n` bytes that `strncpy (dst, s, n)` stores. -/
def strncpy (s : List UInt8) (n : Nat) : List UInt8 := s.take n ++ List.replicate (n - s.length) 0

/-- `PATH_SEP`. -/
def pathSep : List UInt8 := bytes "\\/"

/-- `for (; p > path && test; p--)`, where the test is one of `*p`. -/
def seekBack (test : UInt8 → Bool) (path : List UInt8) : Nat → Nat
  | 0     => 0
  | p + 1 => if test (path.getD (p + 1) 0) then seekBack test path p else p + 1

/-- Skip trailing separators. -/
def skipSeps (path : List UInt8) (p : Nat) : Nat := seekBack (strchrFinds pathSep) path p

/-- Seek back to the last separator. -/
def seekSep (path : List UInt8) (p : Nat) : Nat := seekBack (fun c => !strchrFinds pathSep c) path p

/-- `dir_basename`: the bytes of `basename`. -/
def dirBasename (path : List UInt8) (len : Nat) : List UInt8 :=
  let p := skipSeps path path.length
  let p := seekSep path p
  let p := if strchrFinds pathSep (path.getD p 0) then p + 1 else p
  strncpy (path.drop p) len

end Bklib
