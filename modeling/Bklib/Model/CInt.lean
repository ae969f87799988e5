import Mathlib.Algebra.Ring.Int.Defs
import Mathlib.Algebra.Ring.Nat
import Mathlib.Data.UInt

/-!
# `Bklib.Model.CInt`: the fixed-width integers of C

A C `int` is an `Int` in `[-2 ^ 31, 2 ^ 31)`. Where the width matters, `toInt32` brings a value back
into that range, as the compiled two's complement arithmetic does.
-/

set_option autoImplicit false

namespace Bklib

/-- The 32-bit `int` with the low bits of `x`. -/
def toInt32 (x : Int) : Int := x.bmod (2 ^ 32)

theorem toInt32_def (x : Int) : toInt32 x = x.bmod (2 ^ 32) := rfl

theorem toInt32_eq_self {x : Int} (h : -(2 ^ 31) ≤ x) (h' : x < 2 ^ 31) : toInt32 x = x :=
  Int.bmod_eq_of_le (by omega) (by omega)

theorem toInt32_range (x : Int) : -(2 ^ 31) ≤ toInt32 x ∧ toInt32 x < 2 ^ 31 := by
  rw [toInt32, Int.bmod_eq_emod]
  split <;> omega

theorem toInt32_succ (n : Int) : toInt32 (toInt32 n + 1) = toInt32 (n + 1) := Int.bmod_add_bmod

theorem toInt32_pred (n : Int) : toInt32 (toInt32 n - 1) = toInt32 (n - 1) := Int.bmod_sub_bmod

/-- `a + b` in `int`s. There is no result where it overflows. -/
def intAdd (a b : Int) : Option Int :=
  if -(2 ^ 31) ≤ a + b ∧ a + b < 2 ^ 31 then some (a + b) else none

theorem intAdd_natCast {a b : Nat} (h : a + b < 2 ^ 31) : intAdd a b = some ((a + b : Nat) : Int) := by
  rw [intAdd, if_pos (by omega), Nat.cast_add]

theorem intAdd_zero {b : Nat} (h : b < 2 ^ 31) : intAdd 0 b = some (b : Int) := by
  rw [intAdd, if_pos (by omega), Int.zero_add]

/-- Dropping high bits never makes a non-negative value larger. -/
theorem toInt32_le {x : Int} (h : 0 ≤ x) : toInt32 x ≤ x := by
  rw [toInt32, Int.bmod_eq_emod]
  split <;> omega

/-- The 32-bit `int` made from an unsigned number. -/
def natToInt32 (n : Nat) : Int :=
  if n % 2 ^ 32 < 2 ^ 31 then (n % 2 ^ 32 : Nat) else (n % 2 ^ 32 : Nat) - 2 ^ 32

theorem natToInt32_eq (n : Nat) : natToInt32 n = toInt32 n := by
  rw [natToInt32, toInt32, Int.bmod_eq_emod]
  split <;> split <;> omega

theorem natToInt32_eq_self {n : Nat} (h : n < 2 ^ 31) : natToInt32 n = n := by
  rw [natToInt32_eq]
  exact toInt32_eq_self (by omega) (by omega)

/-- An `int` as a `size_t`. -/
def intToSizeT (i : Int) : Nat := (i % 2 ^ 64).toNat

theorem intToSizeT_natCast {n : Nat} (h : n < 2 ^ 64) : intToSizeT n = n := by
  rw [intToSizeT]
  omega

/-- The 16-bit `short` with the low bits of `x`. -/
def toInt16 (x : Int) : Int := x.bmod (2 ^ 16)

/-- A plain `char`, which is signed, as an `int`. -/
def charToInt (b : UInt8) : Int := if b < 128 then b.toNat else (b.toNat : Int) - 256

theorem charToInt_of_lt {b : UInt8} (h : b.toNat < 128) : charToInt b = b.toNat :=
  if_pos (UInt8.lt_iff_toNat_lt.mpr h)

theorem charToInt_of_ge {b : UInt8} (h : 128 ≤ b.toNat) : charToInt b = (b.toNat : Int) - 256 :=
  if_neg fun hlt => Nat.not_lt_of_le h (UInt8.lt_iff_toNat_lt.mp hlt)

end Bklib
