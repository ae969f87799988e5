import Mathlib.Algebra.Field.Rat
import Bklib.Model.CInt

/-!
# `Bklib.Model.Tstat`: sums over a time window, `tstat.c`

The values added are integers. The `double`s of the code hold those of at most 53 bits, and each sum is
rounded to one of these (`roundDouble`), where no sum comes near the largest `double`. Where the code
divides by zero, there is no result.
-/

set_option autoImplicit false

namespace Bklib

/-- A natural number as a `double`: of 53 bits, to nearest, ties to even. -/
def natDouble (n : Nat) : Nat :=
  let unit := 2 ^ (n.log2 - 52)
  let q := n / unit
  let r := n % unit
  (if unit < 2 * r ∨ unit = 2 * r ∧ q % 2 = 1 then q + 1 else q) * unit

/-- An integer as a `double`. -/
def roundDouble (x : Int) : Int := x.sign * natDouble x.natAbs

/-- `tstat_t`. The values are `double`s that are integers. -/
structure Tstat where
  val    : List Int
  window : Int
  tLast  : Int
  deriving DecidableEq

/-- `tstat_new`. The field is an `int`. -/
def tstatNew (window : Nat) : Tstat :=
  { val := List.replicate window 0, window := toInt32 window, tLast := 0 }

/-- `val[i]`. -/
def Tstat.at (stat : Tstat) (i : Int) : Int := stat.val.getD i.toNat 0

/-- The loop of `tstat_add`, of at most `fuel` rounds. -/
def tstatErase (t : Int) : Nat → Tstat → Option Tstat
  | 0,        _    => none
  | fuel + 1, stat =>
      let tLast := stat.tLast.tmod stat.window
      if tLast = t then some { stat with tLast }
      else tstatErase t fuel { stat with val := stat.val.set tLast.toNat 0, tLast := tLast + 1 }

/-- `tstat_add`. -/
def tstatAdd (stat : Tstat) (t val : Int) : Option Tstat :=
  if stat.window = 0 then none
  else
    let t := t.tmod stat.window
    -- a round for each slot is enough
    let erased := if t = stat.tLast then some stat
      else (tstatErase t stat.window.toNat { stat with tLast := stat.tLast + 1 }).map fun stat =>
        { stat with val := stat.val.set t.toNat 0, tLast := t }
    erased.map fun stat => { stat with val := stat.val.set t.toNat (roundDouble (stat.at t + val)) }

/-- The loop of `tstat_min` and `tstat_max`, with the comparison of each. -/
def tstatBest (better : Int → Int → Bool) (stat : Tstat) : Int :=
  (List.range stat.window.toNat).foldl
    (fun x (i : Nat) => if i = 0 ∨ better (stat.at i) x then stat.at i else x) 0

/-- `tstat_min`. -/
def tstatMin (stat : Tstat) : Int := tstatBest (fun a x => a < x) stat

/-- `tstat_max`. -/
def tstatMax (stat : Tstat) : Int := tstatBest (fun a x => a > x) stat

/-- The loop of `tstat_avg`. -/
def tstatSum (stat : Tstat) : Int :=
  (List.range stat.window.toNat).foldl (fun x (i : Nat) => roundDouble (x + stat.at i)) 0

/-- `tstat_avg`, before its quotient is rounded to a `double`. -/
def tstatAvg (stat : Tstat) : ℚ := tstatSum stat / (stat.window : ℚ)

/-- Calls of `tstat_add`, with their times and values. -/
def tstatAdds (stat : Tstat) (calls : List (Int × Int)) : Option Tstat :=
  calls.foldlM (fun stat call => tstatAdd stat call.1 call.2) stat

end Bklib
