import Mathlib.Algebra.Ring.Int.Defs
import Mathlib.Data.List.Basic

/-!
# `Bklib.Lib.SeqStream`: streams whose positions are sent modulo a power of two

A stream gives a byte, or nothing, for every position, which is an integer. `Covers st p xs` says
that `xs` is what the stream holds from position `p` on. A protocol sends the position `p` as the
word `seqOf w p` and compares words by their signed difference `seqDiff`. The difference of the words
is the difference of the positions when these are less than half the range apart (`seqDiff_seqOf`),
so a receiver that stays that close can place a segment: `Covers.splice` is the step that extends
what it has by the new part of an overlapping segment.
-/

set_option autoImplicit false

namespace Bklib.Lib

variable {β : Type*}

/-- The word that stands for position `p`. -/
def seqOf (w : Nat) (p : Int) : BitVec w := BitVec.ofInt w p

/-- The signed difference of two words. -/
def seqDiff {w : Nat} (a b : BitVec w) : Int := (a - b).toInt

theorem seqOf_add (w : Nat) (p q : Int) : seqOf w p + seqOf w q = seqOf w (p + q) :=
  (BitVec.ofInt_add p q).symm

theorem seqOf_sub (w : Nat) (p q : Int) : seqOf w p - seqOf w q = seqOf w (p - q) := by
  unfold seqOf
  rw [Int.sub_eq_add_neg, BitVec.ofInt_add, BitVec.ofInt_neg, BitVec.sub_eq_add_neg]

/-- Words tell how far apart two positions are, when these are less than half the range apart. -/
theorem seqDiff_seqOf {w : Nat} (hw : 0 < w) {p q : Int} (hlo : -2 ^ (w - 1) ≤ p - q)
    (hhi : p - q < 2 ^ (w - 1)) : seqDiff (seqOf w p) (seqOf w q) = p - q := by
  rw [seqDiff, seqOf_sub]
  exact BitVec.toInt_ofInt_eq_self hw hlo hhi

/-- The stream `st` holds `xs` from position `p` on. -/
def Covers (st : Int → Option β) (p : Int) (xs : List β) : Prop :=
  ∀ j : Nat, j < xs.length → st (p + j) = xs[j]?

instance [DecidableEq β] (st : Int → Option β) (p : Int) (xs : List β) :
    Decidable (Covers st p xs) :=
  inferInstanceAs (Decidable (∀ j : Nat, j < xs.length → _))

variable {st : Int → Option β} {p q : Int} {xs ys : List β}

@[simp] theorem covers_nil (st : Int → Option β) (p : Int) : Covers st p [] :=
  fun j hj => absurd hj (Nat.not_lt_zero j)

theorem Covers.drop (h : Covers st p xs) (k : Nat) : Covers st (p + k) (xs.drop k) := by
  intro j hj
  rw [List.length_drop] at hj
  rw [List.getElem?_drop, Int.add_assoc, ← Int.natCast_add]
  exact h (k + j) (by omega)

/-- Two pieces of a stream that meet cover it together. -/
theorem Covers.append (hx : Covers st p xs) (hy : Covers st (p + xs.length) ys) :
    Covers st p (xs ++ ys) := by
  intro j hj
  rw [List.length_append] at hj
  by_cases hlt : j < xs.length
  · rw [List.getElem?_append_left hlt]
    exact hx j hlt
  · have hyj := hy (j - xs.length) (by omega)
    rw [List.getElem?_append_right (by omega), ← hyj]
    congr 1
    omega

/-- A segment that starts at or before the end of what is covered extends it by what it has
behind that end. -/
theorem Covers.splice (hx : Covers st p xs) (hy : Covers st q ys) (hq : q ≤ p + xs.length) :
    Covers st p (xs ++ ys.drop (p + xs.length - q).toNat) := by
  apply hx.append
  have hdrop := hy.drop (p + xs.length - q).toNat
  rw [show q + ((p + xs.length - q).toNat : Int) = p + xs.length by omega] at hdrop
  exact hdrop

end Bklib.Lib
