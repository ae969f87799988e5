import Mathlib.Data.Nat.ModEq

/-!
# `Bklib.Lib.OnesComplement`: arithmetic with an end-around carry

Numbers of a width where all ones is `m` are added modulo `m`, and zero has two forms, 0 and `m`.
`onesRep m n` is the form a sum of words gets: 0 for an empty sum only, and `m` for every other
multiple of `m`. Adding the carry back in keeps the form, and two rounds of it are enough.

`onesSum` adds words one by one with their carry, and comes to the form of their sum.
-/

set_option autoImplicit false

namespace Bklib.Lib

/-- What is above the width, added to what is within it. -/
def endCarry (m n : Nat) : Nat := n / (m + 1) + n % (m + 1)

/-- The number from 0 to `m` that `n` is in one's complement. -/
def onesRep (m n : Nat) : Nat := if n = 0 then 0 else (n - 1) % m + 1

@[simp] theorem onesRep_zero (m : Nat) : onesRep m 0 = 0 := rfl

theorem onesRep_of_pos {m n : Nat} (hn : 0 < n) : onesRep m n = (n - 1) % m + 1 :=
  if_neg (Nat.pos_iff_ne_zero.mp hn)

@[simp] theorem onesRep_eq_zero {m n : Nat} : onesRep m n = 0 ↔ n = 0 := by
  cases n with
  | zero   => simp
  | succ n => simp [onesRep]

/-- A representative is at most the modulus. -/
theorem onesRep_le {m : Nat} (hm : 0 < m) (n : Nat) : onesRep m n ≤ m := by
  cases n with
  | zero   => simp
  | succ n =>
      rw [onesRep_of_pos (Nat.succ_pos n)]
      exact Nat.mod_lt _ hm

theorem onesRep_mod (m n : Nat) : onesRep m n % m = n % m := by
  cases n with
  | zero   => rfl
  | succ n => rw [onesRep_of_pos (Nat.succ_pos n), Nat.succ_sub_one, Nat.mod_add_mod]

/-- A number within the width is the form of every sum that it is congruent to. -/
theorem eq_onesRep {m n r : Nat} (hr : r ≤ m) (hmod : r % m = n % m) (hz : r = 0 ↔ n = 0) :
    r = onesRep m n := by
  cases r with
  | zero   => rw [hz.mp rfl, onesRep_zero]
  | succ r =>
      have hn : n ≠ 0 := fun h => Nat.succ_ne_zero r (hz.mpr h)
      obtain ⟨k, rfl⟩ := Nat.exists_eq_succ_of_ne_zero hn
      rw [onesRep_of_pos (Nat.succ_pos k), Nat.succ_sub_one]
      have hrk : r % m = k % m := Nat.ModEq.add_right_cancel' 1 hmod
      rw [← hrk, Nat.mod_eq_of_lt hr]

theorem onesRep_congr {m a b : Nat} (hm : 0 < m) (hmod : a % m = b % m) (hz : a = 0 ↔ b = 0) :
    onesRep m a = onesRep m b :=
  eq_onesRep (onesRep_le hm a) ((onesRep_mod m a).trans hmod) (onesRep_eq_zero.trans hz)

/-- Sums that are not empty have the same form when they are congruent. -/
theorem onesRep_inj {m a b : Nat} (hm : 0 < m) (ha : 0 < a) (hb : 0 < b) :
    onesRep m a = onesRep m b ↔ a % m = b % m := by
  constructor
  · intro h
    rw [← onesRep_mod m a, h, onesRep_mod]
  · intro h
    exact onesRep_congr hm h (by omega)

/-- All ones is the form of the multiples of `m`, the empty sum apart. -/
theorem onesRep_eq_top {m n : Nat} (hm : 0 < m) : onesRep m n = m ↔ n ≠ 0 ∧ n % m = 0 := by
  constructor
  · intro h
    have hmod := onesRep_mod m n
    rw [h, Nat.mod_self] at hmod
    exact ⟨fun hn => by subst hn; exact absurd h (by rw [onesRep_zero]; omega), hmod.symm⟩
  · rintro ⟨hn, hmod⟩
    refine (eq_onesRep (Nat.le_refl m) ?_ ?_).symm
    · rw [Nat.mod_self, hmod]
    · exact iff_of_false (by omega) hn

/-- A part of a sum may be brought into the width first. -/
theorem onesRep_add_left {m : Nat} (hm : 0 < m) (a b : Nat) :
    onesRep m (onesRep m a + b) = onesRep m (a + b) := by
  apply onesRep_congr hm
  · rw [Nat.add_mod, onesRep_mod, ← Nat.add_mod]
  · rw [Nat.add_eq_zero_iff, Nat.add_eq_zero_iff, onesRep_eq_zero]

/-! ## The carry -/

theorem endCarry_add (m n : Nat) : endCarry m n + m * (n / (m + 1)) = n := by
  have h := Nat.div_add_mod n (m + 1)
  rw [Nat.add_mul, Nat.one_mul] at h
  unfold endCarry
  omega

theorem endCarry_mod (m n : Nat) : endCarry m n % m = n % m := by
  have h := congrArg (· % m) (endCarry_add m n)
  simpa only [Nat.add_mul_mod_self_left] using h

/-- Only zero folds to zero. -/
theorem endCarry_eq_zero {m n : Nat} : endCarry m n = 0 ↔ n = 0 := by
  constructor
  · intro h
    have hadd := endCarry_add m n
    have hdiv : n / (m + 1) = 0 := (Nat.add_eq_zero_iff.mp h).1
    rwa [h, hdiv, Nat.mul_zero, Nat.add_zero, eq_comm] at hadd
  · rintro rfl
    simp [endCarry]

theorem onesRep_endCarry {m : Nat} (hm : 0 < m) (n : Nat) :
    onesRep m (endCarry m n) = onesRep m n :=
  onesRep_congr hm (endCarry_mod m n) endCarry_eq_zero

/-- The carry of a sum that fits twice the width fits the width. -/
theorem endCarry_le {m n : Nat} (h : n ≤ 2 * m) : endCarry m n ≤ m := by
  have hadd := endCarry_add m n
  cases Nat.lt_or_ge n (m + 1) with
  | inl hlt => rw [Nat.div_eq_of_lt hlt] at hadd; omega
  | inr hge =>
      have hdiv : 1 ≤ n / (m + 1) := (Nat.one_le_div_iff (Nat.succ_pos m)).mpr hge
      have hmul : m * 1 ≤ m * (n / (m + 1)) := Nat.mul_le_mul_left m hdiv
      omega

theorem endCarry_le_two_mul {m n : Nat} (h : n < (m + 1) * (m + 1)) : endCarry m n ≤ 2 * m := by
  have hdiv : n / (m + 1) < m + 1 := Nat.div_lt_of_lt_mul h
  have hmod : n % (m + 1) < m + 1 := Nat.mod_lt n (Nat.succ_pos m)
  unfold endCarry
  omega

/-- Two rounds of the carry bring a sum within the square of the base into the width. -/
theorem endCarry_endCarry {m n : Nat} (hm : 0 < m) (h : n < (m + 1) * (m + 1)) :
    endCarry m (endCarry m n) = onesRep m n := by
  rw [← onesRep_endCarry hm n, ← onesRep_endCarry hm (endCarry m n)]
  exact eq_onesRep (endCarry_le (endCarry_le_two_mul h)) rfl Iff.rfl

/-- The second round may add the carry before it cuts at the width. -/
theorem add_carry_mod {m n : Nat} (h : n ≤ 2 * m) :
    (n + n / (m + 1)) % (m + 1) = endCarry m n := by
  have hle := endCarry_le h
  rw [Nat.add_comm, ← Nat.add_mod_mod, ← endCarry, Nat.mod_eq_of_lt (Nat.lt_succ_of_le hle)]

/-! ## Sums with a carry at each step -/

/-- The sum of words in one's complement: a carry goes back in with each of them. -/
def onesSum (m : Nat) (ws : List Nat) : Nat := ws.foldl (fun s w => endCarry m (s + w)) 0

theorem endCarry_onesRep_add {m w : Nat} (hm : 0 < m) (hw : w ≤ m) (n : Nat) :
    endCarry m (onesRep m n + w) = onesRep m (n + w) := by
  have hle := onesRep_le hm n
  rw [← onesRep_add_left hm, ← onesRep_endCarry hm (onesRep m n + w)]
  exact eq_onesRep (endCarry_le (by omega)) rfl Iff.rfl

/-- The carries may as well go back in at the end. -/
theorem onesSum_eq {m : Nat} (hm : 0 < m) {ws : List Nat} (h : ∀ w ∈ ws, w ≤ m) :
    onesSum m ws = onesRep m ws.sum := by
  -- behind the words so far, the accumulator is the form of their sum
  have hfold : ∀ n,
      ws.foldl (fun s w => endCarry m (s + w)) (onesRep m n) = onesRep m (n + ws.sum) := by
    induction ws with
    | nil => exact fun n => rfl
    | cons w ws ih =>
        intro n
        rw [List.foldl_cons, endCarry_onesRep_add hm (h w List.mem_cons_self),
          ih (fun w' hw' => h w' (List.mem_cons_of_mem w hw')), List.sum_cons, Nat.add_assoc]
  have hstart := hfold 0
  rwa [onesRep_zero, Nat.zero_add] at hstart

end Bklib.Lib
