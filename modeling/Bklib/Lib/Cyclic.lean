import Mathlib.Algebra.BigOperators.Group.Finset.Basic
import Mathlib.Algebra.Order.Group.Unbundled.Int
import Mathlib.Data.Int.ConditionallyCompleteOrder
import Mathlib.Data.Int.Interval
import Mathlib.Data.Set.Function
import Mathlib.Order.ConditionallyCompleteLattice.Basic

/-!
# `Bklib.Lib.Cyclic`: a window of numbers in the slots of an array

The numbers of a window `(b - w, b]` have one slot each when they are taken modulo `w`
(`bijOn_emod`). So what is said of all slots, or added up over them, is said of the window and added
up over it (`image_emod`, `sum_emod`).
-/

set_option autoImplicit false

namespace Bklib.Lib

variable {w b : Int}

/-- Two numbers of a window in one slot are the same. -/
theorem emod_inj {i j : Int} (hi : i ∈ Set.Ioc (b - w) b) (hj : j ∈ Set.Ioc (b - w) b)
    (h : i % w = j % w) : i = j := by
  have hdvd : w ∣ i - j := Int.dvd_of_emod_eq_zero (Int.emod_eq_emod_iff_emod_sub_eq_zero.mp h)
  have habs : |i - j| < w := by
    rw [abs_lt]
    obtain ⟨hi₁, hi₂⟩ := hi
    obtain ⟨hj₁, hj₂⟩ := hj
    omega
  exact Int.sub_eq_zero.mp (Int.eq_zero_of_abs_lt_dvd hdvd habs)

/-- The number of the window that is in slot `k`. -/
theorem exists_emod {k : Int} (hk : k ∈ Set.Ico 0 w) : ∃ i ∈ Set.Ioc (b - w) b, i % w = k := by
  have hw : 0 < w := Int.lt_of_le_of_lt hk.1 hk.2
  have hlo := Int.emod_nonneg (b - k) (Int.ne_of_gt hw)
  have hhi := Int.emod_lt_of_pos (b - k) hw
  refine ⟨b - (b - k) % w, ⟨by omega, by omega⟩, ?_⟩
  rw [Int.sub_emod_emod, Int.sub_sub_self, Int.emod_eq_of_lt hk.1 hk.2]

variable (b) in
/-- A window and its slots. -/
theorem bijOn_emod (hw : 0 < w) : Set.BijOn (· % w) (Set.Ioc (b - w) b) (Set.Ico 0 w) :=
  ⟨fun i _ => ⟨Int.emod_nonneg i (Int.ne_of_gt hw), Int.emod_lt_of_pos i hw⟩,
    fun _ hi _ hj h => emod_inj hi hj h, fun _ hk => exists_emod hk⟩

variable (b) in
theorem image_emod {α : Type*} (hw : 0 < w) (f : Int → α) :
    (fun i => f (i % w)) '' Set.Ioc (b - w) b = f '' Set.Ico 0 w := by
  rw [← (bijOn_emod b hw).image_eq, Set.image_image]

variable (b) in
/-- A window of `w` steps in a row meets every residue once, so the sum over the window is the sum
over the residues. -/
theorem sum_emod {α : Type*} [AddCommMonoid α] (hw : 0 < w) (f : Int → α) :
    ∑ i ∈ Finset.Ioc (b - w) b, f (i % w) = ∑ k ∈ Finset.Ico 0 w, f k := by
  have hbij := bijOn_emod b hw
  refine Finset.sum_nbij (· % w) (fun i hi => ?_) ?_ ?_ fun _ _ => rfl
  · exact Finset.mem_Ico.mpr (hbij.mapsTo (Finset.mem_Ioc.mp hi))
  · rw [Finset.coe_Ioc]
    exact hbij.injOn
  · rw [Finset.coe_Ioc, Finset.coe_Ico]
    exact hbij.surjOn

end Bklib.Lib
