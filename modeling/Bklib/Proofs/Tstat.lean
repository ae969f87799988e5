import Mathlib.Algebra.BigOperators.Group.Finset.Piecewise
import Mathlib.Algebra.Order.BigOperators.Group.Finset
import Mathlib.Order.Bounds.Basic
import Bklib.Lib.Cyclic
import Bklib.Model.Tstat

/-!
# `Bklib.Proofs.Tstat`: what a time window holds

`tstat_add` should clear the slots of all intervals since the last call. It takes the time modulo the
window first, so it clears one slot for each interval of the gap modulo the window, and from a gap of
the length of the window on some slots keep what they had (`tstatAdd_spec`). `tstat_window_iff` says
for every run that the slots are right after each call exactly when each gap is shorter than the window
or the slots that are kept hold nothing. The sums of the run must stay where a `double` is exact.
-/

set_option autoImplicit false

namespace Bklib

open Lib

/-! ## What a window should hold -/

/-- The sum of the values added for an interval. -/
def intervalSum (calls : List (Int × Int)) (i : Int) : Int :=
  ((calls.filter fun call => call.1 = i).map (·.2)).sum

/-- The time of the last call. A new `tstat_t` is at 0. -/
def lastTime (calls : List (Int × Int)) : Int := (calls.getLast?.map (·.1)).getD 0

/-- The last `window` intervals, up to the last call. -/
def lastWindow (window : Int) (calls : List (Int × Int)) : Set Int :=
  Set.Ioc (lastTime calls - window) (lastTime calls)

/-- Each of the last intervals has its sum in its slot, and minimum, maximum and average are those of
the last intervals. -/
structure HoldsWindow (window : Int) (calls : List (Int × Int)) (stat : Tstat) : Prop where
  slots : ∀ i ∈ lastWindow window calls, stat.at (i % window) = intervalSum calls i
  min   : IsLeast (intervalSum calls '' lastWindow window calls) (tstatMin stat)
  max   : IsGreatest (intervalSum calls '' lastWindow window calls) (tstatMax stat)
  avg   : tstatAvg stat =
    ((∑ i ∈ Finset.Ioc (lastTime calls - window) (lastTime calls), intervalSum calls i : Int) : ℚ)
      / window

/-- A call at `t` comes within the window of the last one, or else there is nothing in the intervals
whose slots are not cleared: the last ones, less as many as the gap is modulo the window. -/
def GapFits (window : Int) (calls : List (Int × Int)) (t : Int) : Prop :=
  t - lastTime calls < window ∨
    ∀ i, lastTime calls - window + (t - lastTime calls) % window < i → i ≤ lastTime calls →
      intervalSum calls i = 0

/-- What the last intervals sum up to, without their signs. -/
noncomputable def absSum (window : Int) (calls : List (Int × Int)) : Nat :=
  ∑ i ∈ Finset.Ioc (lastTime calls - window) (lastTime calls), (intervalSum calls i).natAbs

/-- At each call the last intervals and the new value stay within the 53 bits of a `double`. -/
def SumsExact (window : Int) (calls : List (Int × Int)) : Prop :=
  ∀ pre t x, pre ++ [(t, x)] <+: calls → absSum window pre + x.natAbs ≤ 2 ^ 53

/-! ## Rounding -/

/-- A number up to 2^53 is a double. -/
theorem natDouble_eq_self {n : Nat} (h : n ≤ 2 ^ 53) : natDouble n = n := by
  rcases Nat.lt_or_eq_of_le h with hlt | rfl
  · have hlog : n.log2 - 52 = 0 := by
      rcases Nat.eq_zero_or_pos n with rfl | hpos
      · rfl
      · have hbits := (Nat.log2_lt (Nat.ne_of_gt hpos)).mpr hlt
        omega
    simp only [natDouble, hlog, Nat.pow_zero, Nat.div_one, Nat.mod_one, Nat.mul_one]
    exact if_neg (by omega)
  · decide

/-- Integers of 53 bits are not rounded. -/
theorem roundDouble_eq_self {x : Int} (h : x.natAbs ≤ 2 ^ 53) : roundDouble x = x := by
  rw [roundDouble, natDouble_eq_self h, Int.sign_mul_natAbs]

/-! ## One call -/

/-- `k` is the slot of one of the `d` intervals behind `last`. -/
def SlotPassed (window last d k : Int) : Prop := ∃ j, 0 < j ∧ j ≤ d ∧ (last + j) % window = k

section Add

variable {w : Int} {stat : Tstat} {r k : Int}

/-- A `tstat_t` of `w` slots, at the interval `last`. -/
structure TstatAt (w last : Int) (stat : Tstat) : Prop where
  pos    : 0 < w
  window : stat.window = w
  length : stat.val.length = w
  tLast  : stat.tLast = last % w

/-- A slot after a store: the stored value there, the old one elsewhere. -/
theorem Tstat.at_set (val : List Int) {i : Int} (x : Int) (hi : 0 ≤ i) (hlt : i < val.length) (hk : 0 ≤ k)
    (window tLast : Int) :
    (⟨val.set i.toNat x, window, tLast⟩ : Tstat).at k =
      if k = i then x else (⟨val, window, tLast⟩ : Tstat).at k := by
  simp only [Tstat.at, List.getD_eq_getElem?_getD]
  by_cases hki : k = i
  · subst hki
    rw [List.getElem?_set_self (by omega), if_pos rfl]
    rfl
  · rw [List.getElem?_set_ne (by omega), if_neg hki]

theorem slotPassed_mod {last d : Int} : SlotPassed w (last % w) d k ↔ SlotPassed w last d k := by
  simp only [SlotPassed, Int.emod_add_emod]

/-- The first slot that is passed, and the others. -/
theorem slotPassed_succ (s : Int) (d : Nat) :
    SlotPassed w (s - 1) (d + 1 : Nat) k ↔ k = s % w ∨ SlotPassed w s d k := by
  constructor
  · rintro ⟨j, hpos, hle, hj⟩
    by_cases hone : j = 1
    · rw [hone, Int.sub_add_cancel] at hj
      exact Or.inl hj.symm
    · refine Or.inr ⟨j - 1, by omega, by omega, ?_⟩
      rw [← hj]
      exact congrArg (· % w) (by omega)
  · rintro (hk | ⟨j, hpos, hle, hj⟩)
    · refine ⟨1, by omega, by omega, ?_⟩
      rw [Int.sub_add_cancel]
      exact hk.symm
    · refine ⟨j + 1, by omega, by omega, ?_⟩
      rw [← hj]
      exact congrArg (· % w) (by omega)

/-- The loop clears the slots that it passes. -/
theorem tstatErase_spec (hw : 0 < w) (d : Nat) :
    ∀ (fuel : Nat) (stat : Tstat), stat.window = w → stat.val.length = w → 0 ≤ stat.tLast →
      (d : Int) < w → d < fuel → (stat.tLast + d) % w = r →
      ∃ stat', tstatErase r fuel stat = some stat' ∧ stat'.window = w ∧ stat'.val.length = w ∧
        ∀ k ∈ Set.Ico 0 w,
          (SlotPassed w (stat.tLast - 1) d k → stat'.at k = 0) ∧
          (¬SlotPassed w (stat.tLast - 1) d k → stat'.at k = stat.at k) := by
  induction d with
  | zero =>
      intro fuel stat hwindow hlength hlast _ hfuel hr
      obtain ⟨fuel, rfl⟩ := Nat.exists_eq_succ_of_ne_zero (Nat.ne_of_gt hfuel)
      -- the loop has come to `r` and clears nothing
      refine ⟨{ stat with tLast := r }, ?_, hwindow, hlength, fun k _ => ⟨?_, fun _ => rfl⟩⟩
      · rw [Nat.cast_zero, Int.add_zero] at hr
        simp only [tstatErase, hwindow, Int.tmod_eq_emod_of_nonneg hlast, hr, if_pos]
      · rintro ⟨j, hpos, hle, -⟩
        exact absurd hpos (Int.not_lt.mpr hle)
  | succ d ih =>
      intro fuel stat hwindow hlength hlast hd hfuel hr
      obtain ⟨fuel, rfl⟩ := Nat.exists_eq_succ_of_ne_zero (Nat.ne_of_gt (Nat.zero_lt_of_lt hfuel))
      have hlo := Int.emod_nonneg stat.tLast (Int.ne_of_gt hw)
      have hhi := Int.emod_lt_of_pos stat.tLast hw
      -- less than a window before `r`, the loop is not there yet
      have hne : stat.tLast % w ≠ r := by
        intro hsame
        have hinj := emod_inj (b := stat.tLast + (d + 1 : Nat)) ⟨by omega, by omega⟩
          ⟨by omega, by omega⟩ (hsame.trans hr.symm)
        omega
      have hmod : (stat.tLast % w + 1 + d) % w = r := by
        rw [Int.add_assoc, Int.emod_add_emod, ← hr]
        exact congrArg (· % w) (by omega)
      obtain ⟨stat', hrun, hwindow', hlength', hslots⟩ := ih fuel
        ⟨stat.val.set (stat.tLast % w).toNat 0, w, stat.tLast % w + 1⟩ rfl
        (by rw [List.length_set]; exact hlength) (by show 0 ≤ stat.tLast % w + 1; omega) (by omega)
        (by omega) hmod
      refine ⟨stat', ?_, hwindow', hlength', fun k hk => ?_⟩
      · simp only [tstatErase, hwindow, Int.tmod_eq_emod_of_nonneg hlast, if_neg hne]
        exact hrun
      · obtain ⟨hcleared, hkept⟩ := hslots k hk
        rw [show stat.tLast % w + 1 - 1 = stat.tLast % w by omega, slotPassed_mod] at hcleared hkept
        rw [slotPassed_succ]
        have hset := Tstat.at_set stat.val 0 hlo (by omega) hk.1 w
          (stat.tLast % w + 1)
        -- the first slot is cleared here, the others by the rest of the loop
        by_cases hpassed : SlotPassed w stat.tLast d k
        · exact ⟨fun _ => hcleared hpassed, fun hnot => absurd (Or.inr hpassed) hnot⟩
        · rw [hkept hpassed, hset]
          refine ⟨fun h => if_pos (h.resolve_right hpassed), fun hnot => ?_⟩
          exact if_neg fun hk' => hnot (Or.inl hk')

/-- The last slot that is passed, and the others. -/
theorem slotPassed_last {last d : Int} (hd : 0 < d) :
    SlotPassed w last d k ↔ SlotPassed w last (d - 1) k ∨ k = (last + d) % w := by
  constructor
  · rintro ⟨j, hpos, hle, hj⟩
    by_cases hlast : j = d
    · rw [hlast] at hj
      exact Or.inr hj.symm
    · exact Or.inl ⟨j, hpos, by omega, hj⟩
  · rintro (⟨j, hpos, hle, hj⟩ | hk)
    · exact ⟨j, hpos, by omega, hj⟩
    · exact ⟨d, hd, Int.le_refl d, hk.symm⟩

/-- A call clears the slots of the intervals that the gap counts modulo the window. -/
theorem tstatAdd_spec {last t : Int} (x : Int) (h : TstatAt w last stat) (ht : 0 ≤ t) :
    ∃ stat', tstatAdd stat t x = some stat' ∧ TstatAt w t stat' ∧
      ∀ k ∈ Set.Ico 0 w,
        (SlotPassed w last ((t - last) % w) k → stat'.at k = if k = t % w then roundDouble x else 0) ∧
        (¬SlotPassed w last ((t - last) % w) k →
          stat'.at k = if k = t % w then roundDouble (stat.at k + x) else stat.at k) := by
  have hw := h.pos
  have hne : ¬w = 0 := Int.ne_of_gt hw
  have hlo := Int.emod_nonneg t (Int.ne_of_gt hw)
  have hhi := Int.emod_lt_of_pos t hw
  have hgap := Int.emod_nonneg (t - last) (Int.ne_of_gt hw)
  have hgap' := Int.emod_lt_of_pos (t - last) hw
  by_cases hsame : t % w = last % w
  · -- the slot of the last call, and nothing is cleared
    have hzero : (t - last) % w = 0 := Int.emod_eq_emod_iff_emod_sub_eq_zero.mp hsame
    refine ⟨{ stat with val := stat.val.set (t % w).toNat (roundDouble (stat.at (t % w) + x)) },
      ?_, ?_, ?_⟩
    · simp only [tstatAdd, h.window, if_neg hne, h.tLast, Int.tmod_eq_emod_of_nonneg ht, hsame, if_pos,
        Option.map_some]
    · exact ⟨hw, h.window, by rw [List.length_set]; exact h.length, h.tLast.trans hsame.symm⟩
    · intro k hk
      rw [hzero, Tstat.at_set _ _ hlo (by rw [h.length]; exact hhi) hk.1]
      refine ⟨fun ⟨j, hpos, hle, _⟩ => absurd hpos (Int.not_lt.mpr hle), fun _ => ?_⟩
      split
      · next hk' => rw [hk']
      · rfl
  · -- the loop clears the slots between the two, and the new one is set to 0 behind it
    have hpos : 0 < (t - last) % w := by
      have hnot : (t - last) % w ≠ 0 := fun h0 =>
        hsame (Int.emod_eq_emod_iff_emod_sub_eq_zero.mpr h0)
      omega
    obtain ⟨d, hd⟩ := Int.eq_ofNat_of_zero_le (show 0 ≤ (t - last) % w - 1 by omega)
    have hr : (last + (t - last) % w) % w = t % w := by
      rw [Int.add_emod_emod]
      exact congrArg (· % w) (by omega)
    have hstart : (last % w + 1 + d) % w = t % w := by
      rw [← hd, ← hr, Int.add_assoc, Int.emod_add_emod]
      exact congrArg (· % w) (by omega)
    have hlast := Int.emod_nonneg last (Int.ne_of_gt hw)
    obtain ⟨stat₁, hrun, hwindow, hlength, hslots⟩ := tstatErase_spec (r := t % w) hw d
      w.toNat ⟨stat.val, w, last % w + 1⟩ rfl h.length
      (by show 0 ≤ last % w + 1; omega) (by omega) (by omega) hstart
    have hset : ∀ k, 0 ≤ k → (⟨stat₁.val.set (t % w).toNat 0, w, t % w⟩ : Tstat).at k =
        if k = t % w then 0 else stat₁.at k :=
      fun k hk => Tstat.at_set stat₁.val 0 hlo (by omega) hk w (t % w)
    refine ⟨⟨(stat₁.val.set (t % w).toNat 0).set (t % w).toNat (roundDouble x), w, t % w⟩,
      ?_, ?_, ?_⟩
    · have hzero := hset (t % w) hlo
      rw [if_pos rfl] at hzero
      simp only [tstatAdd, h.window, if_neg hne, h.tLast, Int.tmod_eq_emod_of_nonneg ht, hsame,
        if_false, hrun, Option.map_some, hwindow, hzero, Int.zero_add]
    · exact ⟨hw, rfl, by rw [List.length_set, List.length_set]; exact hlength, rfl⟩
    · intro k hk
      obtain ⟨hcleared, hkept⟩ := hslots k hk
      rw [show last % w + 1 - 1 = last % w by omega, slotPassed_mod] at hcleared hkept
      rw [slotPassed_last hpos, hr, hd,
        Tstat.at_set _ _ hlo (by rw [List.length_set, hlength]; exact hhi) hk.1, hset k hk.1]
      by_cases hk' : k = t % w
      · simp [hk']
      · simp only [if_neg hk', or_iff_left hk']
        exact ⟨hcleared, hkept⟩

end Add

/-! ## The slots behind a call -/

section Slots

variable {w t x : Int} {calls : List (Int × Int)} {stat stat' : Tstat}

/-- A call more adds to its own interval. -/
theorem intervalSum_concat (i : Int) :
    intervalSum (calls ++ [(t, x)]) i = intervalSum calls i + if i = t then x else 0 := by
  rw [intervalSum, intervalSum, List.filter_append, List.map_append, List.sum_append]
  by_cases hi : i = t
  · simp [hi]
  · simp [hi, Ne.symm hi]

theorem lastTime_concat : lastTime (calls ++ [(t, x)]) = t := by
  simp [lastTime]

/-- Nothing has been added behind the last call. -/
theorem intervalSum_future (hle : ∀ call ∈ calls, call.1 ≤ lastTime calls) {i : Int}
    (hi : lastTime calls < i) : intervalSum calls i = 0 := by
  have hnone : calls.filter (fun call => call.1 = i) = [] := by
    rw [List.filter_eq_nil_iff]
    intro call hcall
    have hcall' := hle call hcall
    rw [decide_eq_true_iff]
    omega
  rw [intervalSum, hnone]
  rfl

/-- The slots of the last intervals hold their sums. -/
def SlotsHold (w : Int) (calls : List (Int × Int)) (stat : Tstat) : Prop :=
  ∀ i ∈ lastWindow w calls, stat.at (i % w) = intervalSum calls i

/-- Within the window, the intervals since the last call are those whose slots are cleared. -/
theorem slotPassed_iff {last i : Int} (hlo : t - w < i) (hhi : i ≤ t) (hgap : t - last < w)
    (hle : last ≤ t) : SlotPassed w last ((t - last) % w) (i % w) ↔ last < i := by
  rw [Int.emod_eq_of_lt (by omega) hgap]
  constructor
  · rintro ⟨j, hpos, hj, hmod⟩
    have hi := emod_inj (b := t) ⟨by omega, by omega⟩ ⟨hlo, hhi⟩ hmod
    omega
  · intro hlt
    exact ⟨i - last, by omega, by omega, congrArg (· % w) (by omega)⟩

/-- The old intervals whose slots are cleared. -/
theorem slotPassed_old_iff {last d i : Int} (hlo : last - w < i) (hhi : i ≤ last) (hd : d < w) :
    SlotPassed w last d (i % w) ↔ i ≤ last - w + d := by
  constructor
  · rintro ⟨j, hpos, hj, hmod⟩
    have hmod' : (last + j - w) % w = i % w := by rw [Int.sub_emod_right, hmod]
    have hi := emod_inj (b := last) ⟨by omega, by omega⟩ ⟨hlo, hhi⟩ hmod'
    omega
  · intro hle
    refine ⟨i + w - last, by omega, by omega, ?_⟩
    rw [show last + (i + w - last) = i + w by omega, Int.add_emod_right]

/-- What a call leaves in the slots of the last intervals, but for its own value. -/
theorem slotsHold_concat_iff (hstat : TstatAt w t stat')
    (base : Int → Int) (hbase : ∀ k ∈ Set.Ico 0 w, stat'.at k = base k + if k = t % w then x else 0) :
    SlotsHold w (calls ++ [(t, x)]) stat' ↔
      ∀ i ∈ Set.Ioc (t - w) t, base (i % w) = intervalSum calls i := by
  rw [SlotsHold, lastWindow, lastTime_concat]
  refine forall₂_congr fun i hi => ?_
  have hslot := (bijOn_emod t hstat.pos).mapsTo hi
  -- no other interval of the window has the slot of the call
  have hown : i % w = t % w ↔ i = t :=
    ⟨fun h => emod_inj hi ⟨by have := hstat.pos; omega, Int.le_refl t⟩ h, fun h => congrArg (· % w) h⟩
  rw [hbase (i % w) hslot, intervalSum_concat]
  simp only [hown]
  exact Int.add_left_inj _

/-- The slots sum up to what the last intervals do, without their signs. -/
theorem SlotsHold.sum_abs (hslots : SlotsHold w calls stat) (hw : 0 < w) :
    ∑ k ∈ Finset.Ico 0 w, (stat.at k).natAbs = absSum w calls := by
  rw [absSum, ← sum_emod (lastTime calls) hw fun k => (stat.at k).natAbs]
  exact Finset.sum_congr rfl fun i hi => by rw [hslots i (Finset.mem_Ioc.mp hi)]

/-- One more call adds its value at most. -/
theorem absSum_concat_le (hw : 0 < w) (hle : ∀ call ∈ calls, call.1 ≤ lastTime calls)
    (ht : lastTime calls ≤ t) : absSum w (calls ++ [(t, x)]) ≤ absSum w calls + x.natAbs := by
  rw [absSum, lastTime_concat]
  calc ∑ i ∈ Finset.Ioc (t - w) t, (intervalSum (calls ++ [(t, x)]) i).natAbs
      ≤ ∑ i ∈ Finset.Ioc (t - w) t,
          ((intervalSum calls i).natAbs + if i = t then x.natAbs else 0) := by
        refine Finset.sum_le_sum fun i _ => ?_
        rw [intervalSum_concat]
        split <;> omega
    _ = ∑ i ∈ Finset.Ioc (t - w) t, (intervalSum calls i).natAbs + x.natAbs := by
        rw [Finset.sum_add_distrib, Finset.sum_ite_eq',
          if_pos (Finset.mem_Ioc.mpr ⟨by omega, by omega⟩)]
    _ ≤ absSum w calls + x.natAbs := by
        refine Nat.add_le_add_right (Finset.sum_le_sum_of_ne_zero fun i hi hne => ?_) _
        -- nothing was added behind the last call, so `i` is one of the old intervals
        have hi' := Finset.mem_Ioc.mp hi
        have hold : i ≤ lastTime calls := by
          by_contra hnew
          exact hne (by rw [intervalSum_future hle (Int.not_le.mp hnew), Int.natAbs_zero])
        exact Finset.mem_Ioc.mpr ⟨by omega, hold⟩

/-- A call keeps the slots right exactly when its gap fits. -/
theorem slotsHold_add_iff (hstat : TstatAt w (lastTime calls) stat) (hslots : SlotsHold w calls stat)
    (hle : ∀ call ∈ calls, call.1 ≤ lastTime calls) (ht : lastTime calls ≤ t) (hpos : 0 ≤ t)
    (hexact : absSum w calls + x.natAbs ≤ 2 ^ 53) :
    ∃ stat', tstatAdd stat t x = some stat' ∧ TstatAt w t stat' ∧
      (SlotsHold w (calls ++ [(t, x)]) stat' ↔ GapFits w calls t) := by
  obtain ⟨stat', hadd, hstat', hspec⟩ := tstatAdd_spec x hstat hpos
  refine ⟨stat', hadd, hstat', ?_⟩
  have hw := hstat.pos
  have hd := Int.emod_lt_of_pos (t - lastTime calls) hw
  -- the sum of a slot and the new value is exact
  have hround : ∀ k ∈ Set.Ico 0 w, roundDouble (stat.at k + x) = stat.at k + x := by
    intro k hk
    have hslot : (stat.at k).natAbs ≤ absSum w calls := by
      rw [← hslots.sum_abs hw]
      exact Finset.single_le_sum (f := fun k => (stat.at k).natAbs) (fun _ _ => Nat.zero_le _)
        (Finset.mem_Ico.mpr hk)
    exact roundDouble_eq_self (by omega)
  have hround₀ : roundDouble x = x := roundDouble_eq_self (by omega)
  classical
  rw [slotsHold_concat_iff hstat'
    (fun k => if SlotPassed w (lastTime calls) ((t - lastTime calls) % w) k then 0 else stat.at k)
    (fun k hk => by
      split
      · next h => rw [(hspec k hk).1 h, Int.zero_add, hround₀]
      · next h =>
          rw [(hspec k hk).2 h, hround k hk]
          split
          · rfl
          · exact (Int.add_zero _).symm)]
  rw [GapFits]
  by_cases hgap : t - lastTime calls < w
  · -- a slot is cleared exactly when its interval is new, and nothing was added for a new one
    refine iff_of_true (fun i hi => ?_) (Or.inl hgap)
    split
    · next hpassed =>
        rw [slotPassed_iff hi.1 hi.2 hgap ht] at hpassed
        exact (intervalSum_future hle hpassed).symm
    · next hkept =>
        rw [slotPassed_iff hi.1 hi.2 hgap ht] at hkept
        exact hslots i ⟨by have := hi.1; omega, by omega⟩
  · rw [or_iff_right hgap]
    constructor
    · intro h i₀ hlo hhi
      -- the slot of an old interval that is kept is that of one of the last ones, which is empty
      have hold : i₀ ∈ lastWindow w calls :=
        ⟨by have := Int.emod_nonneg (t - lastTime calls) (Int.ne_of_gt hw); omega, hhi⟩
      obtain ⟨i, hi, hmod⟩ := exists_emod (b := t) ((bijOn_emod (lastTime calls) hw).mapsTo hold)
      have hkept : ¬SlotPassed w (lastTime calls) ((t - lastTime calls) % w) (i₀ % w) := by
        rw [slotPassed_old_iff hold.1 hold.2 hd]
        omega
      have hi' := h i hi
      rw [hmod, if_neg hkept, hslots i₀ hold] at hi'
      rw [hi']
      exact intervalSum_future hle (by have := hi.1; omega)
    · intro h i hi
      -- all of the last intervals are new, so their slots should be empty
      rw [intervalSum_future hle (by have := hi.1; omega)]
      split
      · rfl
      · next hkept =>
          obtain ⟨i₀, hold, hmod⟩ :=
            exists_emod (b := lastTime calls) ((bijOn_emod t hw).mapsTo hi)
          rw [← hmod, slotPassed_old_iff hold.1 hold.2 hd] at hkept
          rw [← hmod, hslots i₀ hold]
          exact h i₀ (by omega) hold.2

end Slots

/-! ## Minimum, maximum and average -/

section Best

variable {better : Int → Int → Bool} {r : Int → Int → Prop} {stat : Tstat}

/-- The loop of `tstat_min` and `tstat_max` over the first slots. -/
theorem tstatBest_loop (hrefl : ∀ a, r a a) (htrans : ∀ a b c, r a b → r b c → r a c)
    (hbetter : ∀ a x, better a x = true → r a x) (hworse : ∀ a x, ¬better a x = true → r x a)
    (stat : Tstat) (n : Nat) :
    (∃ i ∈ Set.Ico (0 : Int) (n + 1), stat.at i = (List.range (n + 1)).foldl
      (fun x (i : Nat) => if i = 0 ∨ better (stat.at i) x then stat.at i else x) 0) ∧
    ∀ i ∈ Set.Ico (0 : Int) (n + 1), r ((List.range (n + 1)).foldl
      (fun x (i : Nat) => if i = 0 ∨ better (stat.at i) x then stat.at i else x) 0) (stat.at i) := by
  induction n with
  | zero =>
      refine ⟨⟨0, ⟨Int.le_refl 0, by omega⟩, rfl⟩, fun i hi => ?_⟩
      have hi0 : i = 0 := by have := hi.1; have := hi.2; omega
      rw [hi0]
      exact hrefl _
  | succ n ih =>
      obtain ⟨⟨m, hm, hbest⟩, hle⟩ := ih
      rw [List.range_succ, List.foldl_concat]
      -- `x` is the best of the slots before
      generalize hx : (List.range (n + 1)).foldl
        (fun x (i : Nat) => if i = 0 ∨ better (stat.at i) x then stat.at i else x) 0 = x at hbest hle ⊢
      have hlast : ∀ i ∈ Set.Ico (0 : Int) ((n + 1 : Nat) + 1),
          i ∈ Set.Ico (0 : Int) (n + 1) ∨ i = (n + 1 : Nat) := by
        intro i hi
        have hlo := hi.1
        have hhi := hi.2
        by_cases hn : i < n + 1
        · exact Or.inl ⟨hlo, hn⟩
        · exact Or.inr (by omega)
      by_cases htake : n + 1 = 0 ∨ better (stat.at (n + 1 : Nat)) x = true
      · rw [if_pos htake]
        have hnew := hbetter _ _ (htake.resolve_left (Nat.succ_ne_zero n))
        refine ⟨⟨(n + 1 : Nat), ⟨by omega, by omega⟩, rfl⟩, fun i hi => ?_⟩
        rcases hlast i hi with hold | rfl
        · exact htrans _ _ _ hnew (hle i hold)
        · exact hrefl _
      · rw [if_neg htake]
        refine ⟨⟨m, ⟨hm.1, by have := hm.2; omega⟩, hbest⟩, fun i hi => ?_⟩
        rcases hlast i hi with hold | rfl
        · exact hle i hold
        · exact hworse _ _ fun hb => htake (Or.inr hb)

/-- The best of all slots. -/
theorem tstatBest_spec {w last : Int} (hstat : TstatAt w last stat) (hrefl : ∀ a, r a a)
    (htrans : ∀ a b c, r a b → r b c → r a c) (hbetter : ∀ a x, better a x = true → r a x)
    (hworse : ∀ a x, ¬better a x = true → r x a) :
    tstatBest better stat ∈ stat.at '' Set.Ico 0 w ∧
      ∀ x ∈ stat.at '' Set.Ico 0 w, r (tstatBest better stat) x := by
  have hpos := hstat.pos
  obtain ⟨n, hn⟩ : ∃ n : Nat, stat.window.toNat = n + 1 :=
    ⟨stat.window.toNat - 1, by rw [hstat.window]; omega⟩
  have hw : w = n + 1 := by rw [← hstat.window]; have := hstat.window; omega
  have hloop := tstatBest_loop hrefl htrans hbetter hworse stat n
  rw [tstatBest, hn, hw, Set.forall_mem_image]
  exact hloop

/-- The loop of `tstat_avg` sums up the slots, where each of its sums is exact. -/
theorem tstatAvg_eq {w last : Int} (hstat : TstatAt w last stat)
    (hexact : ∑ k ∈ Finset.Ico 0 w, (stat.at k).natAbs ≤ 2 ^ 53) :
    tstatAvg stat = ((∑ k ∈ Finset.Ico 0 w, stat.at k : Int) : ℚ) / w := by
  have hloop : ∀ n : Nat, (n : Int) ≤ w →
      (List.range n).foldl (fun x (i : Nat) => roundDouble (x + stat.at i)) 0 =
        ∑ k ∈ Finset.Ico (0 : Int) n, stat.at k := by
    intro n hn
    induction n with
    | zero => rfl
    | succ n ih =>
        have hinsert : Finset.Ico (0 : Int) (n + 1 : Nat) = insert (n : Int) (Finset.Ico (0 : Int) n) := by
          ext k
          rw [Finset.mem_insert, Finset.mem_Ico, Finset.mem_Ico]
          omega
        have hpartial : (∑ k ∈ Finset.Ico (0 : Int) (n + 1 : Nat), stat.at k).natAbs ≤ 2 ^ 53 :=
          ((Int.natAbs_sum_le _ _).trans (Finset.sum_le_sum_of_subset
            (Finset.Ico_subset_Ico_right hn))).trans hexact
        rw [hinsert, Finset.sum_insert (by simp), Int.add_comm] at hpartial ⊢
        rw [List.range_succ, List.foldl_concat, ih (by omega), roundDouble_eq_self hpartial]
  have hw : (stat.window.toNat : Int) = w := by
    rw [hstat.window, Int.toNat_of_nonneg (Int.le_of_lt hstat.pos)]
  rw [tstatAvg, tstatSum, hloop _ (Int.le_of_eq hw), hw, hstat.window]

/-- Slots that hold the sums give minimum, maximum and average. -/
theorem SlotsHold.holdsWindow {w : Int} {calls : List (Int × Int)}
    (h : SlotsHold w calls stat) (hstat : TstatAt w (lastTime calls) stat)
    (hexact : absSum w calls ≤ 2 ^ 53) : HoldsWindow w calls stat := by
  -- each slot is that of one of the last intervals
  have himage : intervalSum calls '' lastWindow w calls = stat.at '' Set.Ico 0 w := by
    rw [← image_emod (lastTime calls) hstat.pos]
    exact Set.image_congr fun i hi => (h i hi).symm
  have hsum : ∑ i ∈ Finset.Ioc (lastTime calls - w) (lastTime calls), intervalSum calls i =
      ∑ k ∈ Finset.Ico 0 w, stat.at k := by
    rw [← sum_emod (lastTime calls) hstat.pos]
    exact Finset.sum_congr rfl fun i hi => (h i (Finset.mem_Ioc.mp hi)).symm
  refine ⟨h, ?_, ?_, ?_⟩
  · rw [himage]
    exact tstatBest_spec (r := (· ≤ ·)) hstat Int.le_refl (fun _ _ _ => Int.le_trans)
      (fun a x hax => Int.le_of_lt (of_decide_eq_true hax))
      (fun a x hax => Int.not_lt.mp fun hlt => hax (decide_eq_true hlt))
  · rw [himage]
    exact tstatBest_spec (r := (· ≥ ·)) hstat Int.le_refl (fun _ _ _ hab hbc => Int.le_trans hbc hab)
      (fun a x hax => Int.le_of_lt (of_decide_eq_true hax))
      (fun a x hax => Int.not_lt.mp fun hlt => hax (decide_eq_true hlt))
  · rw [hsum]
    exact tstatAvg_eq hstat ((h.sum_abs hstat.pos).trans_le hexact)

end Best

/-! ## Runs -/

section Runs

variable {window : Nat} {calls pre : List (Int × Int)} {stat : Tstat} {t x : Int}

theorem tstatAdds_concat (stat : Tstat) : tstatAdds stat (pre ++ [(t, x)]) =
    (tstatAdds stat pre).bind fun stat => tstatAdd stat t x := by
  simp [tstatAdds, List.foldlM_append]

/-- A new window is all zeros at time 0. -/
theorem tstatNew_at (hpos : 1 ≤ window) (hint : window < 2 ^ 31) :
    TstatAt window 0 (tstatNew window) where
  pos    := by omega
  window := by
    have hself : toInt32 (window : Int) = window := toInt32_eq_self (by omega) (by omega)
    simp only [tstatNew, hself]
  length := by
    rw [tstatNew, List.length_replicate]
  tLast  := by
    rw [Int.zero_emod]
    rfl

theorem tstatNew_slots : SlotsHold window [] (tstatNew window) := by
  intro i _
  simp [tstatNew, Tstat.at, intervalSum, List.getElem?_replicate]
  split <;> rfl

/-- All calls return, and leave the interval of the last one. -/
theorem tstatAdds_at (hpos : 1 ≤ window) (hint : window < 2 ^ 31)
    (hnonneg : ∀ call ∈ calls, 0 ≤ call.1) :
    ∃ stat, tstatAdds (tstatNew window) calls = some stat ∧
      TstatAt window (lastTime calls) stat := by
  induction calls using List.reverseRecOn with
  | nil => exact ⟨tstatNew window, rfl, tstatNew_at hpos hint⟩
  | append_singleton pre call ih =>
      obtain ⟨t, x⟩ := call
      obtain ⟨stat, hrun, hstat⟩ := ih fun c hc => hnonneg c (List.mem_append_left _ hc)
      have ht : 0 ≤ t := hnonneg (t, x) (List.mem_append_right pre List.mem_cons_self)
      obtain ⟨stat', hadd, hstat', -⟩ := tstatAdd_spec x hstat ht
      refine ⟨stat', ?_, by rw [lastTime_concat]; exact hstat'⟩
      rw [tstatAdds_concat, hrun]
      exact hadd

/-- The last call of a sorted list is the latest. -/
theorem le_lastTime (hsorted : (calls.map (·.1)).Pairwise (· ≤ ·)) :
    ∀ call ∈ calls, call.1 ≤ lastTime calls := by
  intro call hcall
  rcases List.eq_nil_or_concat calls with rfl | ⟨pre, last, rfl⟩
  · exact absurd hcall List.not_mem_nil
  · obtain ⟨t, x⟩ := last
    rw [List.concat_eq_append] at hsorted hcall ⊢
    rw [List.map_append, List.pairwise_append] at hsorted
    rw [lastTime_concat]
    rcases List.mem_append.mp hcall with hpre | hlast
    · exact hsorted.2.2 _ (List.mem_map_of_mem hpre) t List.mem_cons_self
    · rw [List.mem_singleton.mp hlast]

/-- The last window is held. -/
def RunHolds (window : Nat) (calls : List (Int × Int)) : Prop :=
  ∃ stat, tstatAdds (tstatNew window) calls = some stat ∧ HoldsWindow window calls stat

variable (hpos : 1 ≤ window) (hint : window < 2 ^ 31)

include hpos hint

/-- One more call: the window is held behind it exactly when its gap fits. -/
theorem runHolds_concat_iff (hsorted : ((pre ++ [(t, x)]).map (·.1)).Pairwise (· ≤ ·))
    (hnonneg : ∀ call ∈ pre ++ [(t, x)], 0 ≤ call.1)
    (hexact : absSum window pre + x.natAbs ≤ 2 ^ 53) (hpre : pre = [] ∨ RunHolds window pre) :
    RunHolds window (pre ++ [(t, x)]) ↔ GapFits window pre t := by
  obtain ⟨stat, hrun, hstat⟩ := tstatAdds_at hpos hint fun c hc =>
    hnonneg c (List.mem_append_left [(t, x)] hc)
  -- a new window holds its intervals, and behind a call the hypothesis says so
  have hslots : SlotsHold window pre stat := by
    rcases hpre with rfl | ⟨stat₁, hrun₁, hholds⟩
    · obtain rfl := Option.some.inj hrun
      exact tstatNew_slots
    · obtain rfl := Option.some.inj (hrun.symm.trans hrun₁)
      exact hholds.slots
  have ht : 0 ≤ t := hnonneg (t, x) (List.mem_append_right pre List.mem_cons_self)
  have hsorted' : (pre.map (·.1)).Pairwise (· ≤ ·) := by
    rw [List.map_append, List.pairwise_append] at hsorted
    exact hsorted.1
  have hlast : lastTime pre ≤ t := by
    rcases List.eq_nil_or_concat pre with rfl | ⟨init, last, rfl⟩
    · exact ht
    · obtain ⟨t₁, x₁⟩ := last
      rw [List.map_append, List.pairwise_append] at hsorted
      rw [List.concat_eq_append] at hsorted ⊢
      rw [lastTime_concat]
      exact hsorted.2.2 t₁ (by simp) t (by simp)
  obtain ⟨stat', hadd, hstat', hiff⟩ := slotsHold_add_iff (x := x) hstat hslots (le_lastTime hsorted')
    hlast ht hexact
  have hrun' : tstatAdds (tstatNew window) (pre ++ [(t, x)]) = some stat' := by
    rw [tstatAdds_concat, hrun]
    exact hadd
  rw [← hiff]
  constructor
  · rintro ⟨stat₁, hrun₁, hholds⟩
    obtain rfl := Option.some.inj (hrun'.symm.trans hrun₁)
    exact hholds.slots
  · intro hslots'
    exact ⟨stat', hrun', hslots'.holdsWindow (by rw [lastTime_concat]; exact hstat')
      ((absSum_concat_le hstat.pos (le_lastTime hsorted') hlast).trans hexact)⟩

/-- The window holds the last intervals behind every call exactly when every gap fits. -/
theorem tstat_window_iff (hsorted : (calls.map (·.1)).Pairwise (· ≤ ·))
    (hnonneg : ∀ call ∈ calls, 0 ≤ call.1) (hexact : SumsExact window calls) :
    (∀ pre, pre <+: calls → pre ≠ [] → RunHolds window pre) ↔
      ∀ pre t x, pre ++ [(t, x)] <+: calls → GapFits window pre t := by
  have hsorted' : ∀ {pre : List (Int × Int)}, pre <+: calls → (pre.map (·.1)).Pairwise (· ≤ ·) :=
    fun hpre => hsorted.sublist (hpre.sublist.map _)
  have hnonneg' : ∀ {pre : List (Int × Int)}, pre <+: calls → ∀ call ∈ pre, 0 ≤ call.1 :=
    fun hpre call hcall => hnonneg call (hpre.subset hcall)
  constructor
  · intro hholds pre t x hpre
    have hshort : pre <+: calls := (List.prefix_append pre [(t, x)]).trans hpre
    -- the window is held on both sides of this call
    refine (runHolds_concat_iff hpos hint (hsorted' hpre) (hnonneg' hpre)
      (hexact pre t x hpre) ?_).mp
      (hholds _ hpre (by simp))
    by_cases hnil : pre = []
    · exact Or.inl hnil
    · exact Or.inr (hholds pre hshort hnil)
  · intro hfits pre
    induction pre using List.reverseRecOn with
    | nil => exact fun _ hne => absurd rfl hne
    | append_singleton pre call ih =>
        intro hpre _
        obtain ⟨t, x⟩ := call
        have hshort : pre <+: calls := (List.prefix_append pre [(t, x)]).trans hpre
        refine (runHolds_concat_iff hpos hint (hsorted' hpre) (hnonneg' hpre)
          (hexact pre t x hpre) ?_).mpr
          (hfits pre t x hpre)
        by_cases hnil : pre = []
        · exact Or.inl hnil
        · exact Or.inr (ih hshort hnil)

end Runs

theorem sumsExact_near : SumsExact 3 [(1, 5), (3, 2)] := by
  intro pre t x hpre
  rcases pre with _ | ⟨a, _ | ⟨b, pre⟩⟩
  · obtain ⟨rfl, rfl⟩ : t = 1 ∧ x = 5 := by simpa using hpre
    decide
  · obtain ⟨rfl, rfl, rfl⟩ : a = (1, 5) ∧ t = 3 ∧ x = 2 := by simpa using hpre
    decide
  · exact absurd hpre.length_le (by simp)

/-- Two calls within a window of three. -/
theorem tstat_window_iff_near :
    (∀ pre, pre <+: [(1, 5), (3, 2)] → pre ≠ [] → RunHolds 3 pre) ↔
      ∀ pre t x, pre ++ [(t, x)] <+: [(1, 5), (3, 2)] → GapFits 3 pre t :=
  tstat_window_iff (by decide) (by decide) (by decide) (by decide) sumsExact_near

/-- A gap of the length of the window: nothing is erased. -/
theorem tstat_gap_of_window : ¬RunHolds 3 [(1, 5), (4, 2)] := by
  rintro ⟨stat, hrun, hholds⟩
  have hslot := hholds.slots 4 ⟨by decide, by decide⟩
  obtain rfl := Option.some.inj ((show tstatAdds (tstatNew 3) [(1, 5), (4, 2)] =
    some ⟨[0, 7, 0], 3, 1⟩ by decide).symm.trans hrun)
  exact absurd hslot (by decide)

end Bklib
