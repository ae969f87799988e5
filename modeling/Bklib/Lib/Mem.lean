import Mathlib.Data.List.Range
import Mathlib.Algebra.Ring.Int.Defs

/-!
# `Bklib.Lib.Mem`: memory as a function of the address

A memory is a function from addresses to cells. `readAt m a n` lists the `n` cells from `a` on, and
`writeAt m a xs` stores `xs` there. The rules say what a read sees of a write: the list itself when
the ranges agree, the old cells when they are disjoint, and the concatenation for adjacent ranges.
-/

set_option autoImplicit false

namespace Bklib.Lib

variable {β : Type*}

/-- The `n` cells of `m` from address `a` on. -/
def readAt (m : Int → β) (a : Int) (n : Nat) : List β := (List.range n).map fun i : Nat => m (a + i)

/-- The memory `m` with `xs` stored from address `a` on. -/
def writeAt (m : Int → β) (a : Int) (xs : List β) : Int → β := fun i =>
  if a ≤ i ∧ i < a + xs.length then xs[(i - a).toNat]?.getD (m i) else m i

@[simp] theorem length_readAt (m : Int → β) (a : Int) (n : Nat) : (readAt m a n).length = n := by
  simp [readAt]

@[simp] theorem readAt_zero (m : Int → β) (a : Int) : readAt m a 0 = [] := rfl

/-- Two reads are equal when their cells are. -/
theorem readAt_congr {m m' : Int → β} {a a' : Int} {n : Nat}
    (h : ∀ i : Nat, i < n → m (a + i) = m' (a' + i)) : readAt m a n = readAt m' a' n :=
  List.map_congr_left fun i hi => h i (List.mem_range.mp hi)

/-- A reading can be cut in two. -/
theorem readAt_add (m : Int → β) (a : Int) (n k : Nat) :
    readAt m a (n + k) = readAt m a n ++ readAt m (a + n) k := by
  unfold readAt
  rw [List.range_add, List.map_append, List.map_map]
  refine congrArg (_ ++ ·) (List.map_congr_left fun i _ => ?_)
  simp [Int.add_assoc]

theorem readAt_succ (m : Int → β) (a : Int) (n : Nat) :
    readAt m a (n + 1) = m a :: readAt m (a + 1) n := by
  rw [Nat.add_comm, readAt_add]
  simp [readAt]

theorem take_readAt (m : Int → β) (a : Int) {n k : Nat} (h : k ≤ n) :
    (readAt m a n).take k = readAt m a k := by
  obtain ⟨d, rfl⟩ := Nat.exists_eq_add_of_le h
  rw [readAt_add, List.take_append_of_le_length (by simp), List.take_of_length_le (by simp)]

theorem drop_readAt (m : Int → β) (a : Int) {n k : Nat} (h : k ≤ n) :
    (readAt m a n).drop k = readAt m (a + k) (n - k) := by
  obtain ⟨d, rfl⟩ := Nat.exists_eq_add_of_le h
  rw [readAt_add, List.drop_append_of_le_length (by simp), List.drop_of_length_le (by simp),
    List.nil_append, Nat.add_sub_cancel_left]

theorem writeAt_of_lt (m : Int → β) {a i : Int} (xs : List β) (h : i < a) :
    writeAt m a xs i = m i := if_neg (by omega)

theorem writeAt_of_ge (m : Int → β) {a i : Int} (xs : List β) (h : a + xs.length ≤ i) :
    writeAt m a xs i = m i := if_neg (by omega)

theorem writeAt_add (m : Int → β) (a : Int) (xs : List β) (i : Nat) (h : i < xs.length) :
    writeAt m a xs (a + i) = xs[i] := by
  unfold writeAt
  rw [if_pos ⟨by omega, by omega⟩, show (a + i - a).toNat = i by omega,
    List.getElem?_eq_getElem h, Option.getD_some]

/-- Writes that do not meet may be made in either order. -/
theorem writeAt_comm (m : Int → β) {a b : Int} (xs ys : List β)
    (h : a + xs.length ≤ b ∨ b + ys.length ≤ a) :
    writeAt (writeAt m a xs) b ys = writeAt (writeAt m b ys) a xs := by
  funext i
  by_cases hi : a ≤ i ∧ i < a + xs.length
  · have hys : i < b ∨ b + ys.length ≤ i := by omega
    have hout : ¬(b ≤ i ∧ i < b + ys.length) := by omega
    simp only [writeAt, if_neg hout]
  · simp only [writeAt, if_neg hi]

/-- A second write to the same range is all that counts. -/
theorem writeAt_writeAt (m : Int → β) (a : Int) {xs ys : List β} (h : xs.length = ys.length) :
    writeAt (writeAt m a xs) a ys = writeAt m a ys := by
  funext i
  by_cases hi : a ≤ i ∧ i < a + ys.length
  · obtain ⟨k, hk⟩ := Int.eq_ofNat_of_zero_le (show 0 ≤ i - a by omega)
    have hlen : k < ys.length := by omega
    obtain rfl : i = a + k := by omega
    rw [writeAt_add _ _ _ _ hlen, writeAt_add _ _ _ _ hlen]
  · have hxs : ¬(a ≤ i ∧ i < a + xs.length) := by omega
    simp only [writeAt, if_neg hi, if_neg hxs]

/-- A read of what was written. -/
theorem readAt_writeAt (m : Int → β) (a : Int) (xs : List β) :
    readAt (writeAt m a xs) a xs.length = xs := by
  apply List.ext_getElem
  · simp
  · intro i h1 h2
    simp only [readAt, List.getElem_map, List.getElem_range]
    exact writeAt_add m a xs i h2

/-- Writing what is there changes nothing. -/
theorem writeAt_readAt (m : Int → β) (a : Int) (n : Nat) : writeAt m a (readAt m a n) = m := by
  funext i
  by_cases hi : a ≤ i ∧ i < a + (readAt m a n).length
  · obtain ⟨k, hk⟩ := Int.eq_ofNat_of_zero_le (show 0 ≤ i - a by omega)
    obtain rfl : i = a + k := by omega
    rw [writeAt_add m a _ k (by omega)]
    simp [readAt]
  · exact if_neg hi

/-- A write changes nothing if and only if it stores what is there. -/
theorem writeAt_eq_self_iff (m : Int → β) (a : Int) (xs : List β) :
    writeAt m a xs = m ↔ readAt m a xs.length = xs := by
  constructor
  · intro hsame
    rw [← hsame, readAt_writeAt]
  · intro hread
    calc writeAt m a xs = writeAt m a (readAt m a xs.length) := by rw [hread]
      _ = m := writeAt_readAt m a xs.length

/-- A read that does not meet the write. -/
theorem readAt_writeAt_disjoint (m : Int → β) {a b : Int} (xs : List β) {n : Nat}
    (h : b + n ≤ a ∨ a + xs.length ≤ b) : readAt (writeAt m a xs) b n = readAt m b n :=
  readAt_congr fun i hi => by
    rcases h with h | h
    · exact writeAt_of_lt m xs (by omega)
    · exact writeAt_of_ge m xs (by omega)

/-- Two adjacent writes are one. -/
theorem writeAt_append (m : Int → β) (a : Int) (xs ys : List β) :
    writeAt m a (xs ++ ys) = writeAt (writeAt m a xs) (a + xs.length) ys := by
  funext i
  by_cases hxs : a ≤ i ∧ i < a + xs.length
  · obtain ⟨k, hk⟩ := Int.eq_ofNat_of_zero_le (show 0 ≤ i - a by omega)
    obtain rfl : i = a + k := by omega
    have hlen : k < xs.length := by omega
    rw [writeAt_add m a _ k (by rw [List.length_append]; omega), writeAt_of_lt _ ys (by omega),
      writeAt_add m a xs k hlen, List.getElem_append_left hlen]
  · by_cases hys : a + xs.length ≤ i ∧ i < a + xs.length + ys.length
    · obtain ⟨k, hk⟩ := Int.eq_ofNat_of_zero_le (show 0 ≤ i - (a + xs.length) by omega)
      obtain rfl : i = a + xs.length + k := by omega
      have hlen : k < ys.length := by omega
      have hleft := writeAt_add m a (xs ++ ys) (xs.length + k) (by rw [List.length_append]; omega)
      rw [writeAt_add _ _ ys k hlen, Int.add_assoc]
      rw [Nat.cast_add] at hleft
      rw [hleft, List.getElem_append_right (by omega)]
      simp
    · have happ : ¬(a ≤ i ∧ i < a + (xs ++ ys).length) := by
        rw [List.length_append]
        omega
      simp only [writeAt, if_neg happ, if_neg hxs, if_neg hys]

/-- A write right behind a range extends what the range reads. -/
theorem readAt_writeAt_append (m : Int → β) (a : Int) (n : Nat) (xs : List β) :
    readAt (writeAt m (a + n) xs) a (n + xs.length) = readAt m a n ++ xs := by
  rw [readAt_add, readAt_writeAt_disjoint m xs (Or.inl (Int.le_refl _)), readAt_writeAt]

/-- The front of a range that was written is written again. -/
theorem readAt_writeAt_front (m : Int → β) (a : Int) {xs ys : List β} (h : ys.length ≤ xs.length) :
    readAt (writeAt (writeAt m a xs) a ys) a xs.length = ys ++ xs.drop ys.length := by
  obtain ⟨k, hk⟩ := Nat.exists_eq_add_of_le h
  have hrest : readAt (writeAt m a xs) (a + ys.length) k = xs.drop ys.length := by
    have hdrop := drop_readAt (writeAt m a xs) a h
    rw [readAt_writeAt, hk, Nat.add_sub_cancel_left] at hdrop
    exact hdrop.symm
  rw [hk, readAt_add, readAt_writeAt, readAt_writeAt_disjoint _ _ (Or.inr (Int.le_refl _)), hrest]

end Bklib.Lib
