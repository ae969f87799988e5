import Mathlib.Data.List.Basic

/-!
# `Bklib.Lib.SparseFile`: files that grow with zeros

A file is a list of cells. `put f off xs` writes `xs` at position `off`; what lies between the end of
the file and `off` reads as zero. `pad n f` extends a file with zeros to size `n`.

A write commutes with padding (`put_pad`), so a file kept larger than its content can be written in
place and cut back at the end (`take_pad`).
-/

set_option autoImplicit false

namespace Bklib.Lib

variable {β : Type*} [Zero β]

/-- `f` with zeros up to size `n`; a file that is larger stays as it is. -/
def pad (n : Nat) (f : List β) : List β := f ++ List.replicate (n - f.length) 0

/-- `f` with `xs` at position `off`. -/
def put (f : List β) (off : Nat) (xs : List β) : List β :=
  (pad off f).take off ++ xs ++ f.drop (off + xs.length)

theorem length_pad (n : Nat) (f : List β) : (pad n f).length = max n f.length := by
  rw [pad, List.length_append, List.length_replicate]
  omega

theorem length_put (f : List β) (off : Nat) (xs : List β) :
    (put f off xs).length = max (off + xs.length) f.length := by
  simp only [put, List.length_append, List.length_take, length_pad, List.length_drop]
  omega

theorem pad_of_le {n : Nat} {f : List β} (h : n ≤ f.length) : pad n f = f := by
  rw [pad, Nat.sub_eq_zero_of_le h, List.replicate_zero, List.append_nil]

/-- Padding happens at the end. -/
theorem pad_append (n : Nat) (f g : List β) : pad n (f ++ g) = f ++ pad (n - f.length) g := by
  rw [pad, pad, List.length_append, List.append_assoc, Nat.sub_add_eq]

/-- Padding in two steps. -/
theorem pad_pad {n k : Nat} (hnk : n ≤ k) (f : List β) : pad k (pad n f) = pad k f := by
  rw [pad, length_pad, pad, pad, List.append_assoc, List.replicate_append_replicate]
  congr 2
  omega

/-- The content comes back when the padding is cut off. -/
theorem take_pad {n : Nat} (f : List β) : (pad n f).take f.length = f := List.take_left

/-- Padding with more than the position shows in front of it. -/
theorem take_pad_pad {n k : Nat} (hnk : n ≤ k) (f : List β) : (pad k f).take n = (pad n f).take n := by
  obtain ⟨d, rfl⟩ := Nat.exists_eq_add_of_le hnk
  have hsplit : n + d - f.length = (n - f.length) + (n + d - f.length - (n - f.length)) := by omega
  rw [pad, pad, hsplit, ← List.replicate_append_replicate, ← List.append_assoc,
    List.take_append_of_le_length]
  rw [List.length_append, List.length_replicate]
  omega

theorem drop_pad {n k : Nat} (hnk : n ≤ k) (f : List β) :
    (pad k f).drop n = pad (k - n) (f.drop n) := by
  rw [pad, pad, List.drop_append, List.drop_replicate, List.length_drop]
  congr 2
  omega

/-- A write commutes with padding beyond its end. -/
theorem put_pad {n off : Nat} {xs : List β} (h : off + xs.length ≤ n) (f : List β) :
    put (pad n f) off xs = pad n (put f off xs) := by
  have hoff : off ≤ n := Nat.le_trans (Nat.le_add_right _ _) h
  have hhead : (pad off (pad n f)).take off = (pad off f).take off := by
    rw [pad_of_le (n := off) (by rw [length_pad]; omega), take_pad_pad hoff]
  have hlen : ((pad off f).take off ++ xs).length = off + xs.length := by
    rw [List.length_append, List.length_take, length_pad]
    omega
  rw [put, put, hhead, drop_pad h, pad_append, hlen]

/-- A zero at the end of a larger file pads. -/
theorem put_zero {n : Nat} {f : List β} (h : f.length < n) : put f (n - 1) [0] = pad n f := by
  have hdrop : f.drop (n - 1 + [(0 : β)].length) = [] :=
    List.drop_eq_nil_of_le (by rw [List.length_singleton]; omega)
  have htake : (pad (n - 1) f).take (n - 1) = pad (n - 1) f :=
    List.take_of_length_le (by rw [length_pad]; omega)
  have hone : [(0 : β)] = List.replicate 1 0 := rfl
  rw [put, hdrop, List.append_nil, htake, pad, pad, hone, List.append_assoc,
    List.replicate_append_replicate]
  congr 2
  omega

end Bklib.Lib
