import Mathlib.Data.UInt
import Bklib.Lib.Mem

/-!
# `Bklib.Model.Word`: 16- and 32-bit words in memory

Words are stored low byte first, as on the machines the code is compiled for. `htons` and `htonl`
bring them into network order.
-/

set_option autoImplicit false

namespace Bklib

open Bklib.Lib

/-- The 16-bit word of two bytes. -/
def le16 (b0 b1 : UInt8) : Nat := b0.toNat + 256 * b1.toNat

/-- `*(u16 *) a`. -/
def get16 (mem : Int → UInt8) (a : Int) : Nat := le16 (mem a) (mem (a + 1))

/-- The bytes of a 16-bit word. -/
def bytes16 (v : Nat) : List UInt8 := [UInt8.ofNat v, UInt8.ofNat (v / 256)]

/-- `*(u16 *) a = v`. -/
def put16 (mem : Int → UInt8) (a : Int) (v : Nat) : Int → UInt8 := writeAt mem a (bytes16 v)

/-- The bytes of a 32-bit word. -/
def bytes32 (x : UInt32) : List UInt8 := bytes16 (x.toNat % 65536) ++ bytes16 (x.toNat / 65536)

/-- `*(u32 *) a`. -/
def get32 (mem : Int → UInt8) (a : Int) : UInt32 :=
  UInt32.ofNat (get16 mem a + 65536 * get16 mem (a + 2))

/-- `*(u32 *) a = x`. -/
def put32 (mem : Int → UInt8) (a : Int) (x : UInt32) : Int → UInt8 := writeAt mem a (bytes32 x)

/-- `htons` and `ntohs`: the two bytes change places. -/
def htons (n : Nat) : Nat := n % 256 * 256 + n / 256 % 256

/-- `htonl` and `ntohl`: the four bytes in the other order. -/
def htonl (x : UInt32) : UInt32 :=
  UInt32.ofNat (htons (x.toNat % 65536) * 65536 + htons (x.toNat / 65536))

theorem htons_lt (n : Nat) : htons n < 65536 := by
  unfold htons
  omega

/-- Swapping twice gives the word back. -/
theorem htons_htons {n : Nat} (hn : n < 65536) : htons (htons n) = n := by
  have hdiv : htons n / 256 = n % 256 := by
    unfold htons
    omega
  have hmod : htons n % 256 = n / 256 := by
    unfold htons
    omega
  rw [htons, hdiv, hmod, Nat.mod_mod, Nat.mul_comm, Nat.div_add_mod]

/-- Swapping twice gives the word back. -/
theorem htonl_htonl (x : UInt32) : htonl (htonl x) = x := by
  have hx := x.toNat_lt
  have hlo := htons_lt (x.toNat % 65536)
  have hhi := htons_lt (x.toNat / 65536)
  have h : (htonl x).toNat = htons (x.toNat % 65536) * 65536 + htons (x.toNat / 65536) := by
    rw [htonl, UInt32.toNat_ofNat', Nat.mod_eq_of_lt (by omega)]
  have hlo' : (htonl x).toNat % 65536 = htons (x.toNat / 65536) := by omega
  have hhi' : (htonl x).toNat / 65536 = htons (x.toNat % 65536) := by omega
  rw [htonl, hlo', hhi', htons_htons (by omega), htons_htons (by omega), Nat.div_add_mod',
    UInt32.ofNat_toNat]

/-! ## Loads and stores -/

theorem le16_lt (b0 b1 : UInt8) : le16 b0 b1 < 65536 := by
  have h0 := b0.toNat_lt
  have h1 := b1.toNat_lt
  unfold le16
  omega

theorem get16_lt (mem : Int → UInt8) (a : Int) : get16 mem a < 65536 := le16_lt _ _

@[simp] theorem length_bytes16 (v : Nat) : (bytes16 v).length = 2 := rfl

@[simp] theorem length_bytes32 (x : UInt32) : (bytes32 x).length = 4 := rfl

theorem le16_ofNat {v : Nat} (hv : v < 65536) : le16 (UInt8.ofNat v) (UInt8.ofNat (v / 256)) = v := by
  unfold le16
  rw [UInt8.toNat_ofNat', UInt8.toNat_ofNat']
  omega

variable (mem : Int → UInt8)

theorem put16_of_outside {a i : Int} (v : Nat) (h : i < a ∨ a + 2 ≤ i) : put16 mem a v i = mem i := by
  cases h with
  | inl h => exact writeAt_of_lt mem _ h
  | inr h => exact writeAt_of_ge mem _ h

theorem put32_of_outside {a i : Int} (x : UInt32) (h : i < a ∨ a + 4 ≤ i) :
    put32 mem a x i = mem i := by
  cases h with
  | inl h => exact writeAt_of_lt mem _ h
  | inr h => exact writeAt_of_ge mem _ h

theorem put16_put16 (a : Int) (v w : Nat) : put16 (put16 mem a v) a w = put16 mem a w :=
  writeAt_writeAt mem a rfl

/-- A short word stored is read again. -/
theorem get16_put16 (a : Int) {v : Nat} (hv : v < 65536) : get16 (put16 mem a v) a = v := by
  have h0 : put16 mem a v a = UInt8.ofNat v := by
    simpa [put16, bytes16] using writeAt_add mem a (bytes16 v) 0 (by simp)
  have h1 : put16 mem a v (a + 1) = UInt8.ofNat (v / 256) :=
    writeAt_add mem a (bytes16 v) 1 (by simp)
  rw [get16, h0, h1, le16_ofNat hv]

theorem get16_put16_of_disjoint {a b : Int} (v : Nat) (h : b + 2 ≤ a ∨ a + 2 ≤ b) :
    get16 (put16 mem a v) b = get16 mem b := by
  rw [get16, put16_of_outside mem v (by omega), put16_of_outside mem v (by omega), get16]

theorem get16_put32_of_disjoint {a b : Int} (x : UInt32) (h : b + 2 ≤ a ∨ a + 4 ≤ b) :
    get16 (put32 mem a x) b = get16 mem b := by
  rw [get16, put32_of_outside mem x (by omega), put32_of_outside mem x (by omega), get16]

theorem get32_put16_of_disjoint {a b : Int} (v : Nat) (h : b + 4 ≤ a ∨ a + 2 ≤ b) :
    get32 (put16 mem a v) b = get32 mem b := by
  rw [get32, get16_put16_of_disjoint mem v (by omega), get16_put16_of_disjoint mem v (by omega),
    get32]

/-- The upper word of a number that was stored. -/
theorem get16_put32_hi (a : Int) (x : UInt32) :
    get16 (put32 mem a x) (a + 2) = x.toNat / 65536 := by
  have hx := x.toNat_lt
  have h2 : put32 mem a x (a + 2) = UInt8.ofNat (x.toNat / 65536) :=
    writeAt_add mem a (bytes32 x) 2 (by simp)
  have h3 : put32 mem a x (a + 2 + 1) = UInt8.ofNat (x.toNat / 65536 / 256) := by
    rw [Int.add_assoc]
    exact writeAt_add mem a (bytes32 x) 3 (by simp)
  rw [get16, h2, h3, le16_ofNat (by omega)]

/-- A word stored is read again. -/
theorem get32_put32 (a : Int) (x : UInt32) : get32 (put32 mem a x) a = x := by
  have hx := x.toNat_lt
  have h0 : put32 mem a x a = UInt8.ofNat (x.toNat % 65536) := by
    simpa [put32, bytes32, bytes16] using writeAt_add mem a (bytes32 x) 0 (by simp)
  have h1 : put32 mem a x (a + 1) = UInt8.ofNat (x.toNat % 65536 / 256) :=
    writeAt_add mem a (bytes32 x) 1 (by simp)
  have hlo : get16 (put32 mem a x) a = x.toNat % 65536 := by
    rw [get16, h0, h1, le16_ofNat (by omega)]
  rw [get32, hlo, get16_put32_hi, Nat.mod_add_div, UInt32.ofNat_toNat]

/-- A word whose bytes are known. -/
theorem get16_of_readAt {a : Int} {v : Nat} (hv : v < 65536) (h : readAt mem a 2 = bytes16 v) :
    get16 mem a = v := by
  rw [readAt_succ, readAt_succ, readAt_zero, bytes16, List.cons.injEq, List.cons.injEq] at h
  rw [get16, h.1, h.2.1, le16_ofNat hv]

/-- A word is read where its four bytes stand. -/
theorem get32_of_readAt {a : Int} {x : UInt32} (h : readAt mem a 4 = bytes32 x) :
    get32 mem a = x := by
  have hx := x.toNat_lt
  rw [readAt_add mem a 2 2, bytes32] at h
  obtain ⟨hlo, hhi⟩ := List.append_inj h rfl
  rw [get32, get16_of_readAt mem (by omega) hlo]
  rw [show a + 2 = a + (2 : Nat) from rfl, get16_of_readAt mem (by omega) hhi, Nat.mod_add_div,
    UInt32.ofNat_toNat]

/-! ## Stores over what is there -/

/-- The two bytes of a word in memory are the bytes it was read from. -/
theorem bytes16_get16 (a : Int) : bytes16 (get16 mem a) = readAt mem a 2 := by
  have h0 := (mem a).toNat_lt
  have h1 := (mem (a + 1)).toNat_lt
  have hlo : UInt8.ofNat (get16 mem a) = mem a := by
    apply UInt8.toNat_inj.mp
    rw [UInt8.toNat_ofNat', get16, le16]
    omega
  have hhi : UInt8.ofNat (get16 mem a / 256) = mem (a + 1) := by
    apply UInt8.toNat_inj.mp
    rw [UInt8.toNat_ofNat', get16, le16]
    omega
  rw [bytes16, hlo, hhi, readAt_succ, readAt_succ, readAt_zero]

theorem put16_get16 (a : Int) : put16 mem a (get16 mem a) = mem := by
  rw [put16, bytes16_get16, writeAt_readAt]

/-- What a word is written over is gone. -/
theorem put16_congr {mem mem' : Int → UInt8} {a : Int} (v : Nat)
    (h : ∀ i, (i < a ∨ a + 2 ≤ i) → mem i = mem' i) : put16 mem a v = put16 mem' a v := by
  funext i
  by_cases hi : i < a ∨ a + 2 ≤ i
  · rw [put16_of_outside mem v hi, put16_of_outside mem' v hi, h i hi]
  · obtain hi | hi : i = a + (0 : Nat) ∨ i = a + (1 : Nat) := by omega
    · rw [hi, put16, put16, writeAt_add mem a _ 0 (by simp), writeAt_add mem' a _ 0 (by simp)]
    · rw [hi, put16, put16, writeAt_add mem a _ 1 (by simp), writeAt_add mem' a _ 1 (by simp)]

theorem put16_congr_at {mem mem' : Int → UInt8} {a i : Int} (v : Nat) (h : mem i = mem' i) :
    put16 mem a v i = put16 mem' a v i := by
  simp only [put16, writeAt, h]

end Bklib
