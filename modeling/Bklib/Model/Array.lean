import Bklib.Model.CInt
import Mathlib.Data.List.Basic

/-!
# `Bklib.Model.Array`: the growable array of `array.c`

An `ArrayT` is one block of elements. `elts` holds the `m_count` elements in use, `mMax` the
capacity of the block in elements, and `mArray` the address of the block (`0` for a null
pointer). A pointer into the block is the index of the element it points to; the address
matters to a caller that keeps such a pointer, because `arrayAdd` moves the block. A count is a natural
number: that the `int` of the code overflows from 2^31 elements on is left out.

`arrayAdd` takes the address that `realloc` would return. The allocations of the modelled code
succeed.
-/

set_option autoImplicit false

namespace Bklib

/-- `ARRAY_DEFAULT_BLOCKSZ`. -/
def arrayDefaultBlocksz : Int := 10

/-- `array_t`. -/
structure ArrayT (α : Type) where
  mBlocksz : Int
  mArray : Nat
  elts : List α
  mMax : Int
  deriving DecidableEq

variable {α : Type}

/-- `array_init`. -/
def arrayInit (blocksz : Int) : ArrayT α where
  mBlocksz := if blocksz ≤ 0 then arrayDefaultBlocksz else blocksz
  mArray := 0
  elts := []
  mMax := 0

/-- `array_count`. -/
def arrayCount (self : ArrayT α) : Nat := self.elts.length

/-- A negative index counts from the end. -/
@[irreducible] def arrayWrap (self : ArrayT α) (i : Int) : Int :=
  if i < 0 then i + arrayCount self else i

/-- `array_get`: the position of element `i`, or nothing outside the array. -/
def arrayGet (self : ArrayT α) (i : Int) : Option Nat :=
  if arrayWrap self i < 0 ∨ arrayWrap self i ≥ arrayCount self then none
  else some (arrayWrap self i).toNat

/-- `array_add`: make room for `num` zeroed elements at the end. The result is the position of
the first one. `addr` is the address the block moves to when it has to grow. -/
def arrayAdd (zero : α) (addr : Nat) (self : ArrayT α) (num : Int) : ArrayT α × Option Nat :=
  let grown :=
    if arrayCount self + num ≤ self.mMax then self
    else { self with
      mMax := arrayCount self + (if num > self.mBlocksz then num else self.mBlocksz)
      mArray := addr }
  if num > 0 then
    ({ grown with elts := grown.elts ++ List.replicate num.toNat zero }, some (arrayCount self))
  else (grown, none)

/-- `array_append` of one element: `array_add`, then the element is copied into the new place. -/
def arrayAppend (zero : α) (addr : Nat) (self : ArrayT α) (elt : α) : ArrayT α × Option Nat :=
  match arrayAdd zero addr self 1 with
  | (self, none)   => (self, none)
  | (self, some p) => ({ self with elts := self.elts.set p elt }, some p)

/-- `memcpy` of `xs` over the elements from position `p` on. -/
def arrayMemcpy (self : ArrayT α) (p : Nat) (xs : List α) : ArrayT α :=
  { self with elts := self.elts.take p ++ xs ++ self.elts.drop (p + xs.length) }

/-- `memmove` on the elements: positions `dst` to `dst + n` get what stood from `src` on. -/
def memmove (xs : List α) (dst src n : Nat) : List α :=
  xs.mapIdx fun j x => if dst ≤ j ∧ j < dst + n then xs[src + (j - dst)]?.getD x else x

/-- The number of elements that `array_remove_idx` removes from the wrapped index `i` on: up to
the end when `len` is not positive or reaches past it. The sum is an `int`. -/
def arrayRemoveLen (self : ArrayT α) (i len : Int) : Int :=
  if len ≤ 0 ∨ toInt32 (i + len) > arrayCount self then arrayCount self - i else len

/-- The removal of `len` elements from position `p` on, where `i` is the wrapped index: the
elements behind them move down, unless `i` is the last one, and the count shrinks. A count that gets
negative is that of no elements. -/
def arrayCut (self : ArrayT α) (i len : Int) (p : Nat) : ArrayT α :=
  let elts :=
    if i < arrayCount self - 1 then
      memmove self.elts p (p + len).toNat (arrayCount self - i - len).toNat
    else self.elts
  { self with elts := elts.take (arrayCount self - len).toNat }

/-- `array_remove_idx`. The wrapped index goes through `array_get`, which wraps it again. -/
def arrayRemoveIdx (self : ArrayT α) (i len : Int) : ArrayT α :=
  match arrayGet self (arrayWrap self i) with
  | none => self
  | some p => arrayCut self (arrayWrap self i) (arrayRemoveLen self (arrayWrap self i) len) p

/-- `array_insert`: the array, the position of `start`, and the end of the elements that `memmove` and
`memcpy` have stored, which the block may not have. What stands between `start` and `end` is moved to
`end`. Its length is a `size_t`. -/
def arrayInsert (zero : α) (addr : Nat) (dst : ArrayT α) (idx : Int) (elts : List α) :
    ArrayT α × Option Nat × Nat :=
  if elts = [] then (dst, none, 0)
  else
    match arrayAdd zero addr dst elts.length with
    | (dst, none)     => (dst, none, 0)
    | (dst, some end_) =>
        match arrayGet dst idx with
        | none       => (dst, none, 0)
        | some start =>
            let n := (((end_ : Int) - start) % 2 ^ 64).toNat
            let dst := { dst with elts := memmove dst.elts end_ start n }
            (arrayMemcpy dst start elts, some start, max (end_ + n) (start + elts.length))

/-- `array_clear`. -/
def arrayClear (self : ArrayT α) : ArrayT α := { self with mArray := 0, elts := [], mMax := 0 }

/-! ### Searching -/

/-- The element at the pointer of `array_get`. -/
def arrayElt (self : ArrayT α) (i : Int) : Option α := (arrayGet self i).bind (self.elts[·]?)

/-- The loop of `array_bsearch`, with at most `fuel` rounds, and `a` in the end. There is none when the
fuel runs out, or when an index is outside the array. -/
def arrayBsearchLoop (cmp : α → α → Int) (array : ArrayT α) (cmpElt : α) :
    Nat → Int → Int → Option Int
  | 0,        _, _ => none
  | fuel + 1, a, b =>
      let m := (toInt32 (a + b)).tdiv 2
      if a ≥ b then some a
      else
        (arrayElt array m).bind fun elt =>
          let i := cmp cmpElt elt
          if i = 0 then some m
          else if i < 0 then
            if b = m then some b else arrayBsearchLoop cmp array cmpElt fuel a m
          else if a = m then
            (arrayElt array b).map fun elt => if cmp cmpElt elt ≥ 0 then b else a
          else arrayBsearchLoop cmp array cmpElt fuel m b

/-- The scan back over equal elements. -/
def arrayBsearchBack (cmp : α → α → Int) (array : ArrayT α) (cmpElt : α) : Nat → Option Nat
  | 0     => some 0
  | a + 1 =>
      (arrayElt array a).bind fun elt =>
        if cmp cmpElt elt = 0 then arrayBsearchBack cmp array cmpElt a else some (a + 1)

/-- `array_bsearch`, with at most `fuel` rounds. -/
def arrayBsearch (fuel : Nat) (array : ArrayT α) (cmp : α → α → Int) (cmpElt : α) : Option Int :=
  let b : Int := arrayCount array - 1
  if b < 0 then some (-1)
  else
    (arrayElt array 0).bind fun elt =>
      if cmp cmpElt elt < 0 then some (-1)
      else
        (arrayBsearchLoop cmp array cmpElt fuel 0 b).bind fun a =>
          (arrayBsearchBack cmp array cmpElt a.toNat).map fun a : Nat => (a : Int)

/-! ### What the operations do to the elements -/

@[simp] theorem elts_arrayInit (blocksz : Int) : (arrayInit blocksz : ArrayT α).elts = [] := rfl

/-- `array_add` of one element puts it behind the others. -/
theorem arrayAdd_one (zero : α) (addr : Nat) (self : ArrayT α) :
    ∃ arr, arrayAdd zero addr self 1 = (arr, some self.elts.length) ∧
      arr.elts = self.elts ++ [zero] := by
  refine ⟨_, by rw [arrayAdd, if_pos (show (1 : Int) > 0 by decide)]; rfl, ?_⟩
  split <;> rfl

/-- `array_add`, and the new elements copied in. -/
theorem elts_arrayMemcpy_arrayAdd (zero : α) (addr : Nat) (self : ArrayT α) {xs : List α}
    (hxs : xs ≠ []) :
    ∃ arr, arrayAdd zero addr self xs.length = (arr, some self.elts.length) ∧
      (arrayMemcpy arr self.elts.length xs).elts = self.elts ++ xs := by
  have hpos : 0 < xs.length := List.length_pos_iff.mpr hxs
  refine ⟨_, by rw [arrayAdd, if_pos (show (xs.length : Int) > 0 by omega)]; rfl, ?_⟩
  have hgrown : ∀ grown : ArrayT α, grown.elts = self.elts →
      (arrayMemcpy { grown with elts := grown.elts ++ List.replicate (xs.length : Int).toNat zero }
        self.elts.length xs).elts = self.elts ++ xs := by
    intro grown helts
    simp [arrayMemcpy, helts]
  apply hgrown
  split <;> rfl

theorem arrayAppend_eq (zero : α) (addr : Nat) (self : ArrayT α) (elt : α) :
    (arrayAppend zero addr self elt).2 = some self.elts.length ∧
      (arrayAppend zero addr self elt).1.elts = self.elts ++ [elt] := by
  obtain ⟨arr, hadd, helts⟩ := arrayAdd_one zero addr self
  simp [arrayAppend, hadd, helts]

@[simp] theorem elts_arrayAppend (zero : α) (addr : Nat) (self : ArrayT α) (elt : α) :
    (arrayAppend zero addr self elt).1.elts = self.elts ++ [elt] :=
  (arrayAppend_eq zero addr self elt).2

theorem arrayWrap_natCast (self : ArrayT α) (i : Nat) : arrayWrap self i = i := by
  rw [arrayWrap, if_neg (by omega)]

theorem arrayGet_of_lt (self : ArrayT α) (i : Nat) (hi : i < self.elts.length) :
    arrayGet self i = some i := by
  rw [arrayGet, arrayWrap_natCast, if_neg (by unfold arrayCount; omega), Int.toNat_natCast]

@[simp] theorem length_memmove (xs : List α) (dst src n : Nat) :
    (memmove xs dst src n).length = xs.length := List.length_mapIdx

/-- The elements behind `p + n`, moved down to `p`, overwrite what stood between. -/
theorem take_memmove (xs : List α) {p n : Nat} (h : p + n ≤ xs.length) :
    (memmove xs p (p + n) (xs.length - p - n)).take (xs.length - n) = xs.take p ++ xs.drop (p + n) := by
  apply List.ext_getElem
  · rw [List.length_take, length_memmove, List.length_append, List.length_take, List.length_drop]
    omega
  · intro j h1 h2
    rw [List.length_take, length_memmove] at h1
    rw [List.getElem_take, List.getElem_append]
    simp only [memmove, List.getElem_mapIdx]
    by_cases hj : j < p
    · rw [if_neg (by omega), dif_pos (by rw [List.length_take]; omega), List.getElem_take]
    · have hlen : (xs.take p).length = p := by rw [List.length_take]; omega
      rw [if_pos (by omega), dif_neg (by omega), List.getElem_drop,
        List.getElem?_eq_getElem (by omega), Option.getD_some]
      simp only [hlen]

/-- The removal of a segment that is inside the array. -/
theorem elts_arrayCut (self : ArrayT α) {i n : Nat} (hn : 0 < n) (h : i + n ≤ self.elts.length) :
    (arrayCut self i n i).elts = self.elts.take i ++ self.elts.drop (i + n) := by
  have hcount : ((arrayCount self : Int) - n).toNat = self.elts.length - n := by
    unfold arrayCount
    omega
  have hshift : ((arrayCount self : Int) - i - n).toNat = self.elts.length - i - n := by
    unfold arrayCount
    omega
  simp only [arrayCut, hcount, hshift]
  by_cases hlast : (i : Int) < arrayCount self - 1
  · rw [if_pos hlast, show ((i : Int) + n).toNat = i + n by omega]
    exact take_memmove self.elts h
  · -- The last element: the count alone drops it.
    rw [if_neg hlast]
    unfold arrayCount at hlast
    rw [List.drop_eq_nil_of_le (by omega), List.append_nil,
      show self.elts.length - n = i by omega]

/-- Removing one element at a position inside the array erases it. -/
theorem elts_arrayRemoveIdx_one (self : ArrayT α) (i : Nat) (hi : i < self.elts.length) :
    (arrayRemoveIdx self i 1).elts = self.elts.eraseIdx i := by
  have hlen : arrayRemoveLen self i 1 = 1 := by
    have hle := toInt32_le (show (0 : Int) ≤ i + 1 by omega)
    exact if_neg (by unfold arrayCount; omega)
  have hcut : (arrayCut self i (1 : Nat) i).elts = _ := elts_arrayCut self (by decide) hi
  rw [arrayRemoveIdx, arrayWrap_natCast, arrayGet_of_lt self i hi, hlen,
    List.eraseIdx_eq_take_drop_succ]
  exact hcut

end Bklib
