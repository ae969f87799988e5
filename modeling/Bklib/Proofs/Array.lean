import Bklib.Lib.Bisect
import Bklib.Model.Array
import Mathlib.Data.List.Rotate

/-!
# `Bklib.Proofs.Array`: inserting, removing and searching

`array_remove_idx` takes the segment out that it is asked for, unless a negative index counts from
further back than the start, which is wrapped twice, or the end of the segment does not fit an `int`
(`arrayRemoveIdx_iff`).

`array_insert` moves the elements behind the index to the old end of the array, whatever it inserts, so
they are where they belong when there are as many of them as there are new ones
(`arrayInsert_iff`).

`array_bsearch` ends, and finds the place of the key in a sorted array (`arrayBsearch_place`).
-/

set_option autoImplicit false

namespace Bklib

open Bklib.Lib

variable {α : Type}

/-! ### Removing -/

/-- The list without the segment of `len` elements from `i` on. A negative `i` counts from the end, and
the segment goes up to the end when `len` is not positive. -/
def withoutSegment (xs : List α) (i len : Int) : List α :=
  let start := if i < 0 then i + xs.length else i
  if 0 ≤ start ∧ start < xs.length then
    xs.take start.toNat ++
      if len ≤ 0 then [] else xs.drop (min (start + len) xs.length).toNat
  else xs

/-- The index is below the first element, and in the array when it is counted from the end twice. -/
def WrapsTwice (xs : List α) (i : Int) : Prop := -(2 * xs.length : Int) ≤ i ∧ i < -(xs.length : Int)

/-- The segment starts in the array, and its end is no `int`. -/
def EndOverflows (xs : List α) (i len : Int) : Prop :=
  let start := if i < 0 then i + xs.length else i
  0 ≤ start ∧ start < xs.length ∧ 0 < len ∧ 2 ^ 31 ≤ start + len

section
variable (self : ArrayT α)

theorem arrayWrap_eq (i : Int) : arrayWrap self i = if i < 0 then i + self.elts.length else i := by
  unfold arrayWrap arrayCount
  rfl

/-- How many elements a cut leaves. -/
theorem length_elts_arrayCut (i len : Int) (p : Nat) :
    (arrayCut self i len p).elts.length = min (self.elts.length - len).toNat self.elts.length := by
  simp only [arrayCut]
  rw [List.length_take]
  split
  · rw [length_memmove]
    rfl
  · rfl

/-- The array when the wrapped index is none of the array: it may be wrapped again. -/
theorem arrayRemoveIdx_of_wraps {i len : Int} (h : WrapsTwice self.elts i) :
    (arrayRemoveIdx self i len).elts ≠ self.elts := by
  obtain ⟨hlo, hhi⟩ := h
  have hwrap : arrayWrap self i = i + self.elts.length := by
    rw [arrayWrap_eq, if_pos (by omega)]
  have hagain : arrayWrap self (i + self.elts.length) = i + self.elts.length + self.elts.length := by
    rw [arrayWrap_eq, if_pos (by omega)]
  have hget : arrayGet self (arrayWrap self i)
      = some (i + self.elts.length + self.elts.length).toNat := by
    rw [hwrap, arrayGet, hagain]
    exact if_neg (by unfold arrayCount; omega)
  intro hsame
  have hlen := congrArg List.length hsame
  rw [arrayRemoveIdx, hget] at hlen
  simp only [length_elts_arrayCut, hwrap] at hlen
  -- At least one element is gone.
  unfold arrayRemoveLen arrayCount at hlen
  split at hlen <;> omega

/-- The array when the end of the segment does not fit an `int`: more is gone than the segment. -/
theorem arrayRemoveIdx_of_overflow (hcount : self.elts.length < 2 ^ 31) {i len : Int}
    (hlen : len < 2 ^ 31) (h : EndOverflows self.elts i len) :
    (arrayRemoveIdx self i len).elts ≠ withoutSegment self.elts i len := by
  unfold EndOverflows at h
  unfold withoutSegment
  rw [← arrayWrap_eq] at h ⊢
  dsimp only at h ⊢
  generalize hstart : arrayWrap self i = start at h ⊢
  obtain ⟨h0, hlt, hpos, hover⟩ := h
  have hget : arrayGet self start = some start.toNat := by
    have hcast := arrayGet_of_lt self start.toNat (by omega)
    rwa [Int.toNat_of_nonneg h0] at hcast
  have hsum : toInt32 (start + len) = start + len - 2 ^ 32 := by
    rw [toInt32, Int.bmod_eq_emod]
    split <;> omega
  have hremove : arrayRemoveLen self start len = len := by
    unfold arrayRemoveLen arrayCount
    rw [hsum, if_neg (by omega)]
  intro hsame
  have hlength := congrArg List.length hsame
  rw [if_pos ⟨h0, hlt⟩, if_neg (by omega), List.length_append, List.length_take, List.length_drop,
    arrayRemoveIdx, hstart, hget] at hlength
  simp only [length_elts_arrayCut, hremove] at hlength
  omega

/-- The array in every other case. -/
theorem arrayRemoveIdx_eq (hcount : self.elts.length < 2 ^ 31) {i len : Int}
    (hi : -(2 ^ 31) ≤ i) (hlen : -(2 ^ 31) ≤ len ∧ len < 2 ^ 31) (hwraps : ¬WrapsTwice self.elts i)
    (hover : ¬EndOverflows self.elts i len) :
    (arrayRemoveIdx self i len).elts = withoutSegment self.elts i len := by
  unfold EndOverflows at hover
  unfold withoutSegment
  unfold WrapsTwice at hwraps
  rw [← arrayWrap_eq] at hover ⊢
  dsimp only at hover ⊢
  have hwrap := arrayWrap_eq self i
  by_cases hin : 0 ≤ arrayWrap self i ∧ arrayWrap self i < self.elts.length
  · generalize hstart : arrayWrap self i = start at *
    obtain ⟨h0, hlt⟩ := hin
    obtain ⟨p, rfl⟩ := Int.eq_ofNat_of_zero_le h0
    have hget : arrayGet self p = some p := arrayGet_of_lt self p (by omega)
    rw [if_pos ⟨h0, hlt⟩, arrayRemoveIdx, hstart, hget]
    -- The number of elements that are removed.
    obtain ⟨n, hn, hremove, hpos, hle⟩ : ∃ n : Nat,
        p + n = (if len ≤ 0 then (self.elts.length : Int) else min (p + len) self.elts.length) ∧
        arrayRemoveLen self p len = n ∧ 0 < n ∧ p + n ≤ self.elts.length := by
      have hsum : 0 < len → toInt32 (p + len) = p + len := fun h =>
        toInt32_eq_self (by omega) (by omega)
      unfold arrayRemoveLen arrayCount
      by_cases hend : len ≤ 0 ∨ toInt32 (p + len) > self.elts.length
      · refine ⟨self.elts.length - p, ?_, ?_, by omega, by omega⟩
        · split <;> omega
        · rw [if_pos hend]
          omega
      · refine ⟨len.toNat, ?_, ?_, by omega, by omega⟩
        · split <;> omega
        · rw [if_neg hend]
          omega
    simp only [hremove]
    rw [elts_arrayCut self hpos hle, Int.toNat_natCast]
    congr 1
    by_cases hneg : len ≤ 0
    · rw [if_pos hneg] at hn ⊢
      exact List.drop_eq_nil_of_le (by omega)
    · rw [if_neg hneg] at hn ⊢
      rw [← hn]
      rfl
  · rw [if_neg hin]
    have hget : arrayGet self (arrayWrap self i) = none := by
      have hagain := arrayWrap_eq self (arrayWrap self i)
      unfold arrayGet arrayCount
      refine if_pos ?_
      rw [hagain]
      split <;> split at hwrap <;> omega
    rw [arrayRemoveIdx, hget]

/-- Exactly when no index is wrapped twice and the end of the segment is an `int`, the array is the old
one without the segment. -/
theorem arrayRemoveIdx_iff (hcount : self.elts.length < 2 ^ 31) (i len : Int32) :
    (arrayRemoveIdx self i.toInt len.toInt).elts = withoutSegment self.elts i.toInt len.toInt ↔
      ¬WrapsTwice self.elts i.toInt ∧ ¬EndOverflows self.elts i.toInt len.toInt := by
  have hi := i.le_toInt
  have hlen := len.le_toInt
  have hlen' := len.toInt_lt
  constructor
  · intro hsame
    constructor
    · intro hwraps
      have hout : withoutSegment self.elts i.toInt len.toInt = self.elts := by
        obtain ⟨hlo, hhi⟩ := hwraps
        unfold withoutSegment
        dsimp only
        rw [if_neg]
        split <;> omega
      exact arrayRemoveIdx_of_wraps self hwraps (hsame.trans hout)
    · exact fun hover => arrayRemoveIdx_of_overflow self hcount (by omega) hover hsame
  · rintro ⟨hwraps, hover⟩
    exact arrayRemoveIdx_eq self hcount (by omega) ⟨by omega, by omega⟩ hwraps hover

end

/-- An array with the elements 1, 2 and 3. -/
def oneTwoThree : ArrayT Nat := ⟨10, 1, [1, 2, 3], 10⟩

/-- The last two elements are removed. -/
theorem arrayRemoveIdx_iff_last :
    (arrayRemoveIdx oneTwoThree (-2 : Int32).toInt (5 : Int32).toInt).elts
        = withoutSegment oneTwoThree.elts (-2 : Int32).toInt (5 : Int32).toInt ↔
      ¬WrapsTwice oneTwoThree.elts (-2 : Int32).toInt ∧
        ¬EndOverflows oneTwoThree.elts (-2 : Int32).toInt (5 : Int32).toInt :=
  arrayRemoveIdx_iff oneTwoThree (by decide) (-2) 5

/-- Element -5 of three is none, but an element goes. And from element 1 on the largest `int` is not
clamped. -/
theorem arrayRemoveIdx_wrong :
    ¬(arrayRemoveIdx oneTwoThree (-5) 1).elts = withoutSegment oneTwoThree.elts (-5) 1 ∧
      ¬(arrayRemoveIdx oneTwoThree 1 2147483647).elts
        = withoutSegment oneTwoThree.elts 1 2147483647 := by
  decide +kernel

/-! ### Inserting -/

/-- The elements are inserted at the index, its position is returned, and nothing is stored behind the
block. -/
structure InsertsAt (dst : ArrayT α) (idx : Nat) (elts : List α) (r : ArrayT α × Option Nat × Nat) :
    Prop where
  elts : r.1.elts = dst.elts.take idx ++ elts ++ dst.elts.drop idx
  ptr : r.2.1 = some idx
  inside : (r.2.2 : Int) ≤ r.1.mMax

/-- The block has room for the elements that were added. -/
theorem arrayAdd_spec (zero : α) (addr : Nat) (self : ArrayT α) {n : Nat} (hn : 0 < n) :
    ∃ arr, arrayAdd zero addr self n = (arr, some self.elts.length) ∧
      arr.elts = self.elts ++ List.replicate n zero ∧ (self.elts.length + n : Int) ≤ arr.mMax := by
  unfold arrayAdd
  dsimp only
  rw [if_pos (show (n : Int) > 0 by omega)]
  refine ⟨_, rfl, ?_, ?_⟩
  · rw [Int.toNat_natCast]
    split <;> rfl
  · unfold arrayCount
    dsimp only
    split
    · omega
    · dsimp only
      split <;> omega

/-- What `memmove` makes of the array: the elements behind the index stand behind the old end too, as
far as the array goes. -/
theorem memmove_to_end (zero : α) (xs : List α) {idx : Nat} (hidx : idx ≤ xs.length) (n : Nat) :
    memmove (xs ++ List.replicate n zero) xs.length idx (xs.length - idx)
      = xs ++ (xs.drop idx ++ List.replicate n zero).take n := by
  apply List.ext_getElem
  · simp only [length_memmove, List.length_append, List.length_replicate, List.length_take,
      List.length_drop]
    omega
  · intro j h1 h2
    rw [length_memmove, List.length_append, List.length_replicate] at h1
    simp only [memmove, List.getElem_mapIdx]
    by_cases hj : j < xs.length
    · rw [if_neg (by omega), List.getElem_append_left hj, List.getElem_append_left hj]
    · have hbehind : xs.length ≤ j := Nat.not_lt.mp hj
      rw [List.getElem_append_right hbehind, List.getElem_append_right hbehind, List.getElem_take]
      by_cases hmoved : j < xs.length + (xs.length - idx)
      · rw [if_pos ⟨by omega, hmoved⟩, List.getElem?_append_left (by omega),
          List.getElem?_eq_getElem (by omega), Option.getD_some,
          List.getElem_append_left (by rw [List.length_drop]; omega), List.getElem_drop]
      · rw [if_neg (by omega), List.getElem_replicate,
          List.getElem_append_right (by rw [List.length_drop]; omega), List.getElem_replicate]

/-- What stands behind the inserted elements: `tail` is what stood behind the index. -/
def behindInserted (zero : α) (tail : List α) (n : Nat) : List α :=
  (tail ++ (tail ++ List.replicate n zero).take n).drop n

/-- What `array_insert` does, as one equation: the array after it, the index it returns and how far
its reads go. -/
theorem arrayInsert_eq (zero : α) (addr : Nat) {dst : ArrayT α} (hcount : dst.elts.length < 2 ^ 31)
    {idx : Nat} (hidx : idx ≤ dst.elts.length) {elts : List α} (helts : elts ≠ []) :
    ∃ arr, arrayInsert zero addr dst idx elts = (arr, some idx,
        max (dst.elts.length + (dst.elts.length - idx)) (idx + elts.length)) ∧
      arr.mMax = (arrayAdd zero addr dst elts.length).1.mMax ∧
      arr.elts = dst.elts.take idx ++ elts ++
        behindInserted zero (dst.elts.drop idx) elts.length := by
  have hpos := List.length_pos_iff.mpr helts
  obtain ⟨arr, hadd, harr, -⟩ := arrayAdd_spec zero addr dst hpos
  have hget : arrayGet arr idx = some idx := by
    refine arrayGet_of_lt arr idx ?_
    rw [harr, List.length_append, List.length_replicate]
    omega
  have hn : (((dst.elts.length : Int) - idx) % 2 ^ 64).toNat = dst.elts.length - idx := by
    rw [Int.emod_eq_of_lt (by omega) (by omega)]
    omega
  unfold arrayInsert
  rw [if_neg helts]
  simp only [hadd, hget, hn]
  refine ⟨_, rfl, rfl, ?_⟩
  simp only [arrayMemcpy]
  rw [harr, memmove_to_end zero _ hidx, List.take_append_of_le_length hidx, behindInserted,
    ← List.drop_drop, List.drop_append_of_le_length hidx]

/-- When as many elements are moved as are inserted, they are where they belong. -/
theorem behindInserted_same (zero : α) (tail : List α) :
    behindInserted zero tail tail.length = tail := by
  rw [behindInserted, List.take_left, List.drop_left]

/-- When more elements are moved, the first ones stand behind the others. -/
theorem behindInserted_long (zero : α) {tail : List α} {n : Nat} (h : n ≤ tail.length) :
    behindInserted zero tail n = tail.rotate n := by
  rw [behindInserted, List.take_append_of_le_length h, List.drop_append_of_le_length h,
    List.rotate_eq_drop_append_take h]

/-- When fewer elements are moved, they are too far in front, and followed by zeros. -/
theorem behindInserted_short (zero : α) {tail : List α} {n : Nat} (h : tail.length < n) :
    behindInserted zero tail n = tail ↔ tail = List.replicate tail.length zero := by
  have hform : behindInserted zero tail n
      = (tail ++ List.replicate (n - tail.length) zero).drop (n - tail.length) := by
    rw [behindInserted, List.take_append, List.take_of_length_le (by omega), List.take_replicate,
      Nat.min_eq_left (by omega), show n = tail.length + (n - tail.length) by omega,
      ← List.drop_drop, List.drop_left, Nat.add_sub_cancel_left]
  rw [hform]
  constructor
  · intro hsame
    -- From the last element on: each one is zero, or the one that stands further behind.
    have hzero : ∀ d i, (hi : i < tail.length) → tail.length - i ≤ d → tail[i] = zero := by
      intro d
      induction d with
      | zero => intro i hi hd; omega
      | succ d ih =>
          intro i hi hd
          have hat : ((tail ++ List.replicate (n - tail.length) zero).drop (n - tail.length))[i]?
              = tail[i]? := by rw [hsame]
          rw [List.getElem?_drop, List.getElem?_eq_getElem hi] at hat
          by_cases hnext : n - tail.length + i < tail.length
          · rw [List.getElem?_append_left hnext, List.getElem?_eq_getElem hnext] at hat
            rw [← Option.some.inj hat]
            exact ih _ hnext (by omega)
          · rw [List.getElem?_append_right (by omega), List.getElem?_replicate, if_pos (by omega)]
              at hat
            exact (Option.some.inj hat).symm
    apply List.ext_getElem (by rw [List.length_replicate])
    intro i hi _
    rw [hzero tail.length i hi (by omega), List.getElem_replicate]
  · intro hzeros
    generalize tail.length = t at hzeros h
    rw [hzeros, List.replicate_append_replicate, List.drop_replicate]
    congr 1
    omega

/-- Exactly when as many elements stand behind the index as are inserted, or fewer and only zeros, or
more, which look the same with the first ones behind the others, and fit the block. -/
theorem arrayInsert_iff (zero : α) (addr : Nat) (dst : ArrayT α) (hcount : dst.elts.length < 2 ^ 31)
    (idx : Nat) (hidx : idx ≤ dst.elts.length) (elts : List α) (helts : elts ≠ []) :
    InsertsAt dst idx elts (arrayInsert zero addr dst idx elts) ↔
      let tail := dst.elts.drop idx
      tail.length = elts.length ∨
        tail.length < elts.length ∧ tail = List.replicate tail.length zero ∨
        elts.length < tail.length ∧ tail.rotate elts.length = tail ∧
          ((dst.elts.length + tail.length : Nat) : Int)
            ≤ (arrayAdd zero addr dst elts.length).1.mMax := by
  obtain ⟨arr, hinsert, hmax, harr⟩ := arrayInsert_eq zero addr hcount hidx helts
  obtain ⟨grown, hadd, -, hroom⟩ := arrayAdd_spec zero addr dst (List.length_pos_iff.mpr helts)
  have hgrown : arr.mMax = grown.mMax := by rw [hmax, hadd]
  have htail : (dst.elts.drop idx).length = dst.elts.length - idx := List.length_drop
  -- what is in front of the tail is in place in any case
  have hiff : InsertsAt dst idx elts (arrayInsert zero addr dst idx elts) ↔
      behindInserted zero (dst.elts.drop idx) elts.length = dst.elts.drop idx ∧
        ((max (dst.elts.length + (dst.elts.length - idx)) (idx + elts.length) : Nat) : Int)
          ≤ grown.mMax := by
    rw [hinsert]
    constructor
    · intro h
      have helts' := h.elts
      rw [harr] at helts'
      exact ⟨List.append_cancel_left helts', hgrown ▸ h.inside⟩
    · rintro ⟨hsame, hinside⟩
      exact ⟨by rw [harr, hsame], rfl, hgrown ▸ hinside⟩
  rw [hiff, hadd]
  dsimp only
  rw [htail]
  rcases Nat.lt_trichotomy (dst.elts.length - idx) elts.length with hlt | heq | hgt
  · -- a tail that is shorter than the elements is moved too far in front, and zeros follow it
    have hshort := behindInserted_short zero (htail.symm ▸ hlt)
    rw [htail] at hshort
    rw [hshort]
    constructor
    · exact fun h => Or.inr (Or.inl ⟨hlt, h.1⟩)
    · rintro (h | ⟨-, h⟩ | ⟨h, -⟩)
      · omega
      · exact ⟨h, by omega⟩
      · omega
  · have hsame := behindInserted_same zero (dst.elts.drop idx)
    rw [htail, heq] at hsame
    exact iff_of_true ⟨hsame, by omega⟩ (Or.inl heq)
  · -- a longer one comes back rotated
    rw [behindInserted_long zero (htail.symm ▸ hgt.le)]
    constructor
    · exact fun h => Or.inr (Or.inr ⟨hgt, h.1, by omega⟩)
    · rintro (h | ⟨h, -⟩ | ⟨-, h, hfits⟩)
      · omega
      · omega
      · exact ⟨h, by omega⟩

/-- Two elements are inserted in front of the last two. -/
theorem arrayInsert_iff_same :
    InsertsAt oneTwoThree 1 [4, 5] (arrayInsert 0 2 oneTwoThree 1 [4, 5]) :=
  (arrayInsert_iff 0 2 oneTwoThree (by decide) 1 (by decide) [4, 5] (by decide)).mpr
    (Or.inl (by decide))

/-- In front of three elements, one that is inserted makes 4, 2, 3, 1 of 1, 2, 3. -/
theorem arrayInsert_wrong : ¬InsertsAt oneTwoThree 0 [4] (arrayInsert 0 2 oneTwoThree 0 [4]) := by
  intro h
  have helts : (arrayInsert 0 2 oneTwoThree 0 [4]).1.elts = [4, 2, 3, 1] := by decide +kernel
  exact absurd (helts.symm.trans h.elts) (by decide)

/-! ### Searching -/

/-- Where the key belongs in the elements: -1 when it is before all of them, the index of the first one
that is equal to it, or the greatest index of one that is before it. -/
structure BsearchPlace (cmp : α → α → Int) (xs : List α) (key : α) (r : Int) : Prop where
  before : (∀ x ∈ xs.head?, cmp key x < 0) → r = -1
  equal : (∃ x ∈ xs, cmp key x = 0) → ∃ n : Nat, r = n ∧
    (∃ x, xs[n]? = some x ∧ cmp key x = 0) ∧ ∀ k, k < n → ∀ x, xs[k]? = some x → cmp key x ≠ 0
  behind : (∃ x, xs.head? = some x ∧ 0 ≤ cmp key x) → (∀ x ∈ xs, cmp key x ≠ 0) →
    ∃ n : Nat, r = n ∧ (∃ x, xs[n]? = some x ∧ 0 < cmp key x) ∧
      ∀ k x, xs[k]? = some x → 0 < cmp key x → k ≤ n

section
variable {cmp : α → α → Int} {array : ArrayT α} {key : α}

/-- The element at an index of the array, and its comparison. -/
theorem arrayElt_of_lt (cmp : α → α → Int) (key : α) {i : Nat} (hi : i < array.elts.length) :
    ∃ x, arrayElt array i = some x ∧ array.elts[i]? = some x ∧
      signAt cmp array.elts key i = cmp key x := by
  have hx := List.getElem?_eq_getElem hi
  refine ⟨array.elts[i], ?_, hx, signAt_of_some hx⟩
  rw [arrayElt, arrayGet_of_lt array i hi]
  exact hx

/-- The middle of two indices. -/
theorem arrayBsearch_mid {a b : Nat} (hab : a ≤ b) (hb : b < 2 ^ 30) :
    (toInt32 ((a : Int) + b)).tdiv 2 = ((a + b) / 2 : Nat) := by
  rw [toInt32_eq_self (by omega) (by omega)]
  exact Int.ofNat_tdiv (a + b) 2

/-- The loop ends at a candidate. Induction on the fuel, with the bracket as the invariant. -/
theorem arrayBsearchLoop_candidate (hlen : array.elts.length < 2 ^ 30)
    (hf : SignFalls (signAt cmp array.elts key) array.elts.length) (fuel : Nat) :
    ∀ {a b : Nat}, Bracket (signAt cmp array.elts key) array.elts.length a b → b - a < fuel →
      ∃ c : Nat, arrayBsearchLoop cmp array key fuel a b = some (c : Int) ∧
        KeyCandidate (signAt cmp array.elts key) array.elts.length c := by
  induction fuel with
  | zero => intro a b _ hfuel; exact absurd hfuel (Nat.not_lt_zero _)
  | succ fuel ih =>
      intro a b hbracket hfuel
      have hb := hbracket.lt
      have hmid := arrayBsearch_mid hbracket.le (Nat.lt_trans hb hlen)
      rw [arrayBsearchLoop]
      dsimp only
      rw [hmid]
      rcases Nat.eq_or_lt_of_le hbracket.le with rfl | hab
      · rw [if_pos (le_refl _)]
        exact ⟨a, rfl, hbracket.candidate_of_eq⟩
      · rw [if_neg (by omega)]
        have hm : (a + b) / 2 < array.elts.length := by omega
        obtain ⟨x, helt, -, hsign⟩ := arrayElt_of_lt cmp key hm
        rw [helt, Option.bind_some, ← hsign]
        generalize hmval : (a + b) / 2 = m at hm hsign ⊢
        rcases Int.lt_trichotomy (signAt cmp array.elts key m) 0 with hneg | hzero | hpos
        · -- The key is in front of the middle.
          rw [if_neg (by omega), if_pos hneg, if_neg (by omega)]
          exact ih (hbracket.down (by omega) (by omega) hneg) (by omega)
        · rw [if_pos hzero]
          exact ⟨m, rfl, hm, Or.inl hzero⟩
        · rw [if_neg (by omega), if_neg (by omega)]
          by_cases ham : a = m
          · -- Two elements are left, and the first one is before the key.
            subst ham
            obtain rfl : b = a + 1 := by omega
            obtain ⟨y, helt', -, hsign'⟩ := arrayElt_of_lt cmp key hb
            rw [if_pos rfl, helt', Option.map_some, ← hsign']
            refine ⟨_, ?_, hbracket.candidate_of_succ hf hpos⟩
            split <;> rfl
          · rw [if_neg (by omega)]
            exact ih (hbracket.up (by omega) hpos) (by omega)

/-- The scan back. -/
theorem arrayBsearchBack_eq {c : Nat} (hc : c ≤ array.elts.length) :
    arrayBsearchBack cmp array key c = some (zerosBack (signAt cmp array.elts key) c) := by
  induction c with
  | zero => rfl
  | succ c ih =>
      obtain ⟨x, helt, -, hsign⟩ := arrayElt_of_lt cmp key hc
      rw [arrayBsearchBack, zerosBack, helt, Option.bind_some, hsign]
      split
      · exact ih (Nat.le_of_succ_le hc)
      · rfl

/-- The place among the signs is the place among the elements. -/
theorem bsearchPlace_of_keyPlace {xs : List α} {x : α} (hx : xs.head? = some x) (h0 : 0 ≤ cmp key x)
    {n : Nat} (h : KeyPlace (signAt cmp xs key) xs.length n) : BsearchPlace cmp xs key n := by
  obtain ⟨hn, hcase⟩ := h
  have hat : xs[n]? = some xs[n] := List.getElem?_eq_getElem hn
  rw [signAt_of_some hat] at hcase
  refine ⟨fun hall => ?_, fun ⟨y, hy, hzero⟩ => ?_, fun _ hne => ?_⟩
  · have := hall x hx
    omega
  · -- An element is equal, so the place is that of the first one.
    obtain ⟨k, hk, rfl⟩ := List.getElem_of_mem hy
    rcases hcase with ⟨hat0, hbefore⟩ | ⟨-, hne, -⟩
    · refine ⟨n, rfl, ⟨_, hat, hat0⟩, fun k hk y hy => ?_⟩
      have hne := hbefore k hk
      rwa [signAt_of_some hy] at hne
    · have := hne k hk
      rw [signAt_of_some (List.getElem?_eq_getElem hk)] at this
      exact absurd hzero this
  · rcases hcase with ⟨hat0, -⟩ | ⟨hpos, -, hlast⟩
    · exact absurd hat0 (hne _ (List.getElem_mem hn))
    · refine ⟨n, rfl, ⟨_, hat, hpos⟩, fun k y hy hypos => ?_⟩
      have hk : k < xs.length := (List.getElem?_eq_some_iff.mp hy).1
      exact hlast k hk (by rwa [signAt_of_some hy])

/-- `array_bsearch` ends in at most as many rounds as there are elements, and finds the place of the
key. -/
theorem arrayBsearch_place (hcmp : CmpPreorder cmp) (hlen : array.elts.length < 2 ^ 30)
    (hsorted : array.elts.Pairwise fun x y => cmp x y ≤ 0) (key : α) :
    ∃ r, (∀ fuel, array.elts.length ≤ fuel → arrayBsearch fuel array cmp key = some r) ∧
      BsearchPlace cmp array.elts key r := by
  have hf := signFalls_of_sorted hcmp hsorted key
  unfold arrayBsearch
  dsimp only
  rcases Nat.eq_zero_or_pos array.elts.length with hnil | hpos
  · -- An empty array.
    have hempty : array.elts = [] := List.length_eq_zero_iff.mp hnil
    refine ⟨-1, fun fuel _ => if_pos ?_, fun _ => rfl, ?_, ?_⟩
    · unfold arrayCount
      omega
    · rintro ⟨x, hx, -⟩
      rw [hempty] at hx
      exact absurd hx List.not_mem_nil
    · rintro ⟨x, hx, -⟩
      rw [hempty] at hx
      exact absurd hx (by simp)
  · have hb : ¬(arrayCount array : Int) - 1 < 0 := by
      unfold arrayCount
      omega
    obtain ⟨x, helt, hx, hsign⟩ := arrayElt_of_lt cmp key hpos
    have hhead : array.elts.head? = some x := by rw [List.head?_eq_getElem?, hx]
    rw [Nat.cast_zero] at helt
    simp only [if_neg hb, helt, Option.bind_some]
    by_cases hbefore : cmp key x < 0
    · -- The key is before the first element, so it is before every one.
      refine ⟨-1, fun fuel _ => if_pos hbefore, fun _ => rfl, ?_, ?_⟩
      · rintro ⟨y, hy, hzero⟩
        obtain ⟨k, hk, rfl⟩ := List.getElem_of_mem hy
        have hneg := hf.neg (Nat.zero_le k) hk (by rw [hsign]; exact hbefore)
        rw [signAt_of_some (List.getElem?_eq_getElem hk)] at hneg
        omega
      · rintro ⟨y, hy, h0⟩
        obtain rfl := Option.some.inj (hhead.symm.trans hy)
        omega
    · have hfirst : 0 ≤ signAt cmp array.elts key 0 := by
        rw [hsign]
        omega
      have hbracket := bracket_all hpos hfirst
      -- Any fuel leads to a candidate, and from there back to the one place of the key.
      have hsearch : ∀ fuel, array.elts.length ≤ fuel → ∃ n : Nat,
          (arrayBsearchLoop cmp array key fuel 0 ((arrayCount array : Int) - 1)).bind (fun a =>
            (arrayBsearchBack cmp array key a.toNat).map fun a : Nat => (a : Int)) = some (n : Int) ∧
          KeyPlace (signAt cmp array.elts key) array.elts.length n := by
        intro fuel hfuel
        obtain ⟨c, hloop, hcandidate⟩ := arrayBsearchLoop_candidate hlen hf fuel hbracket (by omega)
        have hend : (arrayCount array : Int) - 1 = (array.elts.length - 1 : Nat) := by
          unfold arrayCount
          omega
        refine ⟨_, ?_, hcandidate.place hf⟩
        rw [hend, ← Nat.cast_zero, hloop, Option.bind_some, Int.toNat_natCast,
          arrayBsearchBack_eq hcandidate.1.le, Option.map_some]
      obtain ⟨n, -, hplace⟩ := hsearch _ le_rfl
      refine ⟨n, fun fuel hfuel => ?_, bsearchPlace_of_keyPlace hhead (by omega) hplace⟩
      obtain ⟨n', hfound, hplace'⟩ := hsearch fuel hfuel
      rw [if_neg hbefore, hfound, hplace'.unique hplace]

end

/-- Integers by their difference. -/
theorem cmpPreorder_sub : CmpPreorder fun x y : Int => x - y where
  swap x y := by
    show x - y < 0 ↔ 0 < y - x
    omega
  trans x y z h h' := by
    show x - z ≤ 0
    have hxy : x - y ≤ 0 := h
    have hyz : y - z ≤ 0 := h'
    omega

/-- A key that is there twice. -/
theorem arrayBsearch_place_twice :
    ∃ r, (∀ fuel, 4 ≤ fuel →
        arrayBsearch fuel ⟨10, 1, [1, 3, 3, 7], 10⟩ (fun x y : Int => x - y) 3 = some r) ∧
      BsearchPlace (fun x y : Int => x - y) [1, 3, 3, 7] 3 r :=
  @arrayBsearch_place Int (fun x y => x - y) ⟨10, 1, [1, 3, 3, 7], 10⟩ cmpPreorder_sub (by decide)
    (by decide) 3

end Bklib
