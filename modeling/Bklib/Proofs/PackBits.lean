import Bklib.Model.Pack

/-!
# `Bklib.Proofs.PackBits`: bit fields that are not read back

`pack_bits32` takes the length of the range to be `from - to + 1`, and its shift does not depend on
where the range is. So there are three cases: a range of one bit always means the top bit of the word,
a range of two bits is of length 0, and any longer one is refused. `packBits32_readBack_iff` says for
which words and values the field is read back in spite of that.
-/

set_option autoImplicit false

namespace Bklib

/-- A value written to the bits `lo` to `hi` of a word, counted from the most significant one: the
other bits stay, the same range reads as the low bits of the value, whatever `*bits` was before, and a
disjoint range reads as it did. -/
structure BitsReadBack (lo hi : Nat) (word value : BitVec 32) : Prop where
  keeps  : ∀ i : Nat, i < 32 → i < lo ∨ hi < i →
    (packBits32 .write word lo hi value).2.1.getMsbD i = word.getMsbD i
  reads  : ∀ bits, (packBits32 .read (packBits32 .write word lo hi value).2.1 lo hi bits).2.2.toNat
    = value.toNat % 2 ^ (hi - lo + 1)
  others : ∀ a b : Nat, a ≤ b → b ≤ 31 → b < lo ∨ hi < a → ∀ bits,
    (packBits32 .read (packBits32 .write word lo hi value).2.1 a b bits).2.2
      = (packBits32 .read word a b bits).2.2

section

variable {lo hi : Nat} {word value : BitVec 32}

/-! ## The three cases -/

theorem packBits32_one_write (word value : BitVec 32) (lo : Nat) :
    (packBits32 .write word lo lo value).2.1 = word &&& ~~~(BitVec.twoPow 32 31) ||| (value &&& 1) <<< 31 := by
  have hlen : (lo : Int) - lo + 1 = 1 := by omega
  simp only [packBits32, hlen]
  rfl

/-- A range of one bit reads as minus the top bit. -/
theorem packBits32_one_read (word bits : BitVec 32) (lo : Nat) :
    (packBits32 .read word lo lo bits).2.2 = (word &&& BitVec.twoPow 32 31).sshiftRight 31 := by
  have hlen : (lo : Int) - lo + 1 = 1 := by omega
  simp only [packBits32, hlen]
  rfl

/-- Two bits written leave the word: they are counted as none. -/
theorem packBits32_two_write (word value : BitVec 32) (lo : Nat) :
    (packBits32 .write word lo (lo + 1 : Nat) value).2.1 = word := by
  have hlen : (lo : Int) - (lo + 1 : Nat) + 1 = 0 := by omega
  simp only [packBits32, hlen]
  -- the mask is empty
  show word &&& BitVec.allOnes 32 ||| (value &&& 0#32) <<< 0 = word
  rw [BitVec.and_allOnes, BitVec.and_zero]
  exact BitVec.or_zero

/-- Two bits read give zero: they are counted as none. -/
theorem packBits32_two_read (word bits : BitVec 32) (lo : Nat) :
    (packBits32 .read word lo (lo + 1 : Nat) bits).2.2 = 0 := by
  have hlen : (lo : Int) - (lo + 1 : Nat) + 1 = 0 := by omega
  simp only [packBits32, hlen]
  -- no bit of the word is left
  show (word &&& 0#32).sshiftRight 0 = 0
  simp

theorem packBits32_more (d : PackDir) (word bits : BitVec 32) (h : lo + 2 ≤ hi) :
    packBits32 d word lo hi bits = (-1, word, bits) := by
  have hlen : (lo : Int) - hi + 1 < 0 := by omega
  exact if_pos (Or.inr (Or.inl hlen))

/-! ## The top bit -/

/-- The top bit is read with its sign. -/
theorem topBit_read (word : BitVec 32) :
    (word &&& BitVec.twoPow 32 31).sshiftRight 31 = if word.msb then -1 else 0 := by
  rw [BitVec.and_twoPow, BitVec.msb_eq_getLsbD_last]
  split
  · decide
  · decide

/-- The write changes nothing but the top bit, which becomes the lowest bit of the value. -/
theorem topBit_write (word value : BitVec 32) {i : Nat} (hi : i < 32) :
    (word &&& ~~~(BitVec.twoPow 32 31) ||| (value &&& 1) <<< 31).getLsbD i =
      if i = 31 then value.getLsbD 0 else word.getLsbD i := by
  by_cases h : i = 31
  · subst h
    simp
  · have hlow : i < 31 := by omega
    simp [h, hlow, hi]

theorem topBit_write_msb (word value : BitVec 32) :
    (word &&& ~~~(BitVec.twoPow 32 31) ||| (value &&& 1) <<< 31).msb = value.getLsbD 0 := by
  rw [BitVec.msb_eq_getLsbD_last]
  exact topBit_write word value (by decide)

/-- An even value leaves a word alone whose top bit is clear. -/
theorem topBit_write_even (hvalue : value.getLsbD 0 = false) (hword : word.msb = false) :
    word &&& ~~~(BitVec.twoPow 32 31) ||| (value &&& 1) <<< 31 = word := by
  rw [BitVec.msb_eq_getLsbD_last] at hword
  refine BitVec.eq_of_getLsbD_eq fun i hi => ?_
  rw [topBit_write word value hi]
  split
  · next h =>
      subst h
      rw [hvalue]
      exact hword.symm
  · rfl

theorem getLsbD_zero_eq_false_iff : value.getLsbD 0 = false ↔ value.toNat % 2 = 0 := by
  rw [BitVec.getLsbD, Nat.testBit_zero, decide_eq_false_iff_not]
  omega

/-! ## Fields that are read back -/

/-- A field of one bit. -/
theorem bitsReadBack_one_iff (lo : Nat) :
    BitsReadBack lo lo word value ↔ value.toNat % 2 = 0 ∧ word.msb = false := by
  constructor
  · intro h
    have heven : value.getLsbD 0 = false := by
      by_contra hodd
      rw [Bool.not_eq_false] at hodd
      have hread := h.reads 0
      -- the bit comes back as -1
      rw [packBits32_one_write, packBits32_one_read, topBit_read, topBit_write_msb, hodd, if_pos rfl,
        Nat.sub_self] at hread
      have hlt := Nat.mod_lt value.toNat (show 0 < 2 ^ (0 + 1) by decide)
      rw [← hread] at hlt
      exact absurd hlt (by decide)
    refine ⟨getLsbD_zero_eq_false_iff.mp heven, ?_⟩
    by_contra htop
    rw [Bool.not_eq_false] at htop
    -- any other field of one bit is the top bit too
    obtain ⟨c, hc, hdisjoint⟩ : ∃ c : Nat, c ≤ 31 ∧ (c < lo ∨ lo < c) := by
      by_cases hlo : lo = 0
      · exact ⟨1, by decide, Or.inr (by omega)⟩
      · exact ⟨0, by decide, Or.inl (by omega)⟩
    have hother := h.others c c (Nat.le_refl c) hc hdisjoint 0
    rw [packBits32_one_write, packBits32_one_read, packBits32_one_read, topBit_read, topBit_read,
      topBit_write_msb, heven, htop] at hother
    exact absurd hother (by decide)
  · rintro ⟨hvalue, hword⟩
    -- the write leaves the word alone, and every read of one bit gives 0
    have hsame : (packBits32 .write word lo lo value).2.1 = word := by
      rw [packBits32_one_write]
      exact topBit_write_even (getLsbD_zero_eq_false_iff.mpr hvalue) hword
    constructor
    · intro i _ _
      rw [hsame]
    · intro bits
      rw [hsame, packBits32_one_read, topBit_read, hword, Nat.sub_self]
      exact hvalue.symm
    · intro a b _ _ _ bits
      rw [hsame]

/-- A field of two bits. -/
theorem bitsReadBack_two_iff (lo : Nat) :
    BitsReadBack lo (lo + 1) word value ↔ value.toNat % 4 = 0 := by
  have hwidth : 2 ^ (lo + 1 - lo + 1) = 4 := by
    rw [Nat.add_sub_cancel_left]
    rfl
  constructor
  · intro h
    -- 0 is all that is ever read
    have hread := h.reads 0
    rw [packBits32_two_read, hwidth] at hread
    exact hread.symm
  · intro hvalue
    have hsame := packBits32_two_write word value lo
    constructor
    · intro i _ _
      rw [hsame]
    · intro bits
      rw [packBits32_two_read, hwidth]
      exact hvalue.symm
    · intro a b _ _ _ bits
      rw [hsame]

/-- A longer field is not read at all. -/
theorem not_bitsReadBack_more (h : lo + 2 ≤ hi) : ¬BitsReadBack lo hi word value := by
  intro hback
  have h0 := hback.reads 0
  have h1 := hback.reads 1
  rw [packBits32_more .read _ _ h] at h0 h1
  -- the read leaves `*bits` as it was, whatever that is
  have hsame : (0 : BitVec 32).toNat = (1 : BitVec 32).toNat := h0.trans h1.symm
  exact absurd hsame (by decide)

end

/-- A bit field is read back exactly when it has one bit, the value is even and the top bit of the word
is clear, or it has two bits and the value is a multiple of four. -/
theorem packBits32_readBack_iff {lo hi : Nat} (hle : lo ≤ hi) (word value : BitVec 32) :
    BitsReadBack lo hi word value ↔
      lo = hi ∧ value.toNat % 2 = 0 ∧ word.msb = false ∨ hi = lo + 1 ∧ value.toNat % 4 = 0 := by
  rcases Nat.eq_or_lt_of_le hle with rfl | hlt
  · rw [bitsReadBack_one_iff]
    simp
  · rcases Nat.eq_or_lt_of_le (Nat.succ_le_of_lt hlt) with rfl | hmore
    · rw [bitsReadBack_two_iff]
      simp
    · refine iff_of_false (not_bitsReadBack_more (by omega)) ?_
      omega

theorem packBits32_readBack_version :
    BitsReadBack 0 3 0x45000000 4 ↔
      0 = 3 ∧ (4 : BitVec 32).toNat % 2 = 0 ∧ (0x45000000 : BitVec 32).msb = false ∨
        3 = 0 + 1 ∧ (4 : BitVec 32).toNat % 4 = 0 :=
  packBits32_readBack_iff (by decide) 0x45000000 4

/-- The version of an IP header, as in the comment of the source. -/
theorem packBits32_version_lost : ¬BitsReadBack 0 3 0 4 := not_bitsReadBack_more (by decide)

end Bklib
