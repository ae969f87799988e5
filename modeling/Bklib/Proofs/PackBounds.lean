import Bklib.Model.Pack

/-!
# `Bklib.Proofs.PackBounds`: reads of hostile buffers

`packBuf_read_bounded_iff` says when `pack_buf16` and `pack_buf32` read a buffer within its bounds: the
length that they use is not negative, `pack_buf32` does not copy more than `max`, and the room that is
left does not wrap around. A negative length that was read is always less than the room behind it, so
that `memcpy` gets it for a size.

Both functions take a number of `k` bytes and then copy or skip what it counts. The two cases are
stated for any `k`.
-/

set_option autoImplicit false

namespace Bklib

/-- A call from `s` to `s'` that reads the remaining input only, stores at most `max` bytes, and moves
neither `buf` back nor `len` up. -/
structure ReadBounded (s s' : PackBuf) (max : Int) (touched : PackAccess) : Prop where
  reads  : ∀ r ∈ touched.reads, ∀ i : Int, r.1 ≤ i → i < r.1 + r.2 →
    s.buf ≤ i ∧ i < s.buf + s.len
  writes : ∀ w ∈ touched.writes, ∀ i : Int, w.1 ≤ i → i < w.1 + w.2 → 0 ≤ i ∧ i < max
  buf    : s.buf ≤ s'.buf
  len    : s'.len ≤ s.len

/-- The length that `pack_buf16` uses: the one in the input, or the caller's when it does not fit. -/
def packLen16 (s : PackBuf) (vlen : Int) : Int :=
  if 2 ≤ s.len then toInt16 (htons (get16 s.mem s.buf)) else vlen

/-- The length that `pack_buf32` uses. -/
def packLen32 (s : PackBuf) (vlen : Int) : Int :=
  if 4 ≤ s.len then toInt32 (htonl (get32 s.mem s.buf)).toNat else vlen

/-- The room behind `k` bytes and behind what they count is an `int`. -/
def NoWrap (k len vlen : Int) : Prop := -(2 ^ 31) ≤ len - k ∧ -(2 ^ 31) ≤ len - k - vlen

/-- A negative length that goes unused: it is the caller's, it is more than the room, and it does not
lead back behind the number. -/
def SkippedBack (k len vlen : Int) : Prop := -k ≤ vlen ∧ vlen < 0 ∧ len < k ∧ len - k < vlen

section

variable {x : Int}

theorem toInt16_range (x : Int) : -(2 ^ 15) ≤ toInt16 x ∧ toInt16 x < 2 ^ 15 := by
  rw [toInt16, Int.bmod_eq_emod]
  split <;> omega

/-- A sum that is too small comes out at the other end. -/
theorem toInt32_below (hlo : -(2 ^ 32) ≤ x) (hhi : x < -(2 ^ 31)) : toInt32 x = x + 2 ^ 32 := by
  rw [toInt32, Int.bmod_eq_emod]
  split <;> omega

theorem intToSizeT_nonneg (h : 0 ≤ x) (h' : x < 2 ^ 31) : (intToSizeT x : Int) = x := by
  rw [intToSizeT]
  omega

/-- A negative `int` is a huge size. -/
theorem intToSizeT_neg (h : x < 0) (h' : -(2 ^ 31) ≤ x) : 2 ^ 63 ≤ (intToSizeT x : Int) := by
  rw [intToSizeT]
  omega

end

section Step

variable {s s₁ : PackBuf} {k : Nat} {vlen max : Int}

/-- The read of a number of `k` bytes, if it fits. -/
def numberReads (k : Nat) (s : PackBuf) : List (Int × Nat) := if k ≤ s.len then [(s.buf, k)] else []

/-- A number is read inside the buffer. -/
theorem numberReads_inside {r : Int × Nat} (h : r ∈ numberReads k s) {i : Int} (hlo : r.1 ≤ i)
    (hhi : i < r.1 + r.2) : s.buf ≤ i ∧ i < s.buf + s.len := by
  rw [numberReads] at h
  split at h
  · obtain rfl := List.mem_singleton.mp h
    simp only at hlo hhi
    omega
  · exact absurd h List.not_mem_nil

variable (hbuf : s₁.buf = s.buf + k) (hlen : s₁.len = toInt32 (s.len - k)) (hk : k ≤ 4)
  (hs : -(2 ^ 31) ≤ s.len ∧ s.len < 2 ^ 31) (hmax : 1 ≤ max ∧ max < 2 ^ 31)
  (hvlen : -(2 ^ 31) ≤ vlen ∧ vlen < 2 ^ 31)

include hbuf hlen hk hs hvlen

include hmax in
/-- A field whose bytes are copied. -/
theorem readBounded_copied_iff (hroom : vlen ≤ s₁.len) :
    ReadBounded s (s₁.advance vlen) max
      { packCopyAccess s₁ vlen max with
        reads := numberReads k s ++ (packCopyAccess s₁ vlen max).reads } ↔
      -(2 ^ 31) ≤ s.len - k ∧ 0 ≤ vlen ∧ vlen ≤ max := by
  constructor
  · intro h
    have hwrite : ∀ i : Int, 0 ≤ i → i < 0 + intToSizeT vlen → 0 ≤ i ∧ i < max :=
      h.writes (0, intToSizeT vlen) List.mem_cons_self
    -- byte `max` of `v` is stored when the size is more than `max`
    have hsize : (intToSizeT vlen : Int) ≤ max := by
      by_contra hmore
      have hbyte := hwrite max (by omega) (by omega)
      omega
    have hpos : 0 ≤ vlen := by
      -- a negative length is a huge size
      by_contra hneg
      have hhuge := intToSizeT_neg (Int.not_le.mp hneg) hvlen.1
      omega
    rw [intToSizeT_nonneg hpos hvlen.2] at hsize
    refine ⟨?_, hpos, hsize⟩
    by_contra hwrap
    -- the room has become huge, so `len` goes up
    have hup : (s₁.advance vlen).len = s₁.len - vlen :=
      toInt32_eq_self (by omega) (by have := toInt32_range (s.len - k); omega)
    have hle := h.len
    omega
  · rintro ⟨hnowrap, hpos, hle⟩
    have hlen₁ : s₁.len = s.len - k := hlen.trans (toInt32_eq_self hnowrap (by omega))
    have hsize := intToSizeT_nonneg hpos hvlen.2
    have hadvance : (s₁.advance vlen).len = s₁.len - vlen := toInt32_eq_self (by omega) (by omega)
    constructor
    · intro r hr i hlo hhi
      rcases List.mem_append.mp hr with hr | hr
      · exact numberReads_inside hr hlo hhi
      · obtain rfl := List.mem_singleton.mp hr
        simp only at hlo hhi
        omega
    · intro w hw i hlo hhi
      rcases List.mem_cons.mp hw with rfl | hw
      · simp only at hlo hhi
        omega
      · split at hw
        · obtain rfl := List.mem_singleton.mp hw
          simp only at hlo hhi
          omega
        · exact absurd hw List.not_mem_nil
    · show s.buf ≤ s₁.buf + vlen
      omega
    · omega

/-- A field that is skipped. -/
theorem readBounded_skipped_iff (hskip : vlen < 0 → s₁.len < vlen) :
    ReadBounded s (s₁.advance vlen) max { reads := numberReads k s, writes := [] } ↔
      -k ≤ vlen ∧ NoWrap k s.len vlen := by
  have hrange := toInt32_range (s.len - k)
  constructor
  · intro h
    have hback : s.buf ≤ s₁.buf + vlen := h.buf
    have hle : toInt32 (s₁.len - vlen) ≤ s.len := h.len
    have hnowrap : -(2 ^ 31) ≤ s.len - k := by
      by_contra hwrap
      -- the room has become huge, so a negative length would not be skipped
      have hup := toInt32_below (x := s.len - k) (by omega) (by omega)
      have hpos : 0 ≤ vlen := by
        by_contra hneg
        have hlt := hskip (by omega)
        omega
      rw [toInt32_eq_self (by omega) (by omega)] at hle
      omega
    have hlen₁ : s₁.len = s.len - k := hlen.trans (toInt32_eq_self hnowrap (by omega))
    refine ⟨by omega, hnowrap, ?_⟩
    by_contra hwrap
    -- behind the field, the room has become huge
    rw [toInt32_below (by omega) (by omega)] at hle
    omega
  · rintro ⟨hback, hnowrap, hnowrap'⟩
    have hlen₁ : s₁.len = s.len - k := hlen.trans (toInt32_eq_self hnowrap (by omega))
    have hadvance : (s₁.advance vlen).len = s₁.len - vlen := toInt32_eq_self (by omega) (by omega)
    constructor
    · intro r hr i hlo hhi
      exact numberReads_inside hr hlo hhi
    · exact fun w hw => absurd hw List.not_mem_nil
    · show s.buf ≤ s₁.buf + vlen
      omega
    · omega

end Step

section Fields

variable {s : PackBuf} {v : Int → UInt8} {vlen max : Int}

/-- The copy moves nothing. -/
theorem packCopy_read_state {c : Prop} [Decidable c] :
    (if c then packCopy .read s v vlen max else (s, v)).1 = s := by
  split <;> rfl

theorem packI16_read_eq : packI16 .read s vlen = (s.advance 2, packLen16 s vlen) := rfl

theorem packBuf16_read_state :
    (packBuf16 .read s v vlen max).1 = (s.advance 2).advance (packLen16 s vlen) :=
  congrArg (·.advance (packLen16 s vlen)) packCopy_read_state

/-- What `pack_buf16` reads and writes of the buffer. -/
theorem packBuf16Access_eq (hmax : 1 ≤ max) :
    packBuf16Access s vlen max =
      if packLen16 s vlen ≤ (s.advance 2).len ∧ packLen16 s vlen ≤ max then
        { packCopyAccess (s.advance 2) (packLen16 s vlen) max with
          reads := numberReads 2 s ++
            (packCopyAccess (s.advance 2) (packLen16 s vlen) max).reads }
      else { reads := numberReads 2 s, writes := [] } := by
  have hlast : packMax vlen max = max := if_neg (by omega)
  simp only [packBuf16Access, packI16_read_eq, hlast]
  rfl

theorem packI32_read_eq : packI32 .read s vlen = (s.advance 4, packLen32 s vlen) := rfl

theorem packBuf32_read_state :
    (packBuf32 .read s v vlen max).1 = (s.advance 4).advance (packLen32 s vlen) :=
  congrArg (·.advance (packLen32 s vlen)) packCopy_read_state

/-- What `pack_buf32` does. -/
theorem packBuf32Access_eq (hmax : 1 ≤ max) :
    packBuf32Access s vlen max =
      if packLen32 s vlen ≤ (s.advance 4).len then
        { packCopyAccess (s.advance 4) (packLen32 s vlen) max with
          reads := numberReads 4 s ++
            (packCopyAccess (s.advance 4) (packLen32 s vlen) max).reads }
      else { reads := numberReads 4 s, writes := [] } := by
  have hlast : packMax vlen max = max := if_neg (by omega)
  simp only [packBuf32Access, packI32_read_eq, hlast]
  rfl

variable (hs : -(2 ^ 31) ≤ s.len ∧ s.len < 2 ^ 31) (hmax : 1 ≤ max ∧ max < 2 ^ 31)

include hs hmax

/-- `pack_buf16` reads within bounds. -/
theorem packBuf16_bounded_iff (hvlen : -(2 ^ 15) ≤ vlen ∧ vlen < 2 ^ 15) :
    ReadBounded s (packBuf16 .read s v vlen max).1 max (packBuf16Access s vlen max) ↔
      NoWrap 2 s.len (packLen16 s vlen) ∧
        (0 ≤ packLen16 s vlen ∨ SkippedBack 2 s.len (packLen16 s vlen)) := by
  have hn : -(2 ^ 15) ≤ packLen16 s vlen ∧ packLen16 s vlen < 2 ^ 15 := by
    rw [packLen16]
    split
    · exact toInt16_range _
    · exact hvlen
  -- the room behind the number, whether the subtraction wraps or not
  have hrange := toInt32_range (s.len - 2)
  have hwrap := toInt32_below (x := s.len - 2)
  have hself := toInt32_eq_self (x := s.len - 2)
  have hlen : (s.advance 2).len = toInt32 (s.len - 2) := rfl
  rw [packBuf16_read_state, packBuf16Access_eq hmax.1]
  split
  · next hcopy =>
      rw [readBounded_copied_iff (k := 2) rfl rfl (by omega) hs hmax (by omega) hcopy.1]
      simp only [NoWrap, SkippedBack]
      omega
  · next hcopy =>
      rw [readBounded_skipped_iff (k := 2) rfl rfl (by omega) hs (by omega) (fun hneg => by omega)]
      simp only [NoWrap, SkippedBack]
      omega

/-- `pack_buf32` reads within bounds. -/
theorem packBuf32_bounded_iff (hvlen : -(2 ^ 31) ≤ vlen ∧ vlen < 2 ^ 31) :
    ReadBounded s (packBuf32 .read s v vlen max).1 max (packBuf32Access s vlen max) ↔
      NoWrap 4 s.len (packLen32 s vlen) ∧
        (0 ≤ packLen32 s vlen ∧ (packLen32 s vlen ≤ max ∨ s.len - 4 < packLen32 s vlen) ∨
          SkippedBack 4 s.len (packLen32 s vlen)) := by
  have hn : -(2 ^ 31) ≤ packLen32 s vlen ∧ packLen32 s vlen < 2 ^ 31 := by
    rw [packLen32]
    split
    · exact toInt32_range _
    · exact hvlen
  -- the room behind the number, whether the subtraction wraps or not
  have hrange := toInt32_range (s.len - 4)
  have hwrap := toInt32_below (x := s.len - 4)
  have hself := toInt32_eq_self (x := s.len - 4)
  have hlen : (s.advance 4).len = toInt32 (s.len - 4) := rfl
  rw [packBuf32_read_state, packBuf32Access_eq hmax.1]
  split
  · next hcopy =>
      rw [readBounded_copied_iff (k := 4) rfl rfl (by omega) hs hmax (by omega) hcopy]
      simp only [NoWrap, SkippedBack]
      omega
  · next hcopy =>
      rw [readBounded_skipped_iff (k := 4) rfl rfl (by omega) hs (by omega) (fun hneg => by omega)]
      simp only [NoWrap, SkippedBack]
      omega

/-- Reads are bounded exactly when the room does not wrap around and the length is not negative, and
for `pack_buf32` not more than `max`, or else there is nothing to copy. -/
theorem packBuf_read_bounded_iff {vlen16 vlen32 : Int} (h16 : -(2 ^ 15) ≤ vlen16 ∧ vlen16 < 2 ^ 15)
    (h32 : -(2 ^ 31) ≤ vlen32 ∧ vlen32 < 2 ^ 31) :
    (ReadBounded s (packBuf16 .read s v vlen16 max).1 max (packBuf16Access s vlen16 max) ↔
      NoWrap 2 s.len (packLen16 s vlen16) ∧
        (0 ≤ packLen16 s vlen16 ∨ SkippedBack 2 s.len (packLen16 s vlen16))) ∧
    (ReadBounded s (packBuf32 .read s v vlen32 max).1 max (packBuf32Access s vlen32 max) ↔
      NoWrap 4 s.len (packLen32 s vlen32) ∧
        (0 ≤ packLen32 s vlen32 ∧
            (packLen32 s vlen32 ≤ max ∨ s.len - 4 < packLen32 s vlen32) ∨
          SkippedBack 4 s.len (packLen32 s vlen32))) :=
  ⟨packBuf16_bounded_iff hs hmax h16, packBuf32_bounded_iff hs hmax h32⟩

end Fields

/-- Ten bytes of input that start with a length of two. -/
def packTwo : PackBuf := ⟨fun i => if i = 3 then 2 else 0, 0, 10⟩

/-- Both conditions at a buffer of two bytes. -/
theorem packBuf_read_bounded_two :
    (ReadBounded packTwo (packBuf16 .read packTwo (fun _ => 0) 0 2).1 2 (packBuf16Access packTwo 0 2) ↔
      NoWrap 2 packTwo.len (packLen16 packTwo 0) ∧
        (0 ≤ packLen16 packTwo 0 ∨ SkippedBack 2 packTwo.len (packLen16 packTwo 0))) ∧
    (ReadBounded packTwo (packBuf32 .read packTwo (fun _ => 0) 0 2).1 2 (packBuf32Access packTwo 0 2) ↔
      NoWrap 4 packTwo.len (packLen32 packTwo 0) ∧
        (0 ≤ packLen32 packTwo 0 ∧
            (packLen32 packTwo 0 ≤ 2 ∨ packTwo.len - 4 < packLen32 packTwo 0) ∨
          SkippedBack 4 packTwo.len (packLen32 packTwo 0))) :=
  packBuf_read_bounded_iff (by decide) (by decide) (by decide) (by decide)

/-- Input of `0xff` only has a length of -1, and `packTwo` is too long for one byte. -/
theorem packBuf_read_unbounded :
    (¬ReadBounded ⟨fun _ => 255, 0, 10⟩ (packBuf16 .read ⟨fun _ => 255, 0, 10⟩ (fun _ => 0) 0 4).1 4
      (packBuf16Access ⟨fun _ => 255, 0, 10⟩ 0 4)) ∧
    ¬ReadBounded packTwo (packBuf32 .read packTwo (fun _ => 0) 0 1).1 1
      (packBuf32Access packTwo 0 1) := by
  constructor
  · rw [packBuf16_bounded_iff (by decide) (by decide) (by decide)]
    have hneg : packLen16 ⟨fun _ => 255, 0, 10⟩ 0 = -1 := by decide
    rw [hneg]
    simp [SkippedBack]
  · rw [packBuf32_bounded_iff (by decide) (by decide) (by decide)]
    have htwo : packLen32 packTwo 0 = 2 := by decide
    rw [htwo]
    simp [SkippedBack, packTwo]

end Bklib
