import Bklib.Model.Pack

/-!
# `Bklib.Proofs.Pack`: what `pack.h` wrote it reads back

A list of fields that fits is stored as the concatenation of their encodings, and the reader takes
one encoding after the other off that. A field that does not fit leaves `len` negative, which no
later field makes up for: the end of the room, `buf + len`, never moves.
-/

set_option autoImplicit false

namespace Bklib

open Bklib.Lib

/-! ## Fields -/

/-- The bytes that a field takes. -/
def PackField.size : PackField → Int
  | .i16 _          => 2
  | .i32 _          => 4
  | .buf16 _ vlen _ => 2 + vlen
  | .buf32 _ vlen _ => 4 + vlen

/-- The bytes that a list of fields takes. -/
def packSize (fs : List PackField) : Int := (fs.map PackField.size).sum

/-- A field of the types that `pack.h` declares, with a length that is not negative. -/
def PackField.InRange : PackField → Prop
  | .i16 v          => -(2 ^ 15) ≤ v ∧ v < 2 ^ 15
  | .i32 v          => -(2 ^ 31) ≤ v ∧ v < 2 ^ 31
  | .buf16 _ vlen _ => 0 ≤ vlen ∧ vlen ≤ 32767
  | .buf32 _ vlen _ => 0 ≤ vlen ∧ vlen < 2 ^ 31

/-- The writer copies no buffer that is longer than the `max` it was given: `pack_buf16` asks. -/
def PackField.Allowed : PackField → Prop
  | .buf16 _ vlen max => vlen ≤ packMax vlen max
  | _                 => True

/-- The second field is where the first one can be read to: of the same kind, with enough room. -/
def PackField.Fits : PackField → PackField → Prop
  | .i16 _,          .i16 _            => True
  | .i32 _,          .i32 _            => True
  | .buf16 _ vlen _, .buf16 _ old max  => vlen ≤ packMax old max
  | .buf32 _ vlen _, .buf32 _ old max  => vlen ≤ packMax old max
  | _,               _                 => False

/-- The second field has the value, or the length and the bytes, of the first. -/
def PackField.SameAs : PackField → PackField → Prop
  | .i16 v,          .i16 v'           => v' = v
  | .i32 v,          .i32 v'           => v' = v
  | .buf16 v vlen _, .buf16 v' vlen' _ =>
      vlen' = vlen ∧ readAt v' 0 vlen.toNat = readAt v 0 vlen.toNat
  | .buf32 v vlen _, .buf32 v' vlen' _ =>
      vlen' = vlen ∧ readAt v' 0 vlen.toNat = readAt v 0 vlen.toNat
  | _,               _                 => False

/-- The two bytes of a `short`. -/
def encode16 (v : Int) : List UInt8 := bytes16 (htons (v % 65536).toNat)

/-- The four bytes of an `int`. -/
def encode32 (v : Int) : List UInt8 := bytes32 (htonl (UInt32.ofInt v))

/-- A field as it is stored. -/
def PackField.encode : PackField → List UInt8
  | .i16 v          => encode16 v
  | .i32 v          => encode32 v
  | .buf16 v vlen _ => encode16 vlen ++ readAt v 0 vlen.toNat
  | .buf32 v vlen _ => encode32 vlen ++ readAt v 0 vlen.toNat

/-- A field in range takes its size. -/
theorem PackField.length_encode {f : PackField} (h : f.InRange) :
    (f.encode.length : Int) = f.size := by
  cases f with
  | i16 v => rfl
  | i32 v => rfl
  | buf16 v vlen max =>
      have hlen : 0 ≤ vlen := h.1
      simp only [encode, encode16, List.length_append, length_bytes16, length_readAt, size]
      omega
  | buf32 v vlen max =>
      have hlen : 0 ≤ vlen := h.1
      simp only [encode, encode32, List.length_append, length_bytes32, length_readAt, size]
      omega

theorem PackField.size_nonneg {f : PackField} (h : f.InRange) : 0 ≤ f.size := by
  rw [← length_encode h]
  exact Int.natCast_nonneg _

theorem packSize_cons (f : PackField) (fs : List PackField) :
    packSize (f :: fs) = f.size + packSize fs := by
  simp [packSize]

/-- Fields in range take no negative size. -/
theorem packSize_nonneg {fs : List PackField} (h : ∀ f ∈ fs, f.InRange) : 0 ≤ packSize fs := by
  induction fs with
  | nil => exact Int.le_refl 0
  | cons f fs ih =>
      have hf := PackField.size_nonneg (h f List.mem_cons_self)
      have hfs := ih fun g hg => h g (List.mem_cons_of_mem f hg)
      rw [packSize_cons]
      omega

/-! ## One number -/

theorem advance_eq {s : PackBuf} {n : Int} (hlo : -(2 ^ 31) ≤ s.len - n) (hhi : s.len - n < 2 ^ 31) :
    s.advance n = { s with buf := s.buf + n, len := s.len - n } := by
  rw [PackBuf.advance, toInt32_eq_self hlo hhi]

/-- A short goes through its two bytes. -/
theorem toInt16_encode {v : Int} (hlo : -(2 ^ 15) ≤ v) (hhi : v < 2 ^ 15) :
    toInt16 (htons (htons (v % 65536).toNat)) = v := by
  have hnat : ((v % 65536).toNat : Int) = v % 65536 := Int.toNat_of_nonneg (by omega)
  rw [htons_htons (by omega), hnat, toInt16, show (2 : Nat) ^ 16 = 65536 from rfl]
  rw [show (65536 : Int) = (65536 : Nat) from rfl, Int.emod_bmod]
  exact Int.bmod_eq_of_le (by omega) (by omega)

/-- A long goes through its four bytes. -/
theorem toInt32_encode {v : Int} (hlo : -(2 ^ 31) ≤ v) (hhi : v < 2 ^ 31) :
    toInt32 (htonl (htonl (UInt32.ofInt v))).toNat = v := by
  have hnat : ((UInt32.ofInt v).toNat : Int) = v % (2 ^ 32 : Nat) := by
    have hof : (UInt32.ofInt v).toNat = (v % 2 ^ 32).toNat % 2 ^ 32 := UInt32.toNat_ofNat'
    omega
  rw [htonl_htonl, hnat, toInt32, Int.emod_bmod]
  exact toInt32_eq_self hlo hhi

/-- The room left behind what was stored or read. -/
def PackBuf.behind (s : PackBuf) (mem : Int → UInt8) (n : Int) : PackBuf :=
  ⟨mem, s.buf + n, s.len - n⟩

section Number

variable {s : PackBuf} {v : Int}

theorem packI16_write (hlen : s.len < 2 ^ 31) (hfit : 2 ≤ s.len) :
    packI16 .write s v = (s.behind (writeAt s.mem s.buf (encode16 v)) 2, v) := by
  simp only [packI16, if_pos hfit]
  rw [advance_eq (by simp only; omega) (by simp only; omega)]
  rfl

theorem packI32_write (hlen : s.len < 2 ^ 31) (hfit : 4 ≤ s.len) :
    packI32 .write s v = (s.behind (writeAt s.mem s.buf (encode32 v)) 4, v) := by
  simp only [packI32, if_pos hfit]
  rw [advance_eq (by simp only; omega) (by simp only; omega)]
  rfl

/-- A short that stands in the buffer is read. -/
theorem packI16_read (old : Int) (hlo : -(2 ^ 15) ≤ v) (hhi : v < 2 ^ 15) (hlen : s.len < 2 ^ 31)
    (hfit : 2 ≤ s.len) (hmem : readAt s.mem s.buf 2 = encode16 v) :
    packI16 .read s old = (s.behind s.mem 2, v) := by
  simp only [packI16, if_pos hfit]
  rw [advance_eq (by omega) (by omega), get16_of_readAt s.mem (htons_lt _) hmem,
    toInt16_encode hlo hhi]
  rfl

/-- A long that stands in the buffer is read. -/
theorem packI32_read (old : Int) (hlo : -(2 ^ 31) ≤ v) (hhi : v < 2 ^ 31) (hlen : s.len < 2 ^ 31)
    (hfit : 4 ≤ s.len) (hmem : readAt s.mem s.buf 4 = encode32 v) :
    packI32 .read s old = (s.behind s.mem 4, v) := by
  simp only [packI32, if_pos hfit]
  rw [advance_eq (by omega) (by omega), get32_of_readAt s.mem hmem, toInt32_encode hlo hhi]
  rfl

end Number

/-! ## One field -/

/-- A copy read out is the bytes that stand in the buffer. -/
theorem packCopy_read (s : PackBuf) (v data : Int → UInt8) (max : Int) {vlen : Int}
    (hmem : readAt s.mem s.buf vlen.toNat = readAt data 0 vlen.toNat) :
    ∃ v', packCopy .read s v vlen max = (s, v') ∧
      readAt v' 0 vlen.toNat = readAt data 0 vlen.toNat := by
  refine ⟨_, rfl, ?_⟩
  have hread : readAt (writeAt v 0 (readAt s.mem s.buf vlen.toNat)) 0 vlen.toNat =
      readAt data 0 vlen.toNat := by
    have h := readAt_writeAt v 0 (readAt s.mem s.buf vlen.toNat)
    rw [length_readAt] at h
    rw [h, hmem]
  split
  · -- The NUL stands behind the bytes.
    rw [readAt_congr fun i hi => writeAt_of_lt _ _ (by omega), hread]
  · exact hread

/-- A field that fits is stored as its encoding. -/
theorem PackField.pack_write {s : PackBuf} {f : PackField} (h : f.InRange) (ha : f.Allowed)
    (hfit : f.size ≤ s.len) (hlen : s.len < 2 ^ 31) :
    f.pack .write s = (s.behind (writeAt s.mem s.buf f.encode) f.size, f) := by
  cases f with
  | i16 v =>
      simp only [pack, packI16_write hlen hfit]
      rfl
  | i32 v =>
      simp only [pack, packI32_write hlen hfit]
      rfl
  | buf16 v vlen max =>
      simp only [size] at hfit
      obtain ⟨hlo, hhi⟩ := h
      have hroom : vlen ≤ s.len - 2 ∧ vlen ≤ packMax vlen max := ⟨by omega, ha⟩
      simp only [pack, packBuf16, packI16_write hlen (show 2 ≤ s.len by omega), PackBuf.behind,
        if_pos hroom, packCopy]
      rw [advance_eq (by simp only; omega) (by simp only; omega)]
      simp only [encode, writeAt_append, size, encode16, length_bytes16, Int.add_assoc,
        Int.sub_sub]
      rfl
  | buf32 v vlen max =>
      simp only [size] at hfit
      obtain ⟨hlo, hhi⟩ := h
      have hroom : vlen ≤ s.len - 4 := by omega
      simp only [pack, packBuf32, packI32_write hlen (show 4 ≤ s.len by omega), PackBuf.behind,
        if_pos hroom, packCopy]
      rw [advance_eq (by simp only; omega) (by simp only; omega)]
      simp only [encode, writeAt_append, size, encode32, length_bytes32, Int.add_assoc,
        Int.sub_sub]
      rfl

/-- A field whose encoding stands there is read back. -/
theorem PackField.pack_read {s : PackBuf} {w r : PackField} (h : w.InRange) (hfits : w.Fits r)
    (hfit : w.size ≤ s.len) (hlen : s.len < 2 ^ 31)
    (hmem : readAt s.mem s.buf w.encode.length = w.encode) :
    ∃ r', r.pack .read s = (s.behind s.mem w.size, r') ∧ w.SameAs r' := by
  cases w with
  | i16 v =>
      cases r with
      | i16 old =>
          refine ⟨.i16 v, ?_, rfl⟩
          simp only [pack, packI16_read old h.1 h.2 hlen hfit hmem]
          rfl
      | _ => exact hfits.elim
  | i32 v =>
      cases r with
      | i32 old =>
          refine ⟨.i32 v, ?_, rfl⟩
          simp only [pack, packI32_read old h.1 h.2 hlen hfit hmem]
          rfl
      | _ => exact hfits.elim
  | buf16 v vlen wmax =>
      cases r with
      | buf16 v0 old max =>
          simp only [size] at hfit
          obtain ⟨hlo, hhi⟩ := h
          have hmax : vlen ≤ packMax old max := hfits
          have hsplit := hmem
          simp only [encode, encode16, List.length_append, length_bytes16, length_readAt] at hsplit
          rw [readAt_add] at hsplit
          -- the length comes first, and the bytes behind it
          obtain ⟨hnum, hdata⟩ := List.append_inj hsplit (by simp)
          have hroom : vlen ≤ s.len - 2 ∧ vlen ≤ packMax old max := ⟨by omega, hmax⟩
          obtain ⟨v', hcopy, hread⟩ := packCopy_read (s.behind s.mem 2) v0 v
            (packMax old max) hdata
          refine ⟨.buf16 v' vlen max, ?_, rfl, hread⟩
          have hi16 := packI16_read old (by omega) (by omega) hlen (by omega) hnum
          simp only [pack, packBuf16, hi16, PackBuf.behind, if_pos hroom]
          simp only [PackBuf.behind] at hcopy
          rw [hcopy]
          simp only
          rw [advance_eq (by simp only; omega) (by simp only; omega)]
          simp only [size, Int.add_assoc, Int.sub_sub]
      | _ => exact hfits.elim
  | buf32 v vlen wmax =>
      cases r with
      | buf32 v0 old max =>
          simp only [size] at hfit
          obtain ⟨hlo, hhi⟩ := h
          have hsplit := hmem
          simp only [encode, encode32, List.length_append, length_bytes32, length_readAt] at hsplit
          rw [readAt_add] at hsplit
          obtain ⟨hnum, hdata⟩ := List.append_inj hsplit (by simp)
          have hroom : vlen ≤ s.len - 4 := by omega
          obtain ⟨v', hcopy, hread⟩ := packCopy_read (s.behind s.mem 4) v0 v
            (packMax old max) hdata
          refine ⟨.buf32 v' vlen max, ?_, rfl, hread⟩
          have hi32 := packI32_read old (by omega) hhi hlen (by omega) hnum
          simp only [pack, packBuf32, hi32, PackBuf.behind, if_pos hroom]
          simp only [PackBuf.behind] at hcopy
          rw [hcopy]
          simp only
          rw [advance_eq (by simp only; omega) (by simp only; omega)]
          simp only [size, Int.add_assoc, Int.sub_sub]
      | _ => exact hfits.elim

/-- What is stored within the room leaves the rest of the memory alone. -/
theorem writeAt_inside {s : PackBuf} {xs : List UInt8} {a i : Int} (ha : s.buf ≤ a)
    (hroom : a + xs.length ≤ s.buf + s.len) (hi : i < s.buf ∨ s.buf + s.len ≤ i)
    (mem : Int → UInt8) : writeAt mem a xs i = mem i := by
  cases hi with
  | inl h => exact writeAt_of_lt mem xs (by omega)
  | inr h => exact writeAt_of_ge mem xs (by omega)

/-- A short written within bounds changes nothing outside the buffer. -/
theorem packI16_write_inside {s : PackBuf} (v : Int) (hlo : -(2 ^ 31) ≤ s.len - 2)
    (hlen : s.len < 2 ^ 31) :
    ∃ mem', packI16 .write s v = (s.behind mem' 2, v) ∧
      ∀ i, (i < s.buf ∨ s.buf + s.len ≤ i) → mem' i = s.mem i := by
  by_cases hfit : 2 ≤ s.len
  · exact ⟨_, packI16_write hlen hfit, fun i hi => writeAt_inside (Int.le_refl _)
      (by simp only [encode16, length_bytes16]; omega) hi _⟩
  · refine ⟨s.mem, ?_, fun _ _ => rfl⟩
    simp only [packI16, if_neg hfit]
    rw [advance_eq (by simp only; omega) (by simp only; omega)]
    rfl

/-- The same of a long. -/
theorem packI32_write_inside {s : PackBuf} (v : Int) (hlo : -(2 ^ 31) ≤ s.len - 4)
    (hlen : s.len < 2 ^ 31) :
    ∃ mem', packI32 .write s v = (s.behind mem' 4, v) ∧
      ∀ i, (i < s.buf ∨ s.buf + s.len ≤ i) → mem' i = s.mem i := by
  by_cases hfit : 4 ≤ s.len
  · exact ⟨_, packI32_write hlen hfit, fun i hi => writeAt_inside (Int.le_refl _)
      (by simp only [encode32, length_bytes32]; omega) hi _⟩
  · refine ⟨s.mem, ?_, fun _ _ => rfl⟩
    simp only [packI32, if_neg hfit]
    rw [advance_eq (by simp only; omega) (by simp only; omega)]
    rfl

/-- Whatever room there is, a field that is written moves `buf` by its size and stays inside. -/
theorem PackField.pack_write_inside {s : PackBuf} {f : PackField} (h : f.InRange)
    (hlo : -(2 ^ 31) ≤ s.len - f.size) (hlen : s.len < 2 ^ 31) :
    ∃ mem', f.pack .write s = (s.behind mem' f.size, f) ∧
      ∀ i, (i < s.buf ∨ s.buf + s.len ≤ i) → mem' i = s.mem i := by
  cases f with
  | i16 v =>
      obtain ⟨mem', hnum, hout⟩ := packI16_write_inside v hlo hlen
      refine ⟨mem', ?_, hout⟩
      simp only [pack, hnum]
      rfl
  | i32 v =>
      obtain ⟨mem', hnum, hout⟩ := packI32_write_inside v hlo hlen
      refine ⟨mem', ?_, hout⟩
      simp only [pack, hnum]
      rfl
  | buf16 v vlen max =>
      simp only [size] at hlo
      obtain ⟨hpos, -⟩ := h
      obtain ⟨mem1, hnum, hout1⟩ := packI16_write_inside (s := s) vlen (by omega) hlen
      -- without room for the bytes the length stands alone, and `buf` moves on all the same
      by_cases hroom : vlen ≤ s.len - 2 ∧ vlen ≤ packMax vlen max
      · refine ⟨writeAt mem1 (s.buf + 2) (readAt v 0 vlen.toNat), ?_, fun i hi => ?_⟩
        · simp only [pack, packBuf16, hnum, PackBuf.behind, if_pos hroom, packCopy]
          rw [advance_eq (by simp only; omega) (by simp only; omega)]
          simp only [size, Int.add_assoc, Int.sub_sub]
        · rw [writeAt_inside (by omega) (by rw [length_readAt]; omega) hi, hout1 i hi]
      · refine ⟨mem1, ?_, hout1⟩
        simp only [pack, packBuf16, hnum, PackBuf.behind, if_neg hroom]
        rw [advance_eq (by simp only; omega) (by simp only; omega)]
        simp only [size, Int.add_assoc, Int.sub_sub]
  | buf32 v vlen max =>
      simp only [size] at hlo
      obtain ⟨hpos, -⟩ := h
      obtain ⟨mem1, hnum, hout1⟩ := packI32_write_inside (s := s) vlen (by omega) hlen
      -- the same with four bytes of length, and `max` is not looked at
      by_cases hroom : vlen ≤ s.len - 4
      · refine ⟨writeAt mem1 (s.buf + 4) (readAt v 0 vlen.toNat), ?_, fun i hi => ?_⟩
        · simp only [pack, packBuf32, hnum, PackBuf.behind, if_pos hroom, packCopy]
          rw [advance_eq (by simp only; omega) (by simp only; omega)]
          simp only [size, Int.add_assoc, Int.sub_sub]
        · rw [writeAt_inside (by omega) (by rw [length_readAt]; omega) hi, hout1 i hi]
      · refine ⟨mem1, ?_, hout1⟩
        simp only [pack, packBuf32, hnum, PackBuf.behind, if_neg hroom]
        rw [advance_eq (by simp only; omega) (by simp only; omega)]
        simp only [size, Int.add_assoc, Int.sub_sub]

/-! ## Lists of fields -/

/-- A list that fits is stored as the encodings of its fields, one behind the other. -/
theorem packFields_write {s : PackBuf} {fs : List PackField} (h : ∀ f ∈ fs, f.InRange)
    (ha : ∀ f ∈ fs, f.Allowed) (hfit : packSize fs ≤ s.len) (hlen : s.len < 2 ^ 31) :
    packFields .write s fs =
      (s.behind (writeAt s.mem s.buf (fs.flatMap PackField.encode)) (packSize fs), fs) := by
  induction fs generalizing s with
  | nil =>
      have hnil : writeAt s.mem s.buf [] = s.mem := writeAt_readAt s.mem s.buf 0
      simp [packFields, PackBuf.behind, packSize, hnil]
  | cons f fs ih =>
      have hf := h f List.mem_cons_self
      have hfs : ∀ g ∈ fs, g.InRange := fun g hg => h g (List.mem_cons_of_mem f hg)
      have hsize := PackField.size_nonneg hf
      have hrest := packSize_nonneg hfs
      have henc := PackField.length_encode hf
      rw [packSize_cons] at hfit
      have hstep := PackField.pack_write hf (ha f List.mem_cons_self) (by omega) hlen
      have hrun := ih hfs (fun g hg => ha g (List.mem_cons_of_mem f hg))
        (s := s.behind (writeAt s.mem s.buf f.encode) f.size)
        (by simp only [PackBuf.behind]; omega) (by simp only [PackBuf.behind]; omega)
      simp only [packFields, hstep, hrun]
      simp only [PackBuf.behind, List.flatMap_cons, writeAt_append, henc, packSize_cons,
        Int.add_assoc, Int.sub_sub]

/-- A list whose encodings stand there is read back. -/
theorem packFields_read {s : PackBuf} {ws rs : List PackField} (h : ∀ w ∈ ws, w.InRange)
    (hfits : List.Forall₂ PackField.Fits ws rs) (hfit : packSize ws ≤ s.len)
    (hlen : s.len < 2 ^ 31)
    (hmem : readAt s.mem s.buf (ws.flatMap PackField.encode).length = ws.flatMap PackField.encode) :
    ∃ rs', packFields .read s rs = (s.behind s.mem (packSize ws), rs') ∧
      List.Forall₂ PackField.SameAs ws rs' := by
  induction hfits generalizing s with
  | nil => exact ⟨[], by simp [packFields, PackBuf.behind, packSize], .nil⟩
  | @cons w r ws rs hwr hfits ih =>
      have hw := h w List.mem_cons_self
      have hws : ∀ g ∈ ws, g.InRange := fun g hg => h g (List.mem_cons_of_mem w hg)
      have hsize := PackField.size_nonneg hw
      have hrest := packSize_nonneg hws
      have henc := PackField.length_encode hw
      rw [packSize_cons] at hfit
      rw [List.flatMap_cons, List.length_append, readAt_add] at hmem
      obtain ⟨hhead, htail⟩ := List.append_inj hmem (by simp)
      obtain ⟨r', hstep, hsame⟩ := PackField.pack_read hw hwr (by omega) hlen hhead
      rw [henc] at htail
      obtain ⟨rs', hrun, hsames⟩ := ih hws (s := s.behind s.mem w.size)
        (by simp only [PackBuf.behind]; omega) (by simp only [PackBuf.behind]; omega) htail
      refine ⟨r' :: rs', ?_, .cons hsame hsames⟩
      simp only [packFields, hstep, hrun]
      simp only [PackBuf.behind, packSize_cons, Int.add_assoc, Int.sub_sub]

/-- Whatever room there is, a list that is written moves `buf` by its size and stays inside. -/
theorem packFields_write_inside {s : PackBuf} {fs : List PackField} (h : ∀ f ∈ fs, f.InRange)
    (hlo : -(2 ^ 31) ≤ s.len - packSize fs) (hlen : s.len < 2 ^ 31) :
    ∃ mem', packFields .write s fs = (s.behind mem' (packSize fs), fs) ∧
      ∀ i, (i < s.buf ∨ s.buf + s.len ≤ i) → mem' i = s.mem i := by
  induction fs generalizing s with
  | nil => exact ⟨s.mem, by simp [packFields, PackBuf.behind, packSize], fun _ _ => rfl⟩
  | cons f fs ih =>
      have hf := h f List.mem_cons_self
      have hfs : ∀ g ∈ fs, g.InRange := fun g hg => h g (List.mem_cons_of_mem f hg)
      have hsize := PackField.size_nonneg hf
      have hrest := packSize_nonneg hfs
      rw [packSize_cons] at hlo
      obtain ⟨mem1, hstep, hout1⟩ := PackField.pack_write_inside hf (s := s) (by omega) hlen
      obtain ⟨mem', hrun, hout⟩ := ih hfs (s := s.behind mem1 f.size)
        (by simp only [PackBuf.behind]; omega) (by simp only [PackBuf.behind]; omega)
      refine ⟨mem', ?_, fun i hi => ?_⟩
      · simp only [packFields, hstep, hrun]
        simp only [PackBuf.behind, packSize_cons, Int.add_assoc, Int.sub_sub]
      · -- The end of the room is where it was, and its start has only moved up.
        rw [hout i (by simp only [PackBuf.behind]; omega)]
        exact hout1 i hi

/-- What was written is read back, with as many bytes; what did not fit is reported, and nothing
outside the room was touched in either case. -/
theorem packFields_roundTrip {ws rs : List PackField} (h : ∀ w ∈ ws, w.InRange)
    (hfits : List.Forall₂ PackField.Fits ws rs) (htotal : packSize ws < 2 ^ 31) (mem : Int → UInt8)
    (buf len : Int) (hlen : 0 ≤ len ∧ len < 2 ^ 31) (rlen : Int) (hrlen : rlen < 2 ^ 31) :
    let out := (packFields .write ⟨mem, buf, len⟩ ws).1
    (∀ i, (i < buf ∨ buf + len ≤ i) → out.mem i = mem i) ∧
    (len < packSize ws → out.len < 0) ∧
    ((∀ w ∈ ws, w.Allowed) → packSize ws ≤ len → packSize ws ≤ rlen →
      ∃ rs', packFields .read ⟨out.mem, buf, rlen⟩ rs =
          (⟨out.mem, out.buf, rlen - (out.buf - buf)⟩, rs') ∧
        out.len = len - (out.buf - buf) ∧ List.Forall₂ PackField.SameAs ws rs') := by
  obtain ⟨mem', hrun, hout⟩ := packFields_write_inside (s := ⟨mem, buf, len⟩) h
    (by simp only; omega) hlen.2
  simp only [hrun, PackBuf.behind]
  refine ⟨hout, fun hsmall => by omega, fun ha hfit hrfit => ?_⟩
  have hwrite := packFields_write (s := ⟨mem, buf, len⟩) h ha hfit hlen.2
  rw [hwrite] at hrun
  have hmem : mem' = writeAt mem buf (ws.flatMap PackField.encode) :=
    (congrArg (fun out => out.1.mem) hrun).symm
  have hstored : readAt mem' buf (ws.flatMap PackField.encode).length =
      ws.flatMap PackField.encode := by
    rw [hmem]
    exact readAt_writeAt mem buf _
  obtain ⟨rs', hread, hsame⟩ := packFields_read (s := ⟨mem', buf, rlen⟩) h hfits hrfit hrlen hstored
  refine ⟨rs', ?_, by omega, hsame⟩
  rw [hread, show buf + packSize ws - buf = packSize ws by omega]
  rfl

/-- Two bytes, 7 and 8. -/
def packSample : Int → UInt8 := fun i => if i = 0 then 7 else if i = 1 then 8 else 0

/-- A number, a buffer and a number, written and read back. -/
theorem packFields_roundTrip_sample :
    let ws := [.i16 (-2), .buf16 packSample 2 0, .i32 70000]
    let rs := [.i16 0, .buf16 (fun _ => 0) 0 8, .i32 0]
    let out := (packFields .write ⟨fun _ => 0, 0, 10⟩ ws).1
    ∃ rs', packFields .read ⟨out.mem, 0, 10⟩ rs = (⟨out.mem, out.buf, 10 - (out.buf - 0)⟩, rs') ∧
      out.len = 10 - (out.buf - 0) ∧ List.Forall₂ PackField.SameAs ws rs' := by
  have h : ∀ w ∈ [PackField.i16 (-2), .buf16 packSample 2 0, .i32 70000], w.InRange := by
    simp [PackField.InRange]
  have ha : ∀ w ∈ [PackField.i16 (-2), .buf16 packSample 2 0, .i32 70000], w.Allowed := by
    simp [PackField.Allowed, packMax]
  have hfits : List.Forall₂ PackField.Fits [.i16 (-2), .buf16 packSample 2 0, .i32 70000]
      [.i16 0, .buf16 (fun _ => 0) 0 8, .i32 0] := by
    simp [PackField.Fits, packMax]
  exact (packFields_roundTrip h hfits (by decide) (fun _ => 0) 0 10 (by decide) 10 (by decide)).2.2 ha
    (by decide) (by decide)

/-- A writer that allows one byte less than the length leaves the bytes out, and the reader finds
what was in the memory. -/
theorem packFields_short_max :
    let ws := [PackField.buf16 packSample 2 1]
    let out := (packFields .write ⟨fun _ => 0, 0, 10⟩ ws).1
    let rs := (packFields .read ⟨out.mem, 0, 10⟩ [PackField.buf16 (fun _ => 0) 0 8]).2
    (∀ w ∈ ws, w.InRange) ∧ packSize ws ≤ 10 ∧
      List.Forall₂ PackField.Fits ws [PackField.buf16 (fun _ => 0) 0 8] ∧
      ¬List.Forall₂ PackField.SameAs ws rs := by
  refine ⟨by simp [PackField.InRange], by decide, by simp [PackField.Fits, packMax], fun h => ?_⟩
  have hsame := (List.forall₂_cons.mp h).1
  have hbytes := hsame.2
  revert hbytes
  decide

end Bklib
