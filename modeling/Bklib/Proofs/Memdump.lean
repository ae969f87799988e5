import Mathlib.Data.Nat.Digits.Defs
import Bklib.Model.Memutil
import Bklib.Proofs.Snprintf

/-!
# `Bklib.Proofs.Memdump`: how long a dump is

`memdumpTexts` lists the texts of a dump (`memdump_eq`). Each row has 44 characters besides those of
its bytes and of its offset, however many bytes it has: a missing byte is made up by blanks.
`textsLen_memdumpTexts` adds this up, and the dump is inside of its buffer exactly when there is room
for all of it but the newline at its end (`memdump_inside_iff`).
-/

set_option autoImplicit false

namespace Bklib

/-! ### Conversions are short -/

theorem length_bytes (s : String) : (bytes s).length = s.length := by
  rw [bytes, List.length_map, String.length_toList]

/-- An int takes at most eleven characters. -/
theorem length_fmtD_le (x : Int) : (fmtD x).length ≤ 11 := by
  have hrepr : ∀ n : Nat, n ≤ 2 ^ 31 → (Nat.repr n).length ≤ 10 := fun n hn =>
    Nat.repr_length n 10 (by decide) (by omega)
  rw [fmtD, length_bytes]
  obtain ⟨hlo, hhi⟩ := toInt32_range x
  generalize toInt32 x = y at hlo hhi
  cases y with
  | ofNat n =>
      have hlt : (n : Int) < 2 ^ 31 := hhi
      have hn := hrepr n (by omega)
      show (Nat.repr n).length ≤ 11
      omega
  | negSucc n =>
      -- ten digits and the sign
      have hn := hrepr (n + 1) (by omega)
      show ("-" ++ Nat.repr (n + 1)).length ≤ 11
      rw [String.length_append]
      show 1 + _ ≤ 11
      omega

theorem length_fmt4d_le (x : Int) : (fmt4d x).length ≤ 11 := by
  have h := length_fmtD_le x
  rw [fmt4d, List.length_append, List.length_replicate]
  omega

/-! ### The texts of a dump -/

/-- The bytes in the row that ends behind `x` bytes. -/
def memdumpCols (x : Nat) : Nat := if x % 16 = 0 then 16 else x % 16

/-- The columns without a byte, when `r` have one. -/
def memdumpPad (r : Nat) : List (List UInt8) :=
  (List.range' r (16 - r)).flatMap fun j =>
    (if j % 2 = 0 then [bytes " "] else []) ++ [bytes "  "]

/-- The texts of `memdump_row`. -/
def memdumpRowTexts (src : List UInt8) (x : Nat) : List (List UInt8) :=
  memdumpPad (memdumpCols x) ++ [bytes "  "] ++
    ((src.drop (x - memdumpCols x)).take (memdumpCols x)).map fun q =>
      [if isprint q ∧ ¬isspace q then q else 46]

/-- The texts of the loop of `memdump`. -/
def memdumpLoopTexts (src : List UInt8) : Nat → List UInt8 → List (List UInt8)
  | _, []     => []
  | x, c :: p =>
      (if 0 < x ∧ x % 16 = 0 then memdumpRowTexts src x ++ [10 :: fmt4d x ++ bytes ":"] else []) ++
        (if x % 2 = 0 then [bytes " "] else []) ++ [fmt02x c] ++ memdumpLoopTexts src (x + 1) p

/-- The texts of a dump but for the newline at its end. -/
def memdumpTexts (src : List UInt8) : List (List UInt8) :=
  [fmt4d 0 ++ bytes ":"] ++ memdumpLoopTexts src 0 src ++ memdumpRowTexts src src.length

/-- A row is a list of texts added one after the other. -/
theorem memdumpRow_eq (b : SnBuf) (src : List UInt8) (x : Nat) :
    memdumpRow b src x = b.adds (memdumpRowTexts src x) := by
  -- a column without a byte is blank, with another blank in front of each second one
  have hpad : ∀ (js : List Nat) (b : SnBuf),
      js.foldl (fun b j =>
        let b := if j % 2 = 0 then b.add (bytes " ") else b
        b.add (bytes "  ")) b =
      b.adds (js.flatMap fun j => (if j % 2 = 0 then [bytes " "] else []) ++ [bytes "  "]) := by
    intro js
    induction js with
    | nil => intro b; rfl
    | cons j js ih =>
        intro b
        rw [List.foldl_cons, ih, List.flatMap_cons, SnBuf.adds_append]
        by_cases hj : j % 2 = 0
        · simp only [if_pos hj]
          rfl
        · simp only [if_neg hj]
          rfl
  have hchars : ∀ (qs : List UInt8) (b : SnBuf),
      qs.foldl (fun b q => b.add [if isprint q ∧ ¬isspace q then q else 46]) b =
      b.adds (qs.map fun q => [if isprint q ∧ ¬isspace q then q else 46]) := by
    intro qs b
    rw [SnBuf.adds, List.foldl_map]
  rw [memdumpRow, memdumpRowTexts, SnBuf.adds_append, SnBuf.adds_append]
  dsimp only
  rw [hpad, hchars]
  rfl

/-- So is the loop over the rows. -/
theorem memdumpLoop_eq (src p : List UInt8) (x : Nat) (b : SnBuf) :
    memdumpLoop src x p b = b.adds (memdumpLoopTexts src x p) := by
  induction p generalizing x b with
  | nil => rfl
  | cons c p ih =>
      rw [memdumpLoop, memdumpLoopTexts, ih, SnBuf.adds_append, SnBuf.adds_append,
        SnBuf.adds_append]
      -- a row ends in front of each sixteenth byte, and a blank stands in front of each second one
      by_cases hrow : 0 < x ∧ x % 16 = 0
      · by_cases heven : x % 2 = 0
        · simp only [if_pos hrow, if_pos heven, memdumpRow_eq, SnBuf.adds_append]
          rfl
        · simp only [if_pos hrow, if_neg heven, memdumpRow_eq, SnBuf.adds_append]
          rfl
      · by_cases heven : x % 2 = 0
        · simp only [if_neg hrow, if_pos heven]
          rfl
        · simp only [if_neg hrow, if_neg heven]
          rfl

/-- A dump is its texts, one added behind the other, and a line end. -/
theorem memdump_eq (b : SnBuf) {src : List UInt8} (hsrc : src ≠ []) :
    memdump b src = b.adds (memdumpTexts src ++ [bytes "\n"]) := by
  rw [memdump, if_neg hsrc, memdumpTexts, SnBuf.adds_append, SnBuf.adds_append, SnBuf.adds_append]
  dsimp only
  rw [memdumpLoop_eq, memdumpRow_eq]
  rfl

/-! ### Their length -/

/-- The length of `rows` full rows without the characters of their bytes. -/
def memdumpRowsLen (rows : Nat) : Nat :=
  ((List.range rows).map fun k : Nat => 44 + (fmt4d (16 * k : Nat)).length).sum

/-- The length of the dump of `n` bytes. -/
def memdumpLen (n : Nat) : Nat := n + memdumpRowsLen ((n + 15) / 16)

theorem memdumpRowsLen_succ (rows : Nat) :
    memdumpRowsLen (rows + 1) = memdumpRowsLen rows + (44 + (fmt4d (16 * rows : Nat)).length) := by
  rw [memdumpRowsLen, List.range_succ, List.map_append, List.sum_append, List.map_singleton,
    List.sum_singleton]
  rfl

/-- A missing byte takes as much room as a byte. -/
theorem textsLen_memdumpPad :
    ∀ r ≤ 16, 0 < r → textsLen (memdumpPad r) + 2 * r + (r + 1) / 2 = 40 := by
  decide +kernel

theorem memdumpCols_pos (x : Nat) : 0 < memdumpCols x ∧ memdumpCols x ≤ 16 := by
  unfold memdumpCols
  split <;> omega

theorem memdumpCols_eq {x : Nat} (hx : 0 < x) : memdumpCols x + 16 * ((x - 1) / 16) = x := by
  unfold memdumpCols
  split <;> omega

/-- Characters in a row are as long as they are many. -/
theorem textsLen_singletons {α : Type} (f : α → UInt8) (xs : List α) :
    textsLen (xs.map fun x => [f x]) = xs.length := by
  induction xs with
  | nil => rfl
  | cons x xs ih =>
      rw [List.map_cons, textsLen_cons, ih, List.length_singleton, List.length_cons, Nat.add_comm]

/-- A row makes up for what the bytes in front of it have not taken. -/
theorem textsLen_memdumpRow {src : List UInt8} {x : Nat} (hx : 0 < x) (hle : x ≤ src.length) :
    textsLen (memdumpRowTexts src x) + memdumpCols x + (memdumpCols x + 1) / 2 = 42 := by
  obtain ⟨hpos, hle16⟩ := memdumpCols_pos x
  have hpad := textsLen_memdumpPad (memdumpCols x) hle16 hpos
  have hcols := memdumpCols_eq hx
  have hchars : ((src.drop (x - memdumpCols x)).take (memdumpCols x)).length = memdumpCols x := by
    rw [List.length_take, List.length_drop]
    omega
  rw [memdumpRowTexts, textsLen_append, textsLen_append, textsLen_singletons, hchars,
    textsLen_cons, textsLen_nil, show (bytes "  ").length = 2 from rfl]
  omega

/-- The length of the texts behind `x` bytes: the full rows, the offset of the row of the last byte,
and its bytes with the blanks in front of each second one. -/
def memdumpBehind (x : Nat) : Nat :=
  memdumpRowsLen ((x - 1) / 16) + 16 * ((x - 1) / 16) +
    (fmt4d (16 * ((x - 1) / 16) : Nat)).length + 1 +
    2 * (x - 16 * ((x - 1) / 16)) + (x - 16 * ((x - 1) / 16) + 1) / 2

/-- One more byte, in front of which a row may end. -/
theorem memdumpBehind_succ (x : Nat) :
    memdumpBehind (x + 1) = memdumpBehind x +
      (if 0 < x ∧ x % 16 = 0 then 20 + (fmt4d x).length else 0) + (if x % 2 = 0 then 1 else 0) + 2 := by
  unfold memdumpBehind
  by_cases hrow : 0 < x ∧ x % 16 = 0
  · -- the first byte of a new row
    have hk : (x + 1 - 1) / 16 = (x - 1) / 16 + 1 := by omega
    have hx : 16 * ((x - 1) / 16 + 1) = x := by omega
    rw [hk, memdumpRowsLen_succ, hx, if_pos hrow, if_pos (by omega)]
    omega
  · have hk : (x + 1 - 1) / 16 = (x - 1) / 16 := by omega
    rw [hk, if_neg hrow]
    split <;> omega

/-- The texts of the rows and what stays behind them make up the length. -/
theorem textsLen_memdumpLoop {src : List UInt8} (p : List UInt8) {x : Nat}
    (hx : x + p.length = src.length) :
    textsLen (memdumpLoopTexts src x p) + memdumpBehind x = memdumpBehind src.length := by
  induction p generalizing x with
  | nil =>
      rw [← hx]
      exact Nat.zero_add _
  | cons c p ih =>
      rw [List.length_cons] at hx
      have hrest := ih (show x + 1 + p.length = src.length by omega)
      rw [memdumpBehind_succ] at hrest
      -- the row that ends here has all sixteen columns
      have hrow : textsLen (if 0 < x ∧ x % 16 = 0 then
          memdumpRowTexts src x ++ [10 :: fmt4d x ++ bytes ":"] else []) =
          if 0 < x ∧ x % 16 = 0 then 20 + (fmt4d x).length else 0 := by
        by_cases h : 0 < x ∧ x % 16 = 0
        · have hlen := textsLen_memdumpRow h.1 (show x ≤ src.length by omega)
          have hcols : memdumpCols x = 16 := if_pos h.2
          rw [hcols] at hlen
          rw [if_pos h, if_pos h, textsLen_append, textsLen_cons, textsLen_nil, List.length_append,
            List.length_cons, show (bytes ":").length = 1 from rfl]
          omega
        · rw [if_neg h, if_neg h, textsLen_nil]
      have heven : textsLen (if x % 2 = 0 then [bytes " "] else []) =
          if x % 2 = 0 then 1 else 0 := by
        split <;> rfl
      rw [memdumpLoopTexts, textsLen_append, textsLen_append, textsLen_append, hrow, heven,
        textsLen_cons, textsLen_nil, show (fmt02x c).length = 2 from rfl]
      omega

/-- The dump has its newline behind the texts. -/
theorem textsLen_memdumpTexts {src : List UInt8} (hsrc : src ≠ []) :
    textsLen (memdumpTexts src) + 1 = memdumpLen src.length := by
  have hpos := List.length_pos_iff.mpr hsrc
  have hloop := textsLen_memdumpLoop src (Nat.zero_add src.length)
  have hrow := textsLen_memdumpRow hpos (Nat.le_refl src.length)
  have hcols := memdumpCols_eq hpos
  have hfirst : memdumpBehind 0 = (fmt4d 0).length + 1 := by
    show memdumpRowsLen 0 + 0 + (fmt4d 0).length + 1 + 0 + 0 = _
    rw [show memdumpRowsLen 0 = 0 from rfl]
    omega
  -- the last row has its offset and its bytes so far, and `textsLen_memdumpRow` makes up for the rest
  have hlast : memdumpBehind src.length = memdumpRowsLen ((src.length - 1) / 16) +
      16 * ((src.length - 1) / 16) + (fmt4d (16 * ((src.length - 1) / 16) : Nat)).length + 1 +
      2 * memdumpCols src.length + (memdumpCols src.length + 1) / 2 := by
    have hx : src.length - 16 * ((src.length - 1) / 16) = memdumpCols src.length := by omega
    rw [memdumpBehind, hx]
  rw [memdumpLen, show (src.length + 15) / 16 = (src.length - 1) / 16 + 1 by omega,
    memdumpRowsLen_succ, memdumpTexts, textsLen_append, textsLen_append, textsLen_cons,
    textsLen_nil, List.length_append, show (bytes ":").length = 1 from rfl]
  omega

/-- Every text of a dump is short. -/
theorem length_le_of_mem_memdumpRow {src t : List UInt8} {x : Nat} (h : t ∈ memdumpRowTexts src x) :
    t.length ≤ 2 := by
  rw [memdumpRowTexts, List.mem_append, List.mem_append] at h
  rcases h with (hpad | hgap) | hchar
  · obtain ⟨j, -, hj⟩ := List.mem_flatMap.mp hpad
    rw [List.mem_append] at hj
    rcases hj with hblank | hblanks
    · split at hblank
      · rw [List.mem_singleton.mp hblank]
        decide
      · exact absurd hblank List.not_mem_nil
    · rw [List.mem_singleton.mp hblanks]
      decide
  · rw [List.mem_singleton.mp hgap]
    decide
  · obtain ⟨q, -, rfl⟩ := List.mem_map.mp hchar
    exact Nat.le_succ 1

/-- No text of the rows is longer than thirteen characters. -/
theorem length_le_of_mem_memdumpLoop {src t : List UInt8} (p : List UInt8) {x : Nat}
    (h : t ∈ memdumpLoopTexts src x p) : t.length ≤ 13 := by
  induction p generalizing x with
  | nil => exact absurd h List.not_mem_nil
  | cons c p ih =>
      rw [memdumpLoopTexts, List.mem_append, List.mem_append, List.mem_append] at h
      rcases h with ((hrow | hblank) | hbyte) | hrest
      · split at hrow
        · rcases List.mem_append.mp hrow with hrow | hoffset
          · have hle := length_le_of_mem_memdumpRow hrow
            omega
          · have hle := length_fmt4d_le x
            rw [List.mem_singleton.mp hoffset, List.length_append, List.length_cons,
              show (bytes ":").length = 1 from rfl]
            omega
        · exact absurd hrow List.not_mem_nil
      · split at hblank
        · rw [List.mem_singleton.mp hblank]
          decide
        · exact absurd hblank List.not_mem_nil
      · rw [List.mem_singleton.mp hbyte]
        exact (by decide : 2 ≤ 13)
      · exact ih hrest

/-- No text of the dump is longer than thirteen characters. -/
theorem length_le_of_mem_memdumpTexts {src t : List UInt8} (h : t ∈ memdumpTexts src) :
    t.length ≤ 13 := by
  rw [memdumpTexts, List.mem_append, List.mem_append] at h
  rcases h with (hoffset | hloop) | hrow
  · have hle := length_fmt4d_le 0
    rw [List.mem_singleton.mp hoffset, List.length_append, show (bytes ":").length = 1 from rfl]
    omega
  · exact length_le_of_mem_memdumpLoop src hloop
  · have hle := length_le_of_mem_memdumpRow hrow
    omega

/-- `memdump` stays inside of its buffer exactly when there is room for the dump without the newline
at its end, or when there is nothing to dump. -/
theorem memdump_inside_iff (mem : Int → UInt8) (buf : Int) {len : Int} (hlen : 0 ≤ len)
    (hint : len < 2 ^ 31) (src : List UInt8) :
    (memdump (.init mem buf len) src).Inside buf len ↔
      src = [] ∨ (memdumpLen src.length : Int) ≤ len + 1 := by
  have hempty : (SnBuf.init mem buf len).Inside buf len := fun r hr => absurd hr List.not_mem_nil
  by_cases hsrc : src = []
  · rw [hsrc]
    exact iff_of_true hempty (Or.inl rfl)
  · have htotal := textsLen_memdumpTexts hsrc
    -- no text is so long that `len` would wrap around
    have hshort : ∀ t ∈ memdumpTexts src ++ [bytes "\n"], t.length < 2 ^ 63 := by
      intro t ht
      rcases List.mem_append.mp ht with ht | ht
      · have hle := length_le_of_mem_memdumpTexts ht
        omega
      · rw [List.mem_singleton.mp ht]
        decide
    rw [memdump_eq _ hsrc, SnBuf.adds_inside_iff hempty (le_refl buf) hlen rfl
      (show len < 2 ^ 63 by omega) hshort, List.dropLast_concat, or_iff_right hsrc]
    show (textsLen (memdumpTexts src) : Int) ≤ len ↔ _
    omega

end Bklib
