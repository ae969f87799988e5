import Bklib.Lib.DomainName

/-!
# `Bklib.Lib.NameChain`: names and the pointers they are read through

A reader may not follow every pointer, and not any number of them. `NameChain m reach j o ls e` says
that the name at offset `o` has the labels `ls` and ends at `e`, and that it takes `j` pointers, all to
offsets in `reach`. A compressed name is a chain when the suffixes of its table are, with one pointer
more than the suffix that it ends with (`chain_compressed`), and so are the suffixes that it adds
(`chain_suffixOffsets`).

`namePointers` counts the pointers of a name. Its fuel bounds the labels and pointers that are looked
at, so the count is not too small for a name with few labels (`NameChain.le_namePointers`).
-/

set_option autoImplicit false

namespace Bklib.Lib

/-- The name at `o` has the labels `ls`, ends at `e`, and takes `j` pointers to offsets in `reach`. -/
inductive NameChain (m : Nat → Option UInt8) (reach : Nat → Prop) :
    Nat → Nat → List Label → Nat → Prop where
  | root {o : Nat} (h : m o = some 0) : NameChain m reach 0 o [] (o + 1)
  | label {j o e : Nat} {l : Label} {ls : List Label} (hl : l.Ok)
      (h : Holds m o (UInt8.ofNat l.length :: l))
      (rest : NameChain m reach j (o + 1 + l.length) ls e) : NameChain m reach j o (l :: ls) e
  | pointer {j o i e : Nat} {ls : List Label} (hi : i < 16384) (hreach : reach i)
      (h : Holds m o (pointerBytes i)) (rest : NameChain m reach j i ls e) :
      NameChain m reach (j + 1) o ls (o + 2)

variable {m m' : Nat → Option UInt8} {reach : Nat → Prop} {j o e : Nat} {ls : List Label}

/-- A chain over some cells is one over more cells. -/
theorem NameChain.mono (h : NameChain m reach j o ls e) (hle : CellsLe m m') :
    NameChain m' reach j o ls e := by
  induction h with
  | root h => exact .root (hle _ _ h)
  | label hl h _ ih => exact .label hl (h.mono hle) ih
  | pointer hi hreach h _ ih => exact .pointer hi hreach (h.mono hle) ih

/-- A chain ends where cells are known. -/
theorem NameChain.end_le {n : Nat} (h : NameChain m reach j o ls e)
    (hknown : ∀ i b, m i = some b → i < n) : e ≤ n := by
  induction h with
  | root h => exact hknown _ _ h
  | label _ _ _ ih => exact ih
  | pointer _ _ h _ _ => exact hknown _ _ (holds_cons.mp (holds_cons.mp h).2).1

theorem NameChain.lt_end (h : NameChain m reach j o ls e) : o < e := by
  induction h with
  | root _ => exact Nat.lt_succ_self _
  | label _ _ _ ih => omega
  | pointer _ _ _ _ _ => omega

theorem NameChain.ok (h : NameChain m reach j o ls e) : ∀ l ∈ ls, l.Ok := by
  induction h with
  | root _ => simp
  | label hl _ _ ih => exact List.forall_mem_cons.mpr ⟨hl, ih⟩
  | pointer _ _ _ _ ih => exact ih

/-! ### Counting pointers -/

/-- The byte in front of a label. -/
theorem Label.Ok.lengthByte {l : Label} (hl : l.Ok) :
    (UInt8.ofNat l.length).toNat = l.length ∧ UInt8.ofNat l.length ≠ 0 ∧
      UInt8.ofNat l.length < 64 := by
  obtain ⟨hpos, hle, -⟩ := hl
  have hnat : (UInt8.ofNat l.length).toNat = l.length := by
    rw [UInt8.toNat_ofNat']
    omega
  refine ⟨hnat, fun h0 => ?_, ?_⟩
  · have hzero := congrArg UInt8.toNat h0
    rw [hnat, UInt8.toNat_zero] at hzero
    omega
  · rw [UInt8.lt_iff_toNat_lt, hnat]
    exact Nat.lt_of_le_of_lt hle (by decide)

/-- The first byte of a pointer, and the offset that the two bytes make. -/
theorem pointerByte {i : Nat} (hi : i < 16384) :
    UInt8.ofNat (i / 256) ||| 192 ≠ 0 ∧ ¬UInt8.ofNat (i / 256) ||| 192 < 64 ∧
      256 * ((UInt8.ofNat (i / 256) ||| 192).toNat - 192) + (UInt8.ofNat i).toNat = i := by
  have hnat := toNat_pointer_hi (show i / 256 < 64 by omega)
  generalize UInt8.ofNat (i / 256) ||| 192 = b at hnat
  refine ⟨fun h0 => ?_, ?_, ?_⟩
  · rw [h0, UInt8.toNat_zero] at hnat
    omega
  · rw [UInt8.lt_iff_toNat_lt, hnat, show (64 : UInt8).toNat = 64 from rfl]
    omega
  · rw [hnat, UInt8.toNat_ofNat']
    omega

/-- The pointers of the name at an offset, among its first `fuel` labels and pointers. -/
def namePointers (m : Nat → Option UInt8) : Nat → Nat → Nat
  | 0,        _ => 0
  | fuel + 1, o =>
      match m o, m (o + 1) with
      | some b, c =>
          if b = 0 then 0
          else if b < 64 then namePointers m fuel (o + 1 + b.toNat)
          else 1 + namePointers m fuel (256 * (b.toNat - 192) + (c.getD 0).toNat)
      | none, _   => 0

/-- The count is right as long as the fuel lasts. -/
theorem NameChain.le_namePointers (h : NameChain m reach j o ls e) (fuel : Nat) :
    min j (fuel - ls.length) ≤ namePointers m fuel o := by
  induction h generalizing fuel with
  | root _ => simp
  | @label j o e l ls hl h _ ih =>
      cases fuel with
      | zero => simp
      | succ fuel =>
          obtain ⟨hnat, hne, hlt⟩ := hl.lengthByte
          have hih := ih fuel
          rw [namePointers, (holds_cons.mp h).1]
          simp only [if_neg hne, if_pos hlt, hnat]
          rw [List.length_cons]
          omega
  | @pointer j o i e ls hi _ h _ ih =>
      cases fuel with
      | zero => simp
      | succ fuel =>
          obtain ⟨hhi, hrest⟩ := holds_cons.mp h
          obtain ⟨hlo, -⟩ := holds_cons.mp hrest
          obtain ⟨hne, hlt, hto⟩ := pointerByte hi
          have hih := ih fuel
          rw [namePointers, hhi, hlo]
          simp only [if_neg hne, if_neg hlt, Option.getD_some, hto]
          omega

/-- The count is never too big. -/
theorem NameChain.namePointers_le (h : NameChain m reach j o ls e) (fuel : Nat) :
    namePointers m fuel o ≤ j := by
  induction h generalizing fuel with
  | root h =>
      cases fuel with
      | zero => exact Nat.le_refl 0
      | succ fuel =>
          rw [namePointers, h]
          simp
  | @label j o e l ls hl h _ ih =>
      cases fuel with
      | zero => exact Nat.zero_le j
      | succ fuel =>
          obtain ⟨hnat, hne, hlt⟩ := hl.lengthByte
          have hih := ih fuel
          rw [namePointers, (holds_cons.mp h).1]
          simp only [if_neg hne, if_pos hlt, hnat]
          exact hih
  | @pointer j o i e ls hi _ h _ ih =>
      cases fuel with
      | zero => exact Nat.zero_le _
      | succ fuel =>
          obtain ⟨hhi, hrest⟩ := holds_cons.mp h
          obtain ⟨hlo, -⟩ := holds_cons.mp hrest
          obtain ⟨hne, hlt, hto⟩ := pointerByte hi
          have hih := ih fuel
          rw [namePointers, hhi, hlo]
          simp only [if_neg hne, if_neg hlt, Option.getD_some, hto]
          omega

/-- With enough fuel the count is the number of pointers. -/
theorem NameChain.eq_namePointers (h : NameChain m reach j o ls e) {fuel : Nat}
    (hlt : namePointers m fuel o < fuel - ls.length) : j = namePointers m fuel o := by
  have hge := h.le_namePointers fuel
  have hle := h.namePointers_le fuel
  omega

theorem NameChain.start (h : NameChain m reach j o ls e) : ∃ b, m o = some b := by
  cases h with
  | root h => exact ⟨_, h⟩
  | label _ h _ => exact ⟨_, (holds_cons.mp h).1⟩
  | pointer _ _ h _ => exact ⟨_, (holds_cons.mp h).1⟩

/-! ### Compressed names -/

/-- Every offset of the table leads to a chain for the name that it stands for. -/
def SuffixTable.Chained (tbl : SuffixTable) (m : Nat → Option UInt8) (reach : Nat → Prop) : Prop :=
  ∀ s i, tbl s = some i →
    ∃ j ls e, (∀ l ∈ ls, l.Ok) ∧ s = dotted ls ∧ NameChain m reach j i ls e

/-- How many pointers a compressed name takes: one more than the suffix that it ends with. -/
def PointersOver (tbl : SuffixTable) (m : Nat → Option UInt8) (reach : Nat → Prop) (s : List UInt8)
    (j : Nat) : Prop :=
  j = 0 ∨ ∃ i k ms e, knownSuffix tbl s = some i ∧ j = k + 1 ∧ NameChain m reach k i ms e ∧
    ms.length ≤ (nameLabels s).length

/-- A label in front that starts no known suffix changes nothing. -/
theorem PointersOver.cons {tbl : SuffixTable} {l : Label} {ls : List Label} (hl : l.Ok)
    (hls : ∀ k ∈ ls, k.Ok) (hnone : tbl (dotted (l :: ls)) = none)
    (h : PointersOver tbl m reach (dotted ls) j) : PointersOver tbl m reach (dotted (l :: ls)) j := by
  rcases h with rfl | ⟨i, k, ms, e, hi, hj, hms, hlen⟩
  · exact Or.inl rfl
  · have hknown := knownSuffix_of_none (dotted_cons_ne hl ls) hnone
    rw [afterLabel_dotted hl.noDot] at hknown
    rw [nameLabels_dotted hls] at hlen
    refine Or.inr ⟨i, k, ms, e, hknown.trans hi, hj, hms, ?_⟩
    rw [nameLabels_dotted (List.forall_mem_cons.mpr ⟨hl, hls⟩), List.length_cons]
    omega

/-- A name packed against a table whose offsets are all read is itself a chain, and its pointers go
over entries of the table. The induction is on the labels, each either written or left to a pointer.
-/
theorem chain_compressed {tbl : SuffixTable} (htbl : tbl.Chained m reach) {ls : List Label}
    (hls : ∀ l ∈ ls, l.Ok) :
    ∀ pos, Holds m pos (compressed tbl (dotted ls)) →
      (∀ i, knownSuffix tbl (dotted ls) = some i → i < 16384 ∧ reach i) →
      ∃ j, NameChain m reach j pos ls (pos + (compressed tbl (dotted ls)).length) ∧
        PointersOver tbl m reach (dotted ls) j := by
  induction ls with
  | nil =>
      intro pos hholds _
      rw [dotted, compressed_nil] at hholds ⊢
      exact ⟨0, .root (holds_cons.mp hholds).1, Or.inl rfl⟩
  | cons l ls ih =>
      intro pos hholds hreach
      have hl : l.Ok := hls l List.mem_cons_self
      have hne := dotted_cons_ne hl ls
      cases hat : tbl (dotted (l :: ls)) with
      | some i =>
          -- one more pointer than the chain it leads to
          have hknown := knownSuffix_of_some hne hat
          obtain ⟨hi, hto⟩ := hreach i hknown
          obtain ⟨j, ms, e, hms, hdotted, hchain⟩ := htbl _ _ hat
          obtain rfl := dotted_inj hms hls hdotted.symm
          rw [compressed_of_some hne hat] at hholds ⊢
          exact ⟨j + 1, .pointer hi hto hholds hchain,
            Or.inr ⟨i, j, _, e, hknown, rfl, hchain, by rw [nameLabels_dotted hls]⟩⟩
      | none =>
          have hknown := knownSuffix_of_none hne hat
          rw [afterLabel_dotted hl.noDot] at hknown
          rw [compressed_of_none hne hat, firstLabel_dotted hl.noDot, afterLabel_dotted hl.noDot]
            at hholds ⊢
          rw [← List.cons_append, holds_append, List.length_cons] at hholds
          -- the label stands in front of what is written for the rest
          obtain ⟨hlabel, hrest⟩ := hholds
          rw [show pos + (l.length + 1) = pos + 1 + l.length by omega] at hrest
          have hls' : ∀ k ∈ ls, k.Ok := fun k hk => hls k (List.mem_cons_of_mem l hk)
          obtain ⟨j, hchain, hover⟩ := ih hls' _ hrest fun i hi => hreach i (hknown.trans hi)
          refine ⟨j, ?_, hover.cons hl hls' hat⟩
          rw [List.length_cons, List.length_append,
            show pos + (l.length + (compressed tbl (dotted ls)).length + 1)
              = pos + 1 + l.length + (compressed tbl (dotted ls)).length by omega]
          exact .label hl hlabel hchain

/-- The offsets that a compressed name adds lead to chains for its suffixes, which take as many
pointers as the name. -/
theorem chain_suffixOffsets {tbl : SuffixTable} (htbl : tbl.Chained m reach) {ls : List Label}
    (hls : ∀ l ∈ ls, l.Ok) :
    ∀ pos, Holds m pos (compressed tbl (dotted ls)) →
      (∀ i, knownSuffix tbl (dotted ls) = some i → i < 16384 ∧ reach i) →
      ∀ s i, (s, i) ∈ suffixOffsets tbl pos (dotted ls) →
        pos ≤ i ∧ i < pos + (compressed tbl (dotted ls)).length ∧
          ∃ j ms e, ms <:+ ls ∧ s = dotted ms ∧ NameChain m reach j i ms e ∧
            PointersOver tbl m reach (dotted ls) j := by
  induction ls with
  | nil =>
      intro pos _ _ s i hmem
      rw [dotted, suffixOffsets_nil] at hmem
      exact absurd hmem List.not_mem_nil
  | cons l ls ih =>
      intro pos hholds hreach s i hmem
      have hl : l.Ok := hls l List.mem_cons_self
      have hne := dotted_cons_ne hl ls
      have hpos := length_compressed_pos tbl (dotted (l :: ls))
      cases hat : tbl (dotted (l :: ls)) with
      | some k =>
          rw [suffixOffsets_of_some hne hat] at hmem
          exact absurd hmem List.not_mem_nil
      | none =>
          rw [suffixOffsets_of_none hne hat, List.mem_cons, Prod.mk.injEq] at hmem
          rcases hmem with ⟨rfl, rfl⟩ | hmem
          · -- the whole name
            obtain ⟨j, hchain, hover⟩ := chain_compressed htbl hls _ hholds hreach
            exact ⟨Nat.le_refl _, by omega, j, _, _, List.suffix_refl _, rfl, hchain, hover⟩
          · -- a suffix of what is behind the first label
            have hknown := knownSuffix_of_none hne hat
            rw [afterLabel_dotted hl.noDot] at hknown
            rw [firstLabel_dotted hl.noDot, afterLabel_dotted hl.noDot] at hmem
            rw [compressed_of_none hne hat, firstLabel_dotted hl.noDot,
              afterLabel_dotted hl.noDot] at hholds ⊢
            rw [← List.cons_append, holds_append, List.length_cons,
              show pos + (l.length + 1) = pos + 1 + l.length by omega] at hholds
            have hls' : ∀ k ∈ ls, k.Ok := fun k hk => hls k (List.mem_cons_of_mem l hk)
            obtain ⟨hle, hlt, j, ms, e, hsuffix, hs, hchain, hover⟩ :=
              ih hls' _ hholds.2 (fun k hk => hreach k (hknown.trans hk)) s i hmem
            rw [List.length_cons, List.length_append]
            exact ⟨by omega, by omega, j, ms, e, hsuffix.trans (List.suffix_cons l ls), hs, hchain,
              hover.cons hl hls' hat⟩

/-- Whatever the text, the bytes that it makes when no suffix is known begin with a name. It ends at the
first empty part of the text. -/
theorem chain_of_text {tbl : SuffixTable} (hnone : ∀ k, tbl k = none) (s : List UInt8) :
    ∀ pos, (∀ l ∈ nameLabels s, l.length ≤ 63) → Holds m pos (compressed tbl s) →
      ∃ ls e, NameChain m reach 0 pos ls e ∧ dotted ls <+: s := by
  induction s using nameLabels.induct with
  | case1 =>
      intro pos _ hholds
      rw [compressed_nil] at hholds
      exact ⟨[], _, .root (holds_cons.mp hholds).1, List.prefix_refl _⟩
  | case2 s hs ih =>
      intro pos hle hholds
      rw [nameLabels_of_ne hs, List.forall_mem_cons] at hle
      rw [compressed_of_none hs (hnone s), ← List.cons_append] at hholds
      obtain ⟨hlabel, hrest⟩ := holds_append.mp hholds
      by_cases hempty : firstLabel s = []
      · rw [hempty] at hlabel
        exact ⟨[], _, .root (holds_cons.mp hlabel).1, List.nil_prefix⟩
      · have hl : (firstLabel s).Ok := by
          refine ⟨List.length_pos_iff.mpr hempty, hle.1, fun hmem => ?_⟩
          have hne := List.mem_takeWhile_imp hmem
          simp at hne
        rw [List.length_cons, ← Nat.add_assoc, Nat.add_right_comm] at hrest
        obtain ⟨ls, e, hchain, hprefix⟩ := ih _ hle.2 hrest
        refine ⟨firstLabel s :: ls, e, .label hl hlabel hchain, ?_⟩
        cases ls with
        | nil => exact List.takeWhile_prefix _
        | cons k ls =>
            -- There is more text behind the label, so it ends with a dot.
            have hdot : dot ∈ s := by
              by_contra hno
              rw [(eq_firstLabel_of_not_mem hno).2, List.prefix_nil] at hprefix
              exact dotted_cons_ne (hchain.ok k List.mem_cons_self) ls hprefix
            obtain ⟨t, ht⟩ := hprefix
            refine ⟨t, ?_⟩
            rw [dotted, List.append_assoc, List.cons_append, ht]
            exact (eq_firstLabel_append hdot).symm

end Bklib.Lib
