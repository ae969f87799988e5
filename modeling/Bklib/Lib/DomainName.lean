import Mathlib.Data.List.Basic
import Mathlib.Data.List.Infix
import Mathlib.Data.List.TakeWhile
import Mathlib.Data.UInt
import Mathlib.Order.Lattice

/-!
# `Bklib.Lib.DomainName`: domain names as text and as messages carry them

As text a name is its labels with dots between them (`dotted`). In a message a name is a list of
labels, each behind its length, up to a zero byte or to a two-byte pointer: the rest of the name is
then what stands at an earlier offset. `decodeName` reads a name from a message whose cells may be
unknown, and knowing more cells never changes what it reads (`decodeFrom_mono`).

`compressed tbl s` is the name `s` with a pointer to the first suffix that the table `tbl` has an
offset for, and `suffixOffsets` lists the suffixes before it with their own offsets. Where the
offsets of the table decode to their names, so does a compressed name, and so do the offsets that
it adds (`decodeFrom_compressed`, `decodeName_suffixOffsets`).
-/

set_option autoImplicit false

namespace Bklib.Lib

/-- The bytes between two dots of a name. -/
abbrev Label := List UInt8

/-- `.` -/
def dot : UInt8 := 46

/-! ### Names as text -/

/-- The labels with dots between them. -/
def dotted : List Label → List UInt8
  | []           => []
  | [l]          => l
  | l :: m :: ls => l ++ dot :: dotted (m :: ls)

/-- The text up to the first dot. -/
def firstLabel (s : List UInt8) : Label := s.takeWhile (· ≠ dot)

/-- The text behind the first dot. -/
def afterLabel (s : List UInt8) : List UInt8 := (s.dropWhile (· ≠ dot)).tail

theorem length_afterLabel_lt {s : List UInt8} (hs : s ≠ []) : (afterLabel s).length < s.length := by
  have hpos : 0 < s.length := List.length_pos_iff.mpr hs
  have hdrop : (s.dropWhile (· ≠ dot)).length ≤ s.length := (List.dropWhile_suffix _).length_le
  rw [afterLabel, List.length_tail]
  omega

/-- The labels of a text. A dot at its end ends the last label. -/
def nameLabels (s : List UInt8) : List Label :=
  if s = [] then [] else firstLabel s :: nameLabels (afterLabel s)
termination_by s.length
decreasing_by exact length_afterLabel_lt ‹_›

/-- A label that a message can carry. -/
structure Label.Ok (l : Label) : Prop where
  pos : 1 ≤ l.length
  le : l.length ≤ 63
  noDot : dot ∉ l

@[simp] theorem nameLabels_nil : nameLabels [] = [] := by
  rw [nameLabels, if_pos rfl]

theorem nameLabels_of_ne {s : List UInt8} (hs : s ≠ []) :
    nameLabels s = firstLabel s :: nameLabels (afterLabel s) := by
  rw [nameLabels, if_neg hs]

/-- A text with a label is not empty. -/
theorem dotted_cons_ne {l : Label} (hl : l.Ok) (ls : List Label) : dotted (l :: ls) ≠ [] := by
  have hpos := hl.pos
  cases ls with
  | nil =>
      intro h
      rw [show l = [] from h] at hpos
      simp at hpos
  | cons m ls => simp [dotted]

theorem takeWhile_eq_self {l : Label} (hl : dot ∉ l) : l.takeWhile (· ≠ dot) = l := by
  rw [List.takeWhile_eq_self_iff]
  intro b hb
  simpa using fun h : b = dot => hl (h ▸ hb)

/-- The first label of a name that is written with dots. -/
theorem firstLabel_dotted {l : Label} (hl : dot ∉ l) (ls : List Label) :
    firstLabel (dotted (l :: ls)) = l := by
  cases ls with
  | nil => exact takeWhile_eq_self hl
  | cons m ls =>
      have hall : ∀ b ∈ l, decide (b ≠ dot) = true := by
        intro b hb
        simpa using fun h : b = dot => hl (h ▸ hb)
      rw [firstLabel, dotted, List.takeWhile_append_of_pos hall]
      simp

/-- And the rest of it. -/
theorem afterLabel_dotted {l : Label} (hl : dot ∉ l) (ls : List Label) :
    afterLabel (dotted (l :: ls)) = dotted ls := by
  have hall : ∀ b ∈ l, decide (b ≠ dot) = true := by
    intro b hb
    simpa using fun h : b = dot => hl (h ▸ hb)
  cases ls with
  | nil =>
      show (l.dropWhile (· ≠ dot)).tail = []
      rw [List.dropWhile_eq_nil_iff.mpr hall]
      rfl
  | cons m ls =>
      rw [afterLabel, dotted, List.dropWhile_append_of_pos hall]
      simp

/-- The labels of a name joined by dots are taken apart again. -/
theorem nameLabels_dotted {ls : List Label} (h : ∀ l ∈ ls, l.Ok) : nameLabels (dotted ls) = ls := by
  induction ls with
  | nil => exact nameLabels_nil
  | cons l ls ih =>
      have hl : l.Ok := h l List.mem_cons_self
      rw [nameLabels_of_ne (dotted_cons_ne hl ls), firstLabel_dotted hl.noDot,
        afterLabel_dotted hl.noDot, ih fun m hm => h m (List.mem_cons_of_mem l hm)]

theorem dotted_inj {ls ms : List Label} (hls : ∀ l ∈ ls, l.Ok) (hms : ∀ l ∈ ms, l.Ok)
    (h : dotted ls = dotted ms) : ls = ms := by
  rw [← nameLabels_dotted hls, h, nameLabels_dotted hms]

/-! ### Cells of a message -/

/-- The `n` cells from offset `o` on, when all of them are known. -/
def takeCells (m : Nat → Option UInt8) : Nat → Nat → Option (List UInt8)
  | _, 0     => some []
  | o, n + 1 => (m o).bind fun b => (takeCells m (o + 1) n).map (b :: ·)

/-- The bytes `bs` stand at offset `o`. -/
def Holds (m : Nat → Option UInt8) (o : Nat) (bs : List UInt8) : Prop :=
  takeCells m o bs.length = some bs

/-- The cells that `m` knows are those of `m'`. -/
def CellsLe (m m' : Nat → Option UInt8) : Prop := ∀ i b, m i = some b → m' i = some b

variable {m m' : Nat → Option UInt8}

theorem holds_nil (m : Nat → Option UInt8) (o : Nat) : Holds m o [] := rfl

/-- Bytes stand one behind the other. -/
theorem holds_cons {o : Nat} {b : UInt8} {bs : List UInt8} :
    Holds m o (b :: bs) ↔ m o = some b ∧ Holds m (o + 1) bs := by
  unfold Holds
  rw [List.length_cons, takeCells]
  cases m o with
  | none => simp
  | some c =>
      cases takeCells m (o + 1) bs.length with
      | none => simp
      | some cs => simp

/-- Bytes in a row are held one part behind the other. -/
theorem holds_append {bs cs : List UInt8} :
    ∀ {o : Nat}, Holds m o (bs ++ cs) ↔ Holds m o bs ∧ Holds m (o + bs.length) cs := by
  induction bs with
  | nil => intro o; simp [holds_nil]
  | cons b bs ih =>
      intro o
      rw [List.cons_append, holds_cons, holds_cons, ih, List.length_cons,
        show o + 1 + bs.length = o + (bs.length + 1) by omega, and_assoc]

/-- Bytes that stand each in its cell. -/
theorem holds_of_cells {bs : List UInt8} :
    ∀ {o : Nat}, (∀ (k : Nat) (h : k < bs.length), m (o + k) = some bs[k]) → Holds m o bs := by
  induction bs with
  | nil => intro o _; exact holds_nil m o
  | cons b bs ih =>
      intro o h
      refine holds_cons.mpr ⟨h 0 (by simp), ih fun k hk => ?_⟩
      have hcell := h (k + 1) (by simpa using hk)
      rw [show o + (k + 1) = o + 1 + k by omega] at hcell
      simpa using hcell

/-- More cells give the same bytes. -/
theorem takeCells_mono (h : CellsLe m m') {n : Nat} :
    ∀ {o : Nat} {bs : List UInt8}, takeCells m o n = some bs → takeCells m' o n = some bs := by
  induction n with
  | zero => intro o bs hbs; exact hbs
  | succ n ih =>
      intro o bs hbs
      rw [takeCells, Option.bind_eq_some_iff] at hbs
      obtain ⟨b, hb, hmap⟩ := hbs
      obtain ⟨cs, hcs, rfl⟩ := Option.map_eq_some_iff.mp hmap
      rw [takeCells, h o b hb, Option.bind_some, ih hcs, Option.map_some]

theorem Holds.mono {o : Nat} {bs : List UInt8} (hbs : Holds m o bs) (h : CellsLe m m') :
    Holds m' o bs := takeCells_mono h hbs

/-! ### Names in a message -/

/-- The name at offset `o` of a message of `len` bytes. `seg` is where the labels read last began:
a pointer leads to an offset before it. -/
def decodeFrom (m : Nat → Option UInt8) (len seg o : Nat) : Option (List Label) :=
  if o < len then
    (m o).bind fun b =>
      if b = 0 then some []
      else if b < 64 then
        (takeCells m (o + 1) b.toNat).bind fun l =>
          (decodeFrom m len seg (o + 1 + b.toNat)).map (l :: ·)
      else if 192 ≤ b then
        (m (o + 1)).bind fun c =>
          let i := 256 * (b.toNat - 192) + c.toNat
          if i < seg then decodeFrom m len i i else none
      else none
  else none
termination_by (seg, len - o)

/-- The name at offset `o`, whose pointers all lead backwards. -/
def decodeName (m : Nat → Option UInt8) (len o : Nat) : Option (List Label) := decodeFrom m len o o

/-- The two bytes of a pointer to offset `i`. -/
def pointerBytes (i : Nat) : List UInt8 := [UInt8.ofNat (i / 256) ||| 192, UInt8.ofNat i]

theorem decodeFrom_zero {len seg o : Nat} (ho : o < len) (h : Holds m o [0]) :
    decodeFrom m len seg o = some [] := by
  obtain ⟨hcell, -⟩ := holds_cons.mp h
  rw [decodeFrom, if_pos ho, hcell]
  rfl

/-- A label is read, and then what is behind it. -/
theorem decodeFrom_label {len seg o : Nat} {l : Label} (hl : l.Ok) (ho : o < len)
    (h : Holds m o (UInt8.ofNat l.length :: l)) :
    decodeFrom m len seg o = (decodeFrom m len seg (o + 1 + l.length)).map (l :: ·) := by
  have hpos := hl.pos
  have hle := hl.le
  have hnat : (UInt8.ofNat l.length).toNat = l.length := by
    rw [UInt8.toNat_ofNat']
    omega
  have hne : UInt8.ofNat l.length ≠ 0 := by
    intro h0
    have hzero := congrArg UInt8.toNat h0
    rw [hnat, UInt8.toNat_zero] at hzero
    omega
  have hlt : UInt8.ofNat l.length < 64 := by
    rw [UInt8.lt_iff_toNat_lt, hnat]
    exact Nat.lt_of_le_of_lt hle (by decide)
  obtain ⟨hcell, htext⟩ := holds_cons.mp h
  rw [decodeFrom, if_pos ho, hcell, Option.bind_some, if_neg hne, if_pos hlt, hnat]
  rw [show takeCells m (o + 1) l.length = some l from htext, Option.bind_some]

theorem toNat_pointer_hi {n : Nat} (hn : n < 64) : (UInt8.ofNat n ||| 192).toNat = 192 + n := by
  have hall : ∀ k : Fin 64, (UInt8.ofNat k.val ||| 192).toNat = 192 + k.val := by decide
  exact hall ⟨n, hn⟩

/-- A pointer backwards is followed. -/
theorem decodeFrom_pointer {len seg o i : Nat} (hi : i < 16384) (hseg : i < seg) (ho : o < len)
    (h : Holds m o (pointerBytes i)) : decodeFrom m len seg o = decodeName m len i := by
  obtain ⟨hhi, hrest⟩ := holds_cons.mp h
  obtain ⟨hlo, -⟩ := holds_cons.mp hrest
  have hnat := toNat_pointer_hi (show i / 256 < 64 by omega)
  generalize UInt8.ofNat (i / 256) ||| 192 = b at hhi hnat
  have hne : b ≠ 0 := by
    intro h0
    rw [h0, UInt8.toNat_zero] at hnat
    omega
  have hlt : ¬b < 64 := by
    rw [UInt8.lt_iff_toNat_lt, hnat, show (64 : UInt8).toNat = 64 from rfl]
    omega
  have hge : 192 ≤ b := by
    rw [UInt8.le_iff_toNat_le, hnat, show (192 : UInt8).toNat = 192 from rfl]
    omega
  have hto : 256 * (b.toNat - 192) + (UInt8.ofNat i).toNat = i := by
    rw [hnat, UInt8.toNat_ofNat']
    omega
  rw [decodeFrom, if_pos ho, hhi, Option.bind_some, if_neg hne, if_neg hlt, if_pos hge, hlo,
    Option.bind_some, hto]
  exact if_pos hseg

/-- What a name reads does not change when more cells are known. Induction along the reading. -/
theorem decodeFrom_mono (h : CellsLe m m') (len seg o : Nat) :
    ∀ {ls : List Label}, decodeFrom m len seg o = some ls → decodeFrom m' len seg o = some ls := by
  induction seg, o using decodeFrom.induct len with
  | case1 seg o ho ihLabel ihPointer =>
      intro ls hls
      rw [decodeFrom, if_pos ho, Option.bind_eq_some_iff] at hls
      obtain ⟨b, hb, hls⟩ := hls
      rw [decodeFrom, if_pos ho, h o b hb, Option.bind_some]
      by_cases h0 : b = 0
      · rw [if_pos h0] at hls ⊢
        exact hls
      · rw [if_neg h0] at hls ⊢
        by_cases hlabel : b < 64
        · rw [if_pos hlabel, Option.bind_eq_some_iff] at hls
          obtain ⟨l, hl, hrest⟩ := hls
          obtain ⟨ms, hms, rfl⟩ := Option.map_eq_some_iff.mp hrest
          rw [if_pos hlabel, takeCells_mono h hl, Option.bind_some, ihLabel b hms, Option.map_some]
        · rw [if_neg hlabel] at hls ⊢
          by_cases hpointer : 192 ≤ b
          · rw [if_pos hpointer, Option.bind_eq_some_iff] at hls
            obtain ⟨c, hc, hto⟩ := hls
            rw [if_pos hpointer, h (o + 1) c hc, Option.bind_some]
            by_cases hseg : 256 * (b.toNat - 192) + c.toNat < seg
            · simp only [if_pos hseg] at hto ⊢
              exact ihPointer b c hseg hto
            · simp only [if_neg hseg] at hto
              exact absurd hto (by simp)
          · rw [if_neg hpointer] at hls
            exact absurd hls (by simp)
  | case2 seg o ho =>
      intro ls hls
      rw [decodeFrom, if_neg ho] at hls
      exact absurd hls (by simp)

/-! ### Parts of a text -/

/-- A part that has no `x` lies on one side of it. -/
theorem infix_append_cons {l a b : List UInt8} {x : UInt8} (h : l <:+: a ++ x :: b) (hx : x ∉ l) :
    l <:+: a ∨ l <:+: b := by
  obtain ⟨l₁, l₂, heq⟩ := h
  rcases List.append_eq_append_iff.mp heq with ⟨a', rfl, -⟩ | ⟨c, hc, hrest⟩
  · exact Or.inl ⟨l₁, a', rfl⟩
  rcases List.append_eq_append_iff.mp hc with ⟨a', rfl, rfl⟩ | ⟨c', rfl, rfl⟩
  · -- The part begins in `a`, and so it ends there.
    cases c with
    | nil => exact Or.inl ⟨l₁, [], by simp⟩
    | cons y c =>
        obtain ⟨rfl, -⟩ := List.cons.inj hrest
        exact absurd (by simp) hx
  · cases c' with
    | nil =>
        cases l with
        | nil => exact Or.inl (List.nil_infix)
        | cons y l =>
            obtain ⟨rfl, -⟩ := List.cons.inj hrest
            exact absurd List.mem_cons_self hx
    | cons y c' =>
        obtain ⟨-, rfl⟩ := List.cons.inj hrest
        exact Or.inr ⟨c', l₂, rfl⟩

/-- Between two dots there are no more than `n` bytes. -/
def PartsLe (n : Nat) (s : List UInt8) : Prop := ∀ l, l <:+: s → dot ∉ l → l.length ≤ n

theorem PartsLe.within {n : Nat} {s t : List UInt8} (h : PartsLe n s) (hts : t <:+: s) :
    PartsLe n t := fun l hl hdot => h l (hl.trans hts) hdot

theorem partsLe_of_length {n : Nat} {s : List UInt8} (h : s.length ≤ n) : PartsLe n s :=
  fun _ hl _ => Nat.le_trans hl.length_le h

theorem PartsLe.append {n : Nat} {s t : List UInt8} (hs : PartsLe n s) (ht : PartsLe n t) :
    PartsLe n (s ++ dot :: t) := fun l hl hdot =>
  (infix_append_cons hl hdot).elim (fun h => hs l h hdot) (fun h => ht l h hdot)

/-- So no label is longer. -/
theorem PartsLe.labels {n : Nat} {s : List UInt8} (h : PartsLe n s) :
    ∀ l ∈ nameLabels s, l.length ≤ n := by
  induction s using nameLabels.induct with
  | case1 => simp
  | case2 s hs ih =>
      rw [nameLabels_of_ne hs]
      have hfirst : firstLabel s <:+: s := (List.takeWhile_prefix _).isInfix
      have hafter : afterLabel s <:+: s :=
        ((List.tail_suffix _).trans (List.dropWhile_suffix _)).isInfix
      refine List.forall_mem_cons.mpr ⟨h _ hfirst fun hmem => ?_, ih (h.within hafter)⟩
      have hne := List.mem_takeWhile_imp hmem
      simp at hne

/-! ### Compression -/

/-- A table of the suffixes that a message has, by their text. -/
abbrev SuffixTable := List UInt8 → Option Nat

/-- The bytes of the name `s`, up to the first suffix that the table knows. -/
def compressed (tbl : SuffixTable) (s : List UInt8) : List UInt8 :=
  if s = [] then [0]
  else
    match tbl s with
    | some i => pointerBytes i
    | none   =>
        UInt8.ofNat (firstLabel s).length :: (firstLabel s ++ compressed tbl (afterLabel s))
termination_by s.length
decreasing_by exact length_afterLabel_lt ‹_›

/-- The suffixes of `s` that the table does not know, with their offsets when `s` is written at
`pos`. -/
def suffixOffsets (tbl : SuffixTable) (pos : Nat) (s : List UInt8) : List (List UInt8 × Nat) :=
  if s = [] then []
  else
    match tbl s with
    | some _ => []
    | none   => (s, pos) :: suffixOffsets tbl (pos + 1 + (firstLabel s).length) (afterLabel s)
termination_by s.length
decreasing_by exact length_afterLabel_lt ‹_›

variable {tbl : SuffixTable}

@[simp] theorem compressed_nil (tbl : SuffixTable) : compressed tbl [] = [0] := by
  rw [compressed, if_pos rfl]

theorem compressed_of_some {s : List UInt8} {i : Nat} (hs : s ≠ []) (h : tbl s = some i) :
    compressed tbl s = pointerBytes i := by
  rw [compressed, if_neg hs, h]

theorem compressed_of_none {s : List UInt8} (hs : s ≠ []) (h : tbl s = none) :
    compressed tbl s
      = UInt8.ofNat (firstLabel s).length :: (firstLabel s ++ compressed tbl (afterLabel s)) := by
  rw [compressed, if_neg hs, h]

@[simp] theorem suffixOffsets_nil (tbl : SuffixTable) (pos : Nat) :
    suffixOffsets tbl pos [] = [] := by
  rw [suffixOffsets, if_pos rfl]

theorem suffixOffsets_of_some {s : List UInt8} {i pos : Nat} (hs : s ≠ []) (h : tbl s = some i) :
    suffixOffsets tbl pos s = [] := by
  rw [suffixOffsets, if_neg hs, h]

theorem suffixOffsets_of_none {s : List UInt8} {pos : Nat} (hs : s ≠ []) (h : tbl s = none) :
    suffixOffsets tbl pos s
      = (s, pos) :: suffixOffsets tbl (pos + 1 + (firstLabel s).length) (afterLabel s) := by
  rw [suffixOffsets, if_neg hs, h]

/-- A compressed name takes a byte at least. -/
theorem length_compressed_pos (tbl : SuffixTable) (s : List UInt8) :
    0 < (compressed tbl s).length := by
  rw [compressed]
  split
  · simp
  · split <;> simp [pointerBytes]

/-- A text is its first label, a dot at most, and the rest. -/
theorem length_le_firstLabel_afterLabel (s : List UInt8) :
    s.length ≤ (firstLabel s).length + 1 + (afterLabel s).length := by
  have happ : (firstLabel s ++ s.dropWhile (· ≠ dot)).length = s.length :=
    congrArg List.length List.takeWhile_append_dropWhile
  rw [List.length_append] at happ
  rw [afterLabel, List.length_tail]
  omega

/-- There is a dot behind a label that is not the last. -/
theorem eq_firstLabel_of_not_mem {s : List UInt8} (h : dot ∉ s) :
    firstLabel s = s ∧ afterLabel s = [] := by
  have hall : ∀ b ∈ s, decide (b ≠ dot) = true := fun b hb =>
    decide_eq_true fun heq => h (heq ▸ hb)
  refine ⟨List.takeWhile_eq_self_iff.mpr hall, ?_⟩
  rw [afterLabel, List.dropWhile_eq_nil_iff.mpr hall, List.tail_nil]

/-- A name with a dot, taken apart. -/
theorem eq_firstLabel_append {s : List UInt8} (h : dot ∈ s) :
    s = firstLabel s ++ dot :: afterLabel s := by
  have hdrop : s.dropWhile (· ≠ dot) ≠ [] := fun hnil => by
    have hall := List.dropWhile_eq_nil_iff.mp hnil dot h
    simp at hall
  have hhead := List.head_dropWhile_not (fun b => decide (b ≠ dot)) hdrop
  have hdot : (s.dropWhile (· ≠ dot)).head hdrop = dot := by simpa using hhead
  have hcons := List.cons_head_tail hdrop
  rw [hdot] at hcons
  rw [afterLabel, hcons]
  exact List.takeWhile_append_dropWhile.symm

/-- A name takes two bytes more than its text, or less. -/
theorem length_compressed_le_text (tbl : SuffixTable) (s : List UInt8) :
    (compressed tbl s).length ≤ s.length + 2 := by
  induction s using nameLabels.induct with
  | case1 => simp
  | case2 s hs ih =>
      cases htbl : tbl s with
      | some i =>
          rw [compressed_of_some hs htbl]
          exact Nat.le_add_left _ _
      | none =>
          rw [compressed_of_none hs htbl, List.length_cons, List.length_append]
          by_cases hdot : dot ∈ s
          · have hlen := congrArg List.length (eq_firstLabel_append hdot)
            rw [List.length_append, List.length_cons] at hlen
            omega
          · obtain ⟨hfirst, hafter⟩ := eq_firstLabel_of_not_mem hdot
            rw [hfirst, hafter, compressed_nil]
            exact Nat.le_refl _

/-- Only the suffixes of a name matter for its bytes. -/
theorem compressed_congr (tbl tbl' : SuffixTable) (s : List UInt8) :
    (∀ k, k.length ≤ s.length → tbl k = tbl' k) → compressed tbl s = compressed tbl' s := by
  induction s using nameLabels.induct with
  | case1 => intro _; rw [compressed_nil, compressed_nil]
  | case2 s hs ih =>
      intro h
      have hrest := length_afterLabel_lt hs
      cases htbl : tbl s with
      | some i => rw [compressed_of_some hs htbl, compressed_of_some hs (h s le_rfl ▸ htbl)]
      | none =>
          rw [compressed_of_none hs htbl, compressed_of_none hs (h s le_rfl ▸ htbl),
            ih fun k hk => h k (by omega)]

/-- Only the names up to this length are looked up. -/
theorem suffixOffsets_congr (tbl tbl' : SuffixTable) (s : List UInt8) :
    ∀ pos, (∀ k, k.length ≤ s.length → tbl k = tbl' k) →
      suffixOffsets tbl pos s = suffixOffsets tbl' pos s := by
  induction s using nameLabels.induct with
  | case1 => intro pos _; rw [suffixOffsets_nil, suffixOffsets_nil]
  | case2 s hs ih =>
      intro pos h
      have hrest := length_afterLabel_lt hs
      cases htbl : tbl s with
      | some i => rw [suffixOffsets_of_some hs htbl, suffixOffsets_of_some hs (h s le_rfl ▸ htbl)]
      | none =>
          rw [suffixOffsets_of_none hs htbl, suffixOffsets_of_none hs (h s le_rfl ▸ htbl),
            ih _ fun k hk => h k (by omega)]

/-- A table that has the name too reads the same for what follows its label. -/
theorem compressed_put {tbl tbl' : SuffixTable} {s : List UInt8} (hs : s ≠ []) (h : tbl s = none)
    (hput : ∀ k, k ≠ s → tbl' k = tbl k) :
    compressed tbl s
      = UInt8.ofNat (firstLabel s).length :: (firstLabel s ++ compressed tbl' (afterLabel s)) := by
  have hrest := length_afterLabel_lt hs
  rw [compressed_of_none hs h, compressed_congr tbl tbl' (afterLabel s)]
  intro k hk
  refine (hput k ?_).symm
  rintro rfl
  omega

/-- Writing a name puts its suffixes at the places where they are written. -/
theorem suffixOffsets_put {tbl tbl' : SuffixTable} {s : List UInt8} (pos : Nat) (hs : s ≠ [])
    (h : tbl s = none) (hput : ∀ k, k ≠ s → tbl' k = tbl k) :
    suffixOffsets tbl pos s
      = (s, pos) :: suffixOffsets tbl' (pos + 1 + (firstLabel s).length) (afterLabel s) := by
  have hrest := length_afterLabel_lt hs
  rw [suffixOffsets_of_none hs h, suffixOffsets_congr tbl tbl' (afterLabel s)]
  intro k hk
  refine (hput k ?_).symm
  rintro rfl
  omega

/-- The offset of the first suffix that the table knows. -/
def knownSuffix (tbl : SuffixTable) (s : List UInt8) : Option Nat :=
  if s = [] then none
  else
    match tbl s with
    | some i => some i
    | none   => knownSuffix tbl (afterLabel s)
termination_by s.length
decreasing_by exact length_afterLabel_lt ‹_›

@[simp] theorem knownSuffix_nil (tbl : SuffixTable) : knownSuffix tbl [] = none := by
  rw [knownSuffix, if_pos rfl]

theorem knownSuffix_of_some {s : List UInt8} {i : Nat} (hs : s ≠ []) (h : tbl s = some i) :
    knownSuffix tbl s = some i := by
  rw [knownSuffix, if_neg hs, h]

theorem knownSuffix_of_none {s : List UInt8} (hs : s ≠ []) (h : tbl s = none) :
    knownSuffix tbl s = knownSuffix tbl (afterLabel s) := by
  rw [knownSuffix, if_neg hs, h]

/-- A known suffix is in the table, and not longer than the name. -/
theorem mem_of_knownSuffix {s : List UInt8} {i : Nat} (h : knownSuffix tbl s = some i) :
    ∃ k, tbl k = some i ∧ k.length ≤ s.length := by
  induction s using nameLabels.induct with
  | case1 =>
      rw [knownSuffix_nil] at h
      cases h
  | case2 s hs ih =>
      cases htbl : tbl s with
      | some j =>
          rw [knownSuffix_of_some hs htbl] at h
          exact ⟨s, htbl.trans h, Nat.le_refl _⟩
      | none =>
          rw [knownSuffix_of_none hs htbl] at h
          obtain ⟨k, hk, hle⟩ := ih h
          exact ⟨k, hk, Nat.le_trans hle (Nat.le_of_lt (length_afterLabel_lt hs))⟩

/-- An empty table knows no suffix. -/
theorem knownSuffix_of_empty (hnone : ∀ k, tbl k = none) (s : List UInt8) :
    knownSuffix tbl s = none := by
  induction s using nameLabels.induct with
  | case1 => exact knownSuffix_nil tbl
  | case2 s hs ih => rw [knownSuffix_of_none hs (hnone s), ih]

/-- Every label has a byte, and there is a dot between two labels. -/
theorem length_labels_le {ls : List Label} (h : ∀ l ∈ ls, l.Ok) :
    2 * ls.length ≤ (dotted ls).length + 1 := by
  induction ls with
  | nil => exact Nat.zero_le _
  | cons l ls ih =>
      have hl := (h l List.mem_cons_self).pos
      have hih := ih fun k hk => h k (List.mem_cons_of_mem l hk)
      cases ls with
      | nil =>
          show 2 * 1 ≤ l.length + 1
          omega
      | cons k ls =>
          rw [dotted, List.length_append]
          simp only [List.length_cons] at hih ⊢
          omega

/-- A name with a known suffix ends with the pointer to it. -/
theorem compressed_of_known {s : List UInt8} {i : Nat} (h : knownSuffix tbl s = some i) :
    ∃ bs, compressed tbl s = bs ++ pointerBytes i := by
  induction s using nameLabels.induct with
  | case1 =>
      rw [knownSuffix_nil] at h
      cases h
  | case2 s hs ih =>
      cases htbl : tbl s with
      | some j =>
          rw [knownSuffix_of_some hs htbl] at h
          obtain rfl := Option.some.inj h
          exact ⟨[], compressed_of_some hs htbl⟩
      | none =>
          rw [knownSuffix_of_none hs htbl] at h
          obtain ⟨bs, hbs⟩ := ih h
          rw [compressed_of_none hs htbl, hbs]
          exact ⟨UInt8.ofNat (firstLabel s).length :: (firstLabel s ++ bs), by simp⟩

/-- The number in the last 14 bits of a pointer, if the two bytes are one. -/
def pointerValue (hi lo : UInt8) : Option Nat :=
  if hi.toNat / 64 = 3 then some (hi.toNat % 64 * 256 + lo.toNat) else none

/-- A pointer can only hold an offset of 14 bits. -/
theorem pointerValue_lt {hi lo : UInt8} {i : Nat} (h : pointerValue hi lo = some i) :
    i < 16384 := by
  have hlo := lo.toNat_lt
  unfold pointerValue at h
  obtain ⟨-, rfl⟩ := Option.ite_some_none_eq_some.mp h
  omega

/-- The bytes of a pointer give its target. -/
theorem pointerValue_pointerBytes {i : Nat} (hi : i < 16384) :
    pointerValue (UInt8.ofNat (i / 256) ||| 192) (UInt8.ofNat i) = some i := by
  have hnat := toNat_pointer_hi (show i / 256 < 64 by omega)
  rw [pointerValue, hnat, if_pos (by omega), UInt8.toNat_ofNat']
  congr 1
  omega

/-- The bytes of a name in a message when it has no pointer. -/
def wireLen (s : List UInt8) : Nat := ((nameLabels s).map (·.length + 1)).sum + 1

/-- A message can carry the name, with a pointer to the first suffix that the table knows. -/
structure NameEncodable (tbl : SuffixTable) (s : List UInt8) : Prop where
  labels : ∀ l ∈ nameLabels s, 1 ≤ l.length ∧ l.length ≤ 63
  total : wireLen s < 256
  pointer : ∀ i, knownSuffix tbl s = some i → i < 16384

theorem wireLen_of_ne {s : List UInt8} (hs : s ≠ []) :
    wireLen s = (firstLabel s).length + 1 + wireLen (afterLabel s) := by
  rw [wireLen, nameLabels_of_ne hs, List.map_cons, List.sum_cons, wireLen]
  omega

/-- The text is shorter than the name in a message. -/
theorem length_lt_wireLen (s : List UInt8) : s.length < wireLen s := by
  induction s using nameLabels.induct with
  | case1 => simp [wireLen]
  | case2 s hs ih =>
      have hle := length_le_firstLabel_afterLabel s
      rw [wireLen_of_ne hs]
      omega

/-- A pointer makes a name no longer. -/
theorem length_compressed_le (tbl : SuffixTable) {s : List UInt8} :
    (∀ l ∈ nameLabels s, 1 ≤ l.length) → (compressed tbl s).length ≤ wireLen s := by
  induction s using nameLabels.induct with
  | case1 => intro _; simp [wireLen]
  | case2 s hs ih =>
      intro h
      rw [nameLabels_of_ne hs] at h
      have hfirst := h _ List.mem_cons_self
      have hrest := ih fun l hl => h l (List.mem_cons_of_mem _ hl)
      rw [wireLen_of_ne hs]
      cases htbl : tbl s with
      | some i =>
          have hpos : 0 < wireLen (afterLabel s) := Nat.succ_pos _
          rw [compressed_of_some hs htbl]
          show 2 ≤ _
          omega
      | none =>
          rw [compressed_of_none hs htbl, List.length_cons, List.length_append]
          omega

/-- The same for the suffix that is pointed to. -/
theorem knownSuffix_congr (tbl tbl' : SuffixTable) (s : List UInt8) :
    (∀ k, k.length ≤ s.length → tbl k = tbl' k) → knownSuffix tbl s = knownSuffix tbl' s := by
  induction s using nameLabels.induct with
  | case1 => intro _; rw [knownSuffix_nil, knownSuffix_nil]
  | case2 s hs ih =>
      intro h
      have hrest := length_afterLabel_lt hs
      cases htbl : tbl s with
      | some i => rw [knownSuffix_of_some hs htbl, knownSuffix_of_some hs (h s le_rfl ▸ htbl)]
      | none =>
          rw [knownSuffix_of_none hs htbl, knownSuffix_of_none hs (h s le_rfl ▸ htbl),
            ih fun k hk => h k (by omega)]

/-- A table that has the name too knows the same suffixes of what follows its label. -/
theorem knownSuffix_put {tbl tbl' : SuffixTable} {s : List UInt8} (hs : s ≠ []) (h : tbl s = none)
    (hput : ∀ k, k ≠ s → tbl' k = tbl k) :
    knownSuffix tbl s = knownSuffix tbl' (afterLabel s) := by
  have hrest := length_afterLabel_lt hs
  rw [knownSuffix_of_none hs h, knownSuffix_congr tbl tbl' (afterLabel s)]
  intro k hk
  refine (hput k ?_).symm
  rintro rfl
  omega

/-- What follows the first label of an encodable name is encodable. -/
theorem NameEncodable.tail {tbl tbl' : SuffixTable} {s : List UInt8} (h : NameEncodable tbl s)
    (hs : s ≠ []) (htbl : tbl s = none) (hput : ∀ k, k ≠ s → tbl' k = tbl k) :
    NameEncodable tbl' (afterLabel s) := by
  have hlabels := h.labels
  rw [nameLabels_of_ne hs] at hlabels
  have htotal := h.total
  rw [wireLen_of_ne hs] at htotal
  refine ⟨fun l hl => hlabels l (List.mem_cons_of_mem _ hl), by omega, fun i hi => ?_⟩
  refine h.pointer i ?_
  rwa [knownSuffix_put hs htbl hput]

/-- The table when `s` has been written at `pos`. -/
def SuffixTable.extend (tbl : SuffixTable) (pos : Nat) (s : List UInt8) : SuffixTable :=
  fun k => ((suffixOffsets tbl pos s).lookup k).or (tbl k)

/-- What the table knows then was written or known before. -/
theorem SuffixTable.extend_eq_some {tbl : SuffixTable} {pos : Nat} {s k : List UInt8} {i : Nat}
    (h : tbl.extend pos s k = some i) : (k, i) ∈ suffixOffsets tbl pos s ∨ tbl k = some i := by
  unfold SuffixTable.extend at h
  cases hlookup : (suffixOffsets tbl pos s).lookup k with
  | some i' =>
      rw [hlookup, Option.some_or] at h
      obtain rfl := Option.some.inj h
      obtain ⟨l₁, l₂, hsplit, -⟩ := List.lookup_eq_some_iff.mp hlookup
      exact Or.inl (hsplit ▸ by simp)
  | none =>
      rw [hlookup, Option.none_or] at h
      exact Or.inr h

/-- A name that is in the table is known by its offset. -/
theorem knownSuffix_extend_self {pos : Nat} {s : List UInt8} (hs : s ≠ []) (hnone : tbl s = none) :
    knownSuffix (tbl.extend pos s) s = some pos := by
  refine knownSuffix_of_some hs ?_
  rw [SuffixTable.extend, suffixOffsets_of_none hs hnone, List.lookup_cons_self, Option.some_or]

/-- Every offset of the table leads to the name that it stands for, and a pointer can hold it. -/
def SuffixTable.Sound (tbl : SuffixTable) (m : Nat → Option UInt8) (len : Nat) : Prop :=
  ∀ s i, tbl s = some i → i < 16384 ∧
    ∃ ls : List Label, (∀ l ∈ ls, l.Ok) ∧ s = dotted ls ∧ decodeName m len i = some ls

theorem SuffixTable.Sound.mono {len : Nat} (h : tbl.Sound m len) (hle : CellsLe m m') :
    tbl.Sound m' len := by
  intro s i hs
  obtain ⟨hi, ls, hls, rfl, hdecode⟩ := h s i hs
  exact ⟨hi, ls, hls, rfl, decodeFrom_mono hle len i i hdecode⟩

/-- A compressed name decodes to its labels. Induction on the labels: a label is read as it stands,
and a pointer leads to a suffix that decodes already. -/
theorem decodeFrom_compressed {len seg : Nat} (hsound : tbl.Sound m len)
    (hbefore : ∀ s i, tbl s = some i → i < seg) {ls : List Label} (hls : ∀ l ∈ ls, l.Ok) :
    ∀ pos : Nat, Holds m pos (compressed tbl (dotted ls)) →
      pos + (compressed tbl (dotted ls)).length ≤ len → decodeFrom m len seg pos = some ls := by
  induction ls with
  | nil =>
      intro pos hholds hlen
      rw [dotted, compressed_nil] at hholds hlen
      exact decodeFrom_zero hlen hholds
  | cons l ls ih =>
      intro pos hholds hlen
      have hl : l.Ok := hls l List.mem_cons_self
      have hne := dotted_cons_ne hl ls
      cases htbl : tbl (dotted (l :: ls)) with
      | some i =>
          rw [compressed_of_some hne htbl] at hholds hlen
          obtain ⟨hi, ms, hms, hdotted, hdecode⟩ := hsound _ i htbl
          rw [decodeFrom_pointer hi (hbefore _ i htbl) (by simp [pointerBytes] at hlen; omega) hholds,
            hdecode, dotted_inj hms hls hdotted.symm]
      | none =>
          rw [compressed_of_none hne htbl, firstLabel_dotted hl.noDot, afterLabel_dotted hl.noDot]
            at hholds hlen
          rw [List.length_cons, List.length_append] at hlen
          rw [← List.cons_append, holds_append, List.length_cons] at hholds
          obtain ⟨hlabel, hrest⟩ := hholds
          rw [show pos + (l.length + 1) = pos + 1 + l.length by omega] at hrest
          have hih := ih (fun k hk => hls k (List.mem_cons_of_mem l hk)) _ hrest (by omega)
          rw [decodeFrom_label hl (by omega) hlabel, hih, Option.map_some]

/-- The offsets that a compressed name adds lead to its suffixes. -/
theorem decodeName_suffixOffsets {len : Nat} (hsound : tbl.Sound m len) {ls : List Label}
    (hls : ∀ l ∈ ls, l.Ok) :
    ∀ pos : Nat, (∀ s i, tbl s = some i → i < pos) →
      Holds m pos (compressed tbl (dotted ls)) →
      pos + (compressed tbl (dotted ls)).length ≤ len →
      ∀ e ∈ suffixOffsets tbl pos (dotted ls),
        pos ≤ e.2 ∧ e.2 < pos + (compressed tbl (dotted ls)).length ∧
        ∃ ms : List Label, ms <:+ ls ∧ ms ≠ [] ∧ e.1 = dotted ms ∧
          decodeName m len e.2 = some ms := by
  induction ls with
  | nil =>
      intro pos _ _ _ e he
      rw [dotted, suffixOffsets_nil] at he
      exact absurd he List.not_mem_nil
  | cons l ls ih =>
      intro pos hbefore hholds hlen e he
      have hl : l.Ok := hls l List.mem_cons_self
      have hne := dotted_cons_ne hl ls
      have hpos := length_compressed_pos tbl (dotted (l :: ls))
      cases htbl : tbl (dotted (l :: ls)) with
      | some i =>
          -- a pointer ends the name, and no suffix is written behind it
          rw [suffixOffsets_of_some hne htbl] at he
          exact absurd he List.not_mem_nil
      | none =>
          rw [suffixOffsets_of_none hne htbl, List.mem_cons] at he
          cases he with
          | inl hhead =>
              -- the name itself, where it is written
              subst hhead
              refine ⟨Nat.le_refl pos, by omega, l :: ls, List.suffix_refl _, by simp, rfl, ?_⟩
              exact decodeFrom_compressed hsound hbefore hls pos hholds hlen
          | inr htail =>
              rw [firstLabel_dotted hl.noDot, afterLabel_dotted hl.noDot] at htail
              rw [compressed_of_none hne htbl, firstLabel_dotted hl.noDot,
                afterLabel_dotted hl.noDot] at hholds hlen ⊢
              rw [List.length_cons, List.length_append] at hlen ⊢
              rw [← List.cons_append, holds_append, List.length_cons,
                show pos + (l.length + 1) = pos + 1 + l.length by omega] at hholds
              -- a suffix is behind the first label, where the table still points to the front
              have hbefore' : ∀ s i, tbl s = some i → i < pos + 1 + l.length := by
                intro s i hs
                have hi := hbefore s i hs
                omega
              obtain ⟨hle, hlt, ms, hms, hne', hdotted, hdecode⟩ :=
                ih (fun k hk => hls k (List.mem_cons_of_mem l hk)) _ hbefore' hholds.2 (by omega) e
                  htail
              exact ⟨by omega, by omega, ms, hms.trans (List.suffix_cons l ls), hne', hdotted, hdecode⟩

end Bklib.Lib
