import Bklib.Lib.NameChain
import Bklib.Proofs.DnsName
import Bklib.Proofs.DnsUnpack

/-!
# `Bklib.Proofs.DnsChain`: the names that `dns_unpack_name` reads

The second byte of a pointer is a signed `char`, so only offsets whose low byte is below 128 are read
back as they were written, and offset 0 is refused (`PointerReads`). The reader follows at most 99
pointers. A name that takes no more, all to such offsets, is read whole (`scan_of_chain`).
-/

set_option autoImplicit false

namespace Bklib

open Bklib.Lib

/-- The offsets that a pointer can lead to. -/
def PointerReads (i : Nat) : Prop := 0 < i ∧ i % 256 < 128

/-- The two bytes of a pointer that reads are read as its target. -/
theorem dnsPtrValue_pointerBytes {i : Nat} (hi : i < 16384) (hreads : PointerReads i) :
    dnsPtrValue (UInt8.ofNat (i / 256) ||| 192) (UInt8.ofNat i) = i := by
  have hnat := toNat_pointer_hi (show i / 256 < 64 by omega)
  have hlo : (UInt8.ofNat i).toNat = i % 256 := UInt8.toNat_ofNat'
  have hsmall : UInt8.ofNat i < 128 := by
    rw [UInt8.lt_iff_toNat_lt, hlo]
    exact hreads.2
  rw [dnsPtrValue, if_pos hsmall, hnat, hlo]
  omega

/-! ### Text -/

/-- The text of a name that is read behind `dst`. -/
def dottedBehind (dst : List UInt8) (ls : List Label) : List UInt8 :=
  if ls = [] then dst else dst ++ dotFor dst ++ dotted ls

/-- Behind nothing the labels are joined as they are. -/
theorem dottedBehind_nil (ls : List Label) : dottedBehind [] ls = dotted ls := by
  unfold dottedBehind
  split
  · rename_i h
    rw [h]
    rfl
  · rfl

/-- A label, and the rest of the name behind it. -/
theorem dottedBehind_cons (dst : List UInt8) {l : Label} (hl : l.Ok) (ls : List Label) :
    dottedBehind (dst ++ dotFor dst ++ l) ls = dottedBehind dst (l :: ls) := by
  have hpos := hl.pos
  have hne : dst ++ dotFor dst ++ l ≠ [] := by
    intro h
    have hlen := congrArg List.length h
    rw [List.length_append, List.length_nil] at hlen
    omega
  have hcons : dottedBehind dst (l :: ls) = dst ++ dotFor dst ++ dotted (l :: ls) :=
    if_neg (List.cons_ne_nil l ls)
  rw [hcons]
  cases ls with
  | nil => rfl
  | cons k ls =>
      have hdot : dotFor (dst ++ dotFor dst ++ l) = [46] := if_neg hne
      have hrest : dottedBehind (dst ++ dotFor dst ++ l) (k :: ls)
          = dst ++ dotFor dst ++ l ++ [46] ++ dotted (k :: ls) := by
        rw [dottedBehind, if_neg (List.cons_ne_nil k ls), hdot]
      rw [hrest, dotted]
      simp [dot]

/-- The text only gets longer. -/
theorem length_le_dottedBehind (dst : List UInt8) (ls : List Label) :
    dst.length ≤ (dottedBehind dst ls).length := by
  unfold dottedBehind
  split
  · exact Nat.le_refl _
  · rw [List.append_assoc, List.length_append]
    exact Nat.le_add_right _ _

/-- Text without a NUL is copied as it is. -/
theorem strncpy_of_noNul {mem : Int → UInt8} {a : Int} {l : List UInt8}
    (hread : readAt mem a l.length = l) (hzero : (0 : UInt8) ∉ l) :
    strncpyText mem a l.length = l ∧ strncpyLen mem a l.length = l.length := by
  unfold strncpyText strncpyLen
  rw [hread, cstr_eq_self hzero, Nat.sub_self]
  exact ⟨List.append_nil l, by omega⟩

/-! ### Cells -/

/-- Cells that hold bytes are read from the message. -/
theorem readAt_of_holds {m : Nat → Option UInt8} {mem : Int → UInt8} {buf : Int}
    (hle : ∀ i b, m i = some b → mem (buf + i) = b) {bs : List UInt8} :
    ∀ {o : Nat}, Holds m o bs → readAt mem (buf + o) bs.length = bs := by
  induction bs with
  | nil => intro o _; rfl
  | cons b bs ih =>
      intro o h
      obtain ⟨hcell, hrest⟩ := holds_cons.mp h
      rw [List.length_cons, readAt_succ, hle o b hcell,
        show buf + (o : Int) + 1 = buf + ((o + 1 : Nat) : Int) by push_cast; omega, ih hrest]

/-- A cell of the message is its byte, inside the buffer. -/
theorem Dns.mem_of_cells {dns : Dns} {m : Nat → Option UInt8} (hle : CellsLe m dns.cells) :
    ∀ i b, m i = some b → dns.mem (dns.buf + i) = b ∧ dns.buf + i < dns.bufEnd := by
  intro i b hb
  have hcell := hle i b hb
  unfold Dns.cells at hcell
  split at hcell
  · rename_i hlt
    exact ⟨Option.some.inj hcell, hlt⟩
  · exact absurd hcell (by simp)

/-! ### Names -/

/-- A chain that takes less than `ptrMax` pointers is read. Induction on the chain. -/
theorem scan_of_chain {dns : Dns} {m : Nat → Option UInt8} (hle : CellsLe m dns.cells)
    {j o e : Nat} {ls : List Label} (h : NameChain m PointerReads j o ls e) :
    ∀ (ptrMax stop : Int) (dst : List UInt8), (∀ l ∈ ls, (0 : UInt8) ∉ l) → j < ptrMax →
      dns.buf + e ≤ stop → stop ≤ dns.bufEnd → (dottedBehind dst ls).length < dnsNameMax →
      dns.scan ptrMax (dns.buf + o) stop dst = .ends (dns.buf + e) (dottedBehind dst ls) := by
  have hmem : ∀ i b, m i = some b → dns.mem (dns.buf + i) = b := fun i b hb =>
    (Dns.mem_of_cells hle i b hb).1
  have hknown : ∀ i b, m i = some b → i < (dns.bufEnd - dns.buf).toNat := fun i b hb => by
    have := (Dns.mem_of_cells hle i b hb).2
    omega
  induction h with
  | @root o hroot =>
      intro ptrMax stop dst _ _ hstop hend _
      have hsrc : dns.buf + (o : Int) < stop := by push_cast at hstop; omega
      rw [Dns.scan, scanName, if_neg (not_not.mpr hsrc)]
      simp only [hmem o 0 hroot, if_true]
      rw [show dns.buf + ((o + 1 : Nat) : Int) = dns.buf + o + 1 by push_cast; omega]
      rfl
  | @label j o e l ls hl hholds hrest ih =>
      intro ptrMax stop dst hzero hptr hstop hend hlen
      have hlt := hrest.lt_end
      obtain ⟨hcell, htext⟩ := holds_cons.mp hholds
      have hread := readAt_of_holds hmem htext
      -- no NUL in the label, so that `strncpy` copies all of it
      obtain ⟨hcopy, hcopied⟩ := strncpy_of_noNul hread (hzero l List.mem_cons_self)
      obtain ⟨hnat, hne, hbelow⟩ := hl.lengthByte
      have hsmall : ¬UInt8.ofNat l.length &&& 192 ≠ 0 := by
        rw [and_192_ne_zero_iff, UInt8.not_le]
        exact hbelow
      rw [← dottedBehind_cons dst hl ls] at hlen ⊢
      have hroom := length_le_dottedBehind (dst ++ dotFor dst ++ l) ls
      have hnext := ih ptrMax stop (dst ++ dotFor dst ++ l)
        (fun k hk => hzero k (List.mem_cons_of_mem l hk)) hptr hstop hend hlen
      rw [List.length_append] at hroom
      have haddr : dns.buf + ((o + 1 : Nat) : Int) = dns.buf + o + 1 := by push_cast; omega
      rw [haddr] at hcopy hcopied
      rw [Dns.scan, scanName, if_neg (by omega)]
      simp only [hmem o _ hcell, if_neg hne, if_neg hsmall, hnat, hcopy, hcopied]
      rw [if_neg (by omega), if_neg (by omega)]
      rw [← hnext]
      congr 1
      push_cast
      omega
  | @pointer j o i e ls hi hreads hholds hrest ih =>
      intro ptrMax stop dst hzero hptr hstop hend hlen
      obtain ⟨hhi, hlo⟩ := holds_cons.mp hholds
      obtain ⟨hlo, -⟩ := holds_cons.mp hlo
      have hlo' := hmem (o + 1) _ hlo
      rw [show dns.buf + ((o + 1 : Nat) : Int) = dns.buf + o + 1 by push_cast; omega] at hlo'
      have hvalue := dnsPtrValue_pointerBytes hi hreads
      obtain ⟨hne, hbelow, -⟩ := pointerByte hi
      have hcell := hmem o _ hhi
      have hpointer : (UInt8.ofNat (i / 256) ||| 192) &&& 192 ≠ 0 := by
        rw [and_192_ne_zero_iff, ← UInt8.not_lt]
        exact hbelow
      have hpos := hreads.1
      push_cast at hstop
      have hin := hrest.end_le hknown
      -- a pointer costs one of `ptr_max`, and its target may go on up to the end of the buffer
      have hnext := ih (ptrMax - 1) dns.bufEnd dst hzero (by push_cast at hptr; omega) (by omega)
        (Int.le_refl _) hlen
      rw [Dns.scan, scanName, if_neg (by omega)]
      simp only [hcell, if_neg hne, if_pos hpointer, hlo', hvalue]
      rw [if_neg (by push_cast at hptr; omega)]
      rw [Dns.scan] at hnext
      rw [hnext, NameScan.behind]
      congr 1
      push_cast
      omega

/-- A text without a NUL has labels without one. -/
theorem noNul_of_dotted {ls : List Label} (h : (0 : UInt8) ∉ dotted ls) :
    ∀ l ∈ ls, (0 : UInt8) ∉ l := by
  induction ls with
  | nil => simp
  | cons l ls ih =>
      cases ls with
      | nil => simpa [dotted] using h
      | cons k ls =>
          rw [dotted, List.mem_append, List.mem_cons, not_or, not_or] at h
          exact List.forall_mem_cons.mpr ⟨h.1, ih h.2.2⟩

/-- The name `s` stands between `o` and `e`, and can be read. -/
def NameAt (m : Nat → Option UInt8) (o : Nat) (s : List UInt8) (e : Nat) : Prop :=
  ∃ j ls, s = dotted ls ∧ (0 : UInt8) ∉ s ∧ s.length < dnsNameMax ∧ j ≤ 99 ∧
    NameChain m PointerReads j o ls e

theorem NameAt.mono {m m' : Nat → Option UInt8} {o e : Nat} {s : List UInt8} (h : NameAt m o s e)
    (hle : CellsLe m m') : NameAt m' o s e := by
  obtain ⟨j, ls, hs, hzero, hlen, hj, hchain⟩ := h
  exact ⟨j, ls, hs, hzero, hlen, hj, hchain.mono hle⟩

section
variable {dns : Dns} {m : Nat → Option UInt8}

/-- A name is read. -/
theorem scan_of_nameAt (hle : CellsLe m dns.cells) {o e : Nat} {s : List UInt8} (h : NameAt m o s e)
    {stop : Int} (hstop : dns.buf + e ≤ stop) (hend : stop ≤ dns.bufEnd) :
    dns.scan 100 (dns.buf + o) stop [] = .ends (dns.buf + e) s := by
  obtain ⟨j, ls, rfl, hzero, hlen, hj, hchain⟩ := h
  have hscan := scan_of_chain hle hchain 100 stop [] (noNul_of_dotted hzero) (by omega) hstop hend
    (by rw [dottedBehind_nil]; exact hlen)
  rwa [dottedBehind_nil] at hscan

theorem NameAt.noNul {o e : Nat} {s : List UInt8} (h : NameAt m o s e) : (0 : UInt8) ∉ s := by
  obtain ⟨_, _, _, hzero, -⟩ := h
  exact hzero

/-- A name of the message ends inside the buffer. -/
theorem NameAt.end_le (hle : CellsLe m dns.cells) {o e : Nat} {s : List UInt8} (h : NameAt m o s e) :
    o < e ∧ dns.buf + e ≤ dns.bufEnd := by
  obtain ⟨_, _, _, _, _, _, hchain⟩ := h
  have hend := hchain.end_le fun i b hb => (show i < (dns.bufEnd - dns.buf).toNat by
    have := (Dns.mem_of_cells hle i b hb).2
    omega)
  have hlt := hchain.lt_end
  exact ⟨hlt, by omega⟩

end

/-! ### Names that are read back -/

/-- A name that can be written so that it is read back: its labels are in order, and the suffix that
it will point to can be reached. -/
structure NameReadable (tbl : SuffixTable) (m : Nat → Option UInt8) (s : List UInt8) : Prop where
  labels : ∃ ls : List Label, (∀ l ∈ ls, l.Ok) ∧ s = dotted ls
  noNul : (0 : UInt8) ∉ s
  short : s.length < dnsNameMax
  pointer : ∀ i, knownSuffix tbl s = some i →
    i < 16384 ∧ i % 256 < 128 ∧ namePointers m 256 i < 99

/-- The pointers of the name `s` when it has been written. -/
def nameHops (tbl : SuffixTable) (m : Nat → Option UInt8) (s : List UInt8) : Nat :=
  match knownSuffix tbl s with
  | some i => namePointers m 256 i + 1
  | none   => 0

section
variable {tbl : SuffixTable} {m m' : Nat → Option UInt8} {s : List UInt8} {o : Nat}

/-- A short name has few labels. -/
theorem length_labels_short {ls : List Label} (hls : ∀ l ∈ ls, l.Ok)
    (hshort : (dotted ls).length < dnsNameMax) : ls.length ≤ 128 := by
  have hle := length_labels_le hls
  unfold dnsNameMax at hshort
  omega

/-- An offset of the table takes as many pointers in a message that has more cells. -/
theorem namePointers_mono (htbl : tbl.Chained m PointerReads) (hle : CellsLe m m')
    {k : List UInt8} {i : Nat} (hk : tbl k = some i) (hshort : k.length < dnsNameMax)
    (hhops : namePointers m 256 i < 99) : namePointers m' 256 i ≤ namePointers m 256 i := by
  obtain ⟨j, ls, e, hls, rfl, hchain⟩ := htbl k i hk
  have hfew := length_labels_short hls hshort
  rw [← hchain.eq_namePointers (show namePointers m 256 _ < 256 - ls.length by omega)]
  exact (hchain.mono hle).namePointers_le 256

/-- What `PointersOver` says about a name that is readable. -/
theorem NameReadable.le_nameHops (hs : NameReadable tbl m s) (htbl : tbl.Chained m PointerReads)
    (hle : CellsLe m m') {j : Nat} (h : PointersOver tbl m' PointerReads s j) :
    j ≤ nameHops tbl m s := by
  obtain ⟨ls, hls, rfl⟩ := hs.labels
  rcases h with rfl | ⟨i, k, ms, e, hknown, rfl, hchain, hlen⟩
  · exact Nat.zero_le _
  · have hfew := length_labels_short hls hs.short
    rw [nameLabels_dotted hls] at hlen
    obtain ⟨-, -, hhops⟩ := hs.pointer i hknown
    obtain ⟨k', hk', hk'le⟩ := mem_of_knownSuffix hknown
    have hmono := namePointers_mono htbl hle hk' (Nat.lt_of_le_of_lt hk'le hs.short) hhops
    have hcount := hchain.eq_namePointers (show namePointers m' 256 i < 256 - ms.length by omega)
    unfold nameHops
    rw [hknown]
    show k + 1 ≤ namePointers m 256 i + 1
    omega

theorem NameReadable.nameHops_le (hs : NameReadable tbl m s) : nameHops tbl m s ≤ 99 := by
  unfold nameHops
  cases hknown : knownSuffix tbl s with
  | none => exact Nat.zero_le _
  | some i => exact (hs.pointer i hknown).2.2

/-- The offset of a known suffix can be reached. -/
theorem NameReadable.reach (hs : NameReadable tbl m s) (htbl : tbl.Chained m PointerReads)
    (hpos : ∀ i b, m i = some b → 0 < i) {i : Nat} (hknown : knownSuffix tbl s = some i) :
    i < 16384 ∧ PointerReads i := by
  obtain ⟨hi, hlow, -⟩ := hs.pointer i hknown
  obtain ⟨k, hk, -⟩ := mem_of_knownSuffix hknown
  obtain ⟨_, _, _, -, -, hchain⟩ := htbl k i hk
  obtain ⟨b, hb⟩ := hchain.start
  exact ⟨hi, hpos i b hb, hlow⟩

/-- A readable name that has been written at `o` can be read, and so can its suffixes, which take no
more pointers. -/
theorem NameReadable.written (hs : NameReadable tbl m s) (htbl : tbl.Chained m PointerReads)
    (hle : CellsLe m m') (hpos : ∀ i b, m i = some b → 0 < i)
    (hholds : Holds m' o (compressed tbl s)) :
    NameAt m' o s (o + (compressed tbl s).length) ∧
      (tbl.extend o s).Chained m' PointerReads ∧
      ∀ k i, (k, i) ∈ suffixOffsets tbl o s → o ≤ i ∧ namePointers m' 256 i ≤ nameHops tbl m s := by
  have hreach := fun i => hs.reach htbl hpos (i := i)
  obtain ⟨ls, hls, hdotted⟩ := hs.labels
  have htbl' : tbl.Chained m' PointerReads := by
    intro k i hk
    obtain ⟨j, ms, e, hms, hkd, hchain⟩ := htbl k i hk
    exact ⟨j, ms, e, hms, hkd, hchain.mono hle⟩
  obtain ⟨j, hchain, hover⟩ := chain_compressed htbl' hls o (hdotted ▸ hholds)
    fun i hi => hreach i (hdotted ▸ hi)
  have hoffsets := chain_suffixOffsets htbl' hls o (hdotted ▸ hholds)
    fun i hi => hreach i (hdotted ▸ hi)
  rw [← hdotted] at hchain hover hoffsets
  refine ⟨⟨j, ls, hdotted, hs.noNul, hs.short, ?_, hchain⟩, ?_, ?_⟩
  · exact Nat.le_trans (hs.le_nameHops htbl hle hover) hs.nameHops_le
  · intro k i hk
    rcases SuffixTable.extend_eq_some hk with hnew | hold
    · obtain ⟨-, -, j', ms, e, hsuffix, rfl, hchain', -⟩ := hoffsets k i hnew
      exact ⟨j', ms, e, fun l hl => hls l (hsuffix.subset hl), rfl, hchain'⟩
    · exact htbl' k i hold
  · intro k i hmem
    obtain ⟨hge, -, j', ms, e, -, -, hchain', hover'⟩ := hoffsets k i hmem
    exact ⟨hge, Nat.le_trans (hchain'.namePointers_le 256) (hs.le_nameHops htbl hle hover')⟩

/-- The second name of a record can be read back: it may point into the first one, `s` at `o`. -/
structure DataReadable (tbl : SuffixTable) (m : Nat → Option UInt8) (o : Nat) (s s' : List UInt8) :
    Prop where
  labels : ∃ ls : List Label, (∀ l ∈ ls, l.Ok) ∧ s' = dotted ls
  noNul : (0 : UInt8) ∉ s'
  short : s'.length < dnsNameMax
  pointer : ∀ i, knownSuffix (tbl.extend o s) s' = some i →
    i < 16384 ∧ i % 256 < 128 ∧ (if i < o then namePointers m 256 i else nameHops tbl m s) < 99

/-- A name written behind everything read so far is a readable name of the table with its suffixes.
-/
theorem DataReadable.nameReadable {s' : List UInt8} (h : DataReadable tbl m o s s')
    (hs : NameReadable tbl m s) (htbl : tbl.Chained m PointerReads) (hle : CellsLe m m')
    (hpos : ∀ i b, m i = some b → 0 < i) (hbefore : ∀ i b, m i = some b → i < o)
    (hholds : Holds m' o (compressed tbl s)) : NameReadable (tbl.extend o s) m' s' := by
  obtain ⟨-, -, hoffsets⟩ := hs.written htbl hle hpos hholds
  refine ⟨h.labels, h.noNul, h.short, fun i hi => ?_⟩
  obtain ⟨hlt, hlow, hhops⟩ := h.pointer i hi
  refine ⟨hlt, hlow, ?_⟩
  obtain ⟨k, hk, hkle⟩ := mem_of_knownSuffix hi
  rcases SuffixTable.extend_eq_some hk with hnew | hold
  · obtain ⟨hge, hcount⟩ := hoffsets k i hnew
    rw [if_neg (by omega)] at hhops
    omega
  · -- The offset was there before, so it leads in front of the name.
    obtain ⟨_, _, _, -, -, hchain⟩ := htbl k i hold
    obtain ⟨b, hb⟩ := hchain.start
    rw [if_pos (hbefore i b hb)] at hhops
    have hmono := namePointers_mono htbl hle hold (Nat.lt_of_le_of_lt hkle h.short) hhops
    omega

end

end Bklib
