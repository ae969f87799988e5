import Bklib.Proofs.DnsPacking
import Bklib.Proofs.DnsQuery

/-!
# `Bklib.Proofs.DnsRoundTrip`: messages that are packed and read back

The header is written last, in front of the records (`dnsPack_word`), and the counts in it tell the
sections of the records apart when they come in order (`ReadOrder.rrSection`). The reader counts the
records in a byte, so it takes no more than 255 of them.

`dnsReadRrs_recordsAt` is the run lemma of the reader. A record whose data is a name can only be the
last one, as `ptr` is not where such a record ends.
-/

set_option autoImplicit false

namespace Bklib

open Bklib.Lib

/-! ### The header -/

/-- The second word of the header. -/
def Dns.flags (dns : Dns) : UInt16 :=
  packBits (packBits (packBits (packBits (packBits (packBits (packBits (packBits 0 dns.qr 1 15)
    dns.opcode 4 11) dns.aa 1 10) dns.tc 1 9) dns.rd 1 8) dns.ra 1 7) dns.x3 3 4) dns.rcode 4 0

/-- A word in network order. -/
theorem word_put16 (m : Int → UInt8) (a : Int) (v : UInt16) :
    UInt16.ofNat (htons (get16 (put16 m a (htons v.toNat)) a)) = v := by
  rw [get16_put16 _ a (htons_lt v.toNat), htons_htons v.toNat_lt, UInt16.ofNat_toNat]

/-- What `dns_pack` writes. -/
theorem dnsPack_mem (dns : Dns) :
    (dnsPack dns).1.mem =
      put16 (put16 (put16 (put16 (put16 (put16 dns.mem dns.buf (htons (UInt16.ofInt dns.id).toNat))
        (dns.buf + 2) (htons dns.flags.toNat))
        (dns.buf + 4) (htons (UInt16.ofInt dns.qrcount).toNat))
        (dns.buf + 6) (htons (UInt16.ofInt dns.ancount).toNat))
        (dns.buf + 8) (htons (UInt16.ofInt dns.nscount).toNat))
        (dns.buf + 10) (htons (UInt16.ofInt dns.arcount).toNat) := rfl

/-- The words of the header that `dns_pack` has written. -/
theorem dnsPack_word (dns : Dns) {dns' : Dns} (hmem : dns'.mem = (dnsPack dns).1.mem)
    (hbuf : dns'.buf = dns.buf) :
    dns'.word 0 = UInt16.ofInt dns.id ∧ dns'.word 2 = dns.flags ∧
      dns'.word 4 = UInt16.ofInt dns.qrcount ∧ dns'.word 6 = UInt16.ofInt dns.ancount ∧
      dns'.word 8 = UInt16.ofInt dns.nscount ∧ dns'.word 10 = UInt16.ofInt dns.arcount := by
  unfold Dns.word
  rw [hmem, hbuf, dnsPack_mem]
  refine ⟨?_, ?_, ?_, ?_, ?_, word_put16 _ _ _⟩
  · rw [get16_put16_of_disjoint _ _ (by omega), get16_put16_of_disjoint _ _ (by omega),
      get16_put16_of_disjoint _ _ (by omega), get16_put16_of_disjoint _ _ (by omega),
      get16_put16_of_disjoint _ _ (by omega), Int.add_zero, word_put16]
  · rw [get16_put16_of_disjoint _ _ (by omega), get16_put16_of_disjoint _ _ (by omega),
      get16_put16_of_disjoint _ _ (by omega), get16_put16_of_disjoint _ _ (by omega), word_put16]
  · rw [get16_put16_of_disjoint _ _ (by omega), get16_put16_of_disjoint _ _ (by omega),
      get16_put16_of_disjoint _ _ (by omega), word_put16]
  · rw [get16_put16_of_disjoint _ _ (by omega), get16_put16_of_disjoint _ _ (by omega), word_put16]
  · rw [get16_put16_of_disjoint _ _ (by omega), word_put16]

/-- Behind the header nothing has changed. -/
theorem dnsPack_mem_of_ge (dns : Dns) {a : Int} (ha : dns.buf + 12 ≤ a) :
    (dnsPack dns).1.mem a = dns.mem a := by
  rw [dnsPack_mem, put16_of_outside _ _ (Or.inr (by omega)), put16_of_outside _ _ (Or.inr (by omega)),
    put16_of_outside _ _ (Or.inr (by omega)), put16_of_outside _ _ (Or.inr (by omega)),
    put16_of_outside _ _ (Or.inr (by omega)), put16_of_outside _ _ (Or.inr (by omega))]

/-- A message that has been packed, received at the same place. -/
theorem dnsReceive_dnsPack (dns : Dns) :
    let got := dnsReceive (dnsPack dns).1.mem dns.buf (dnsPack dns).2
    got.id = (UInt16.ofInt dns.id).toNat ∧ got.qr = unpackBits dns.flags 1 15 ∧
      got.opcode = unpackBits dns.flags 4 11 ∧ got.rd = unpackBits dns.flags 1 8 ∧
      got.qrcount = (UInt16.ofInt dns.qrcount).toNat ∧
      got.ancount = (UInt16.ofInt dns.ancount).toNat ∧
      got.nscount = (UInt16.ofInt dns.nscount).toNat ∧
      got.arcount = (UInt16.ofInt dns.arcount).toNat ∧
      got.mem = (dnsPack dns).1.mem ∧ got.buf = dns.buf ∧ got.bufEnd = dns.ptr ∧
      got.ptr = dns.buf + 12 ∧ got.rrIdx = 0 := by
  intro got
  obtain ⟨hheader, hid, hmem, hbuf, hend, hptr, -⟩ :=
    dnsUnpack_header (dnsInit (dnsPack dns).1.mem dns.buf (dnsPack dns).2).1
  have hgot : (dnsUnpack (dnsInit (dnsPack dns).1.mem dns.buf (dnsPack dns).2).1).1 = got := rfl
  rw [hgot] at hheader hid hmem hbuf hend hptr
  obtain ⟨h0, -⟩ := dnsPack_word dns
    (show (dnsInit (dnsPack dns).1.mem dns.buf (dnsPack dns).2).1.mem = _ from rfl) rfl
  obtain ⟨-, h2, h4, h6, h8, h10⟩ := dnsPack_word dns hmem hbuf
  refine ⟨by rw [hid, h0], ?_, ?_, ?_, ?_, ?_, ?_, ?_, hmem, hbuf, ?_, hptr, rfl⟩
  · rw [hheader.qr, h2]
  · rw [hheader.opcode, h2]
  · rw [hheader.rd, h2]
  · rw [hheader.qrcount, h4]
  · rw [hheader.ancount, h6]
  · rw [hheader.nscount, h8]
  · rw [hheader.arcount, h10]
  · rw [hend]
    show dns.buf + (dns.ptr - dns.buf) = dns.ptr
    omega

/-- The records are received as they were packed. -/
theorem packed_le_received (dns : Dns) :
    CellsLe dns.packed (dnsReceive (dnsPack dns).1.mem dns.buf (dnsPack dns).2).cells := by
  obtain ⟨-, -, -, -, -, -, -, -, hmem, hbuf, hend, -, -⟩ := dnsReceive_dnsPack dns
  intro i b hb
  unfold Dns.packed at hb
  split at hb
  · rename_i hin
    rw [Dns.cells, hbuf, hend, hmem, if_pos hin.2, dnsPack_mem_of_ge dns (by omega)]
    exact hb
  · exact absurd hb (by simp)

/-! ### Sections -/

/-- How many of the records are in a section up to this one. -/
def sectionsUpTo (rrs : List DnsRr) (rrSection : Int) : Nat :=
  rrs.countP fun rr => rr.rrSection ≤ rrSection

/-- A record in front counts in its own section. -/
theorem sectionCount_cons (rr : DnsRr) (rrs : List DnsRr) (rrSection : Int) :
    sectionCount (rr :: rrs) rrSection
      = sectionCount rrs rrSection + if rr.rrSection = rrSection then 1 else 0 := by
  unfold sectionCount
  rw [List.countP_cons]
  simp

/-- It counts for every section from its own on. -/
theorem sectionsUpTo_cons (rr : DnsRr) (rrs : List DnsRr) (rrSection : Int) :
    sectionsUpTo (rr :: rrs) rrSection
      = sectionsUpTo rrs rrSection + if rr.rrSection ≤ rrSection then 1 else 0 := by
  unfold sectionsUpTo
  rw [List.countP_cons]
  simp

theorem DnsRr.section_of_counted {rr : DnsRr} (h : rr.counted = true) :
    rr.rrSection = 1 ∨ rr.rrSection = 2 ∨ rr.rrSection = 3 ∨ rr.rrSection = 4 := of_decide_eq_true h

/-- The sums of the counts. -/
theorem sectionCounts_sum {rrs : List DnsRr} (h : ∀ rr ∈ rrs, rr.counted = true) :
    sectionCount rrs DNS_RR_QUESTION = sectionsUpTo rrs 1 ∧
      sectionCount rrs DNS_RR_QUESTION + sectionCount rrs DNS_RR_ANSWER = sectionsUpTo rrs 2 ∧
      sectionCount rrs DNS_RR_QUESTION + sectionCount rrs DNS_RR_ANSWER
        + sectionCount rrs DNS_RR_AUTHORITY = sectionsUpTo rrs 3 ∧
      sectionCount rrs DNS_RR_QUESTION + sectionCount rrs DNS_RR_ANSWER
        + sectionCount rrs DNS_RR_AUTHORITY + sectionCount rrs DNS_RR_ADDITIONAL = rrs.length := by
  induction rrs with
  | nil => exact ⟨rfl, rfl, rfl, rfl⟩
  | cons rr rrs ih =>
      obtain ⟨h1, h2, h3, h4⟩ := ih fun k hk => h k (List.mem_cons_of_mem rr hk)
      simp only [sectionCount_cons, sectionsUpTo_cons, List.length_cons, DNS_RR_QUESTION,
        DNS_RR_ANSWER, DNS_RR_AUTHORITY, DNS_RR_ADDITIONAL] at *
      rcases DnsRr.section_of_counted (h rr List.mem_cons_self) with hs | hs | hs | hs <;> rw [hs] <;>
        simp <;> omega

/-- The reader has read `before` and has `rrs` to go: the counts are theirs, and they are in order. -/
structure ReadOrder (dns : Dns) (before rrs : List DnsRr) : Prop where
  idx : dns.rrIdx.toNat = before.length
  short : (before ++ rrs).length ≤ 255
  sorted : (before ++ rrs).Pairwise fun rr rr' => rr.rrSection ≤ rr'.rrSection
  counted : ∀ rr ∈ before ++ rrs, rr.counted = true
  qrcount : dns.qrcount = sectionCount (before ++ rrs) DNS_RR_QUESTION
  ancount : dns.ancount = sectionCount (before ++ rrs) DNS_RR_ANSWER
  nscount : dns.nscount = sectionCount (before ++ rrs) DNS_RR_AUTHORITY
  arcount : dns.arcount = sectionCount (before ++ rrs) DNS_RR_ADDITIONAL

/-- The index is in the section of the next record. -/
theorem ReadOrder.rrSection {dns : Dns} {before rrs : List DnsRr} {rr : DnsRr}
    (h : ReadOrder dns before (rr :: rrs)) : dnsRrSection dns = some rr.rrSection := by
  have hidx := h.idx
  obtain ⟨-, hrest, hcross⟩ := List.pairwise_append.mp h.sorted
  -- All the records before are in a section up to this one, and none behind is in one before it.
  have hle : ∀ s, rr.rrSection ≤ s →
      before.length + 1 ≤ sectionsUpTo (before ++ rr :: rrs) s := by
    intro s hs
    unfold sectionsUpTo
    rw [List.countP_append, List.countP_cons, List.countP_eq_length.mpr, if_pos (decide_eq_true hs)]
    · omega
    · intro rr' hrr'
      exact decide_eq_true (Int.le_trans (hcross rr' hrr' rr List.mem_cons_self) hs)
  have hge : ∀ s, s < rr.rrSection → sectionsUpTo (before ++ rr :: rrs) s ≤ before.length := by
    intro s hs
    unfold sectionsUpTo
    have hnone : (rr :: rrs).countP (fun rr => decide (rr.rrSection ≤ s)) = 0 := by
      rw [List.countP_eq_zero]
      intro rr' hrr'
      rcases List.mem_cons.mp hrr' with rfl | hmem
      · simpa using hs
      · have := (List.pairwise_cons.mp hrest).1 rr' hmem
        simp only [decide_eq_true_eq]
        omega
    rw [List.countP_append, hnone]
    exact List.countP_le_length
  obtain ⟨h1, h2, h3, h4⟩ := sectionCounts_sum h.counted
  have hlen : (before ++ rr :: rrs).length = before.length + (rrs.length + 1) := by simp
  unfold dnsRrSection
  rw [h.qrcount, h.ancount, h.nscount, h.arcount, hidx]
  generalize sectionCount (before ++ rr :: rrs) DNS_RR_QUESTION = qr at *
  generalize sectionCount (before ++ rr :: rrs) DNS_RR_ANSWER = an at *
  generalize sectionCount (before ++ rr :: rrs) DNS_RR_AUTHORITY = ns at *
  generalize sectionCount (before ++ rr :: rrs) DNS_RR_ADDITIONAL = ar at *
  rcases DnsRr.section_of_counted (h.counted rr (by simp)) with hs | hs | hs | hs
  · have := hle 1 (by omega)
    rw [if_pos (by omega), hs]
    rfl
  · have := hle 2 (by omega)
    have := hge 1 (by omega)
    rw [if_neg (by omega), if_pos (by omega), hs]
    rfl
  · have := hle 3 (by omega)
    have := hge 2 (by omega)
    have := hge 1 (by omega)
    rw [if_neg (by omega), if_neg (by omega), if_pos (by omega), hs]
    rfl
  · have := hge 3 (by omega)
    have := hge 2 (by omega)
    have := hge 1 (by omega)
    rw [if_neg (by omega), if_neg (by omega), if_neg (by omega), if_pos (by omega), hs]
    rfl

/-- Behind the last record there is no section. -/
theorem ReadOrder.done {dns : Dns} {before : List DnsRr} (h : ReadOrder dns before []) :
    dnsRrSection dns = none := by
  obtain ⟨-, -, -, h4⟩ := sectionCounts_sum h.counted
  rw [List.append_nil] at h4
  unfold dnsRrSection
  rw [h.qrcount, h.ancount, h.nscount, h.arcount, h.idx, List.append_nil]
  rw [if_neg (by omega), if_neg (by omega), if_neg (by omega), if_neg (by omega)]

/-- Once a record is read, the order goes on with the rest. -/
theorem ReadOrder.next {dns dns' : Dns} {before rrs : List DnsRr} {rr : DnsRr}
    (h : ReadOrder dns before (rr :: rrs)) (hidx : dns'.rrIdx = dns.rrIdx + 1)
    (hqr : dns'.qrcount = dns.qrcount) (han : dns'.ancount = dns.ancount)
    (hns : dns'.nscount = dns.nscount) (har : dns'.arcount = dns.arcount) :
    ReadOrder dns' (before ++ [rr]) rrs := by
  have happ : before ++ [rr] ++ rrs = before ++ rr :: rrs := by simp
  have hshort := h.short
  have hlen : (before ++ rr :: rrs).length = before.length + (rrs.length + 1) := by simp
  refine ⟨?_, happ ▸ h.short, happ ▸ h.sorted, happ ▸ h.counted, ?_, ?_, ?_, ?_⟩
  · have hbefore := h.idx
    rw [hidx, UInt8.toNat_add, hbefore, List.length_append]
    show (before.length + 1) % 256 = before.length + 1
    omega
  · rw [happ, hqr, h.qrcount]
  · rw [happ, han, h.ancount]
  · rw [happ, hns, h.nscount]
  · rw [happ, har, h.arcount]

/-! ### The reader -/

/-- `dns_rr_pack` with `PACK_NET2HOST` until it returns 0, `fuel` calls at most: the records, or
`none` when a call fails. -/
def dnsReadRrs : Nat → Dns → Option (List DnsRr)
  | 0,        _   => none
  | fuel + 1, dns =>
      let (dns, rr, i) := dnsRrUnpack dns
      if i < 0 then none
      else if i = 0 then some []
      else (dnsReadRrs fuel dns).map (rr :: ·)

/-- Where no section has a record left, none is read. -/
theorem dnsReadRrs_done {dns : Dns} (h : dnsRrSection dns = none) (fuel : Nat) :
    dnsReadRrs (fuel + 1) dns = some [] := by
  have hcall : dnsRrUnpack dns = (dns, DnsRr.zero, 0) := by
    unfold dnsRrUnpack
    rw [h]
  rw [dnsReadRrs, hcall]
  rfl

/-- A record starts inside the message. -/
theorem RecordAt.start_lt {dns : Dns} {m : Nat → Option UInt8} (hle : CellsLe m dns.cells) {o o' : Nat}
    {rr : DnsRr} (h : RecordAt m o rr o') : dns.buf + o < dns.bufEnd := by
  have hname : ∃ e, NameAt m o rr.name e := by
    cases h with
    | question _ hname _ => exact ⟨_, hname⟩
    | resource _ hname _ _ _ => exact ⟨_, hname⟩
  obtain ⟨e, hname⟩ := hname
  obtain ⟨hlt, hend⟩ := hname.end_le hle
  omega

/-- Behind a record whose data is a name there is no other. -/
def NameDataLast (rrs : List DnsRr) : Prop :=
  ∀ rr ∈ rrs.dropLast, rr.rrSection = DNS_RR_QUESTION ∨ rr.hasName = false

/-- The records of a message are read back. Induction on the records. -/
theorem dnsReadRrs_recordsAt {m : Nat → Option UInt8} (rrs : List DnsRr) :
    ∀ {dns : Dns} {before : List DnsRr} {o o' : Nat}, MessageOk dns → CellsLe m dns.cells →
      RecordsAt m o rrs o' → dns.ptr = dns.buf + o → ReadOrder dns before rrs → NameDataLast rrs →
      ∃ got, dnsReadRrs (rrs.length + 1) dns = some got ∧
        got.map DnsRr.content = rrs.map DnsRr.carried := by
  induction rrs with
  | nil =>
      intro dns before o o' _ _ _ _ horder _
      exact ⟨[], dnsReadRrs_done horder.done 0, rfl⟩
  | cons rr rrs ih =>
      intro dns before o o' hok hle hrecords hptr horder hlast
      cases hrecords with
      | @cons _ o₁ _ _ _ hrecord hrest =>
          obtain ⟨dns', rr', p', hcall, hread, hcontent, hp'⟩ :=
            dnsRrUnpack_record hok hle hrecord hptr horder.rrSection
          obtain ⟨loaded, rfl⟩ := hread.eq
          generalize hnext : ({ dns with rrIdx := dns.rrIdx + 1, loaded := loaded, ptr := p' } : Dns)
            = dns'' at hcall
          have horder' : ReadOrder dns'' (before ++ [rr]) rrs := by
            rw [← hnext]
            exact horder.next rfl rfl rfl rfl rfl
          -- Only a record that is followed by another one has to end where `ptr` is.
          have hgot : ∃ got, dnsReadRrs (rrs.length + 1) dns'' = some got ∧
              got.map DnsRr.content = rrs.map DnsRr.carried := by
            cases hrrs : rrs with
            | nil =>
                rw [hrrs] at horder'
                exact ⟨[], dnsReadRrs_done horder'.done 0, rfl⟩
            | cons rr₂ rrs₂ =>
                rw [← hrrs]
                have hkind : rr.rrSection = DNS_RR_QUESTION ∨ rr.hasName = false := by
                  refine hlast rr ?_
                  rw [hrrs, List.dropLast_cons_of_ne_nil (by simp)]
                  exact List.mem_cons_self
                have hp := hp' hkind
                have hend : dns.buf ≤ p' ∧ p' ≤ dns.bufEnd := by
                  have hrest₂ := hrest
                  rw [hrrs] at hrest₂
                  cases hrest₂ with
                  | cons hrecord₂ _ =>
                      have hin := hrecord₂.start_lt hle
                      omega
                refine ih ?_ ?_ hrest ?_ horder' ?_
                · rw [← hnext]
                  exact ⟨hok.buf, hend, hread.inside⟩
                · rw [← hnext]
                  exact hle
                · rw [← hnext]
                  exact hp
                · intro rr₃ hrr₃
                  refine hlast rr₃ ?_
                  rw [List.dropLast_cons_of_ne_nil (by rw [hrrs]; simp)]
                  exact List.mem_cons_of_mem rr hrr₃
          obtain ⟨got, hgot, hmap⟩ := hgot
          refine ⟨rr' :: got, ?_, ?_⟩
          · rw [List.length_cons, dnsReadRrs, hcall]
            simp only [hgot]
            rfl
          · rw [List.map_cons, List.map_cons, hcontent, hmap]

/-! ### Messages -/

/-- A name as text: labels of 1 to 63 bytes with dots between them, and less than 256 bytes in a
message. -/
structure NameCanonical (s : List UInt8) : Prop where
  labels : ∃ ls : List Label, (∀ l ∈ ls, l.Ok) ∧ s = dotted ls
  noNul : (0 : UInt8) ∉ s
  wire : wireLen s < 256

/-- A record of one of the four sections and of type A, NS, CNAME or PTR, with canonical names. -/
structure RrCanonical (rr : DnsRr) : Prop where
  counted : rr.counted = true
  name : NameCanonical rr.name
  type : rr.rrType = DNS_TYPE_A ∨ rr.hasName = true
  data : rr.hasName = true → NameCanonical rr.rdataName

/-- The pointers that the names of the record take can be followed: their offsets fit in 14 bits with
a low byte below 128, and a name takes no more than 99 of them. -/
structure PointersReach (dns : Dns) (rr : DnsRr) : Prop where
  name : ∀ i, knownSuffix dns.nameAt rr.name = some i →
    i < 16384 ∧ i % 256 < 128 ∧ namePointers dns.packed 256 i < 99
  data : rr.rrSection ≠ DNS_RR_QUESTION → rr.hasName = true →
    ∀ i, knownSuffix (dns.nameAt.extend dns.pos rr.name) rr.rdataName = some i →
      i < 16384 ∧ i % 256 < 128 ∧
        (if i < dns.pos then namePointers dns.packed 256 i
          else nameHops dns.nameAt dns.packed rr.name) < 99

/-- The call packs the record, inside the message. -/
def PacksInside (addrOf : Nat → Nat) (dns : Dns) (rr : DnsRr) : Prop :=
  (dnsRrPack addrOf dns rr).2.2 = 1 ∧ (dnsRrPack addrOf dns rr).1.ptr ≤ dns.bufEnd

/-- The message that `dns_pack` finishes is read back as the records. -/
def RecordsRoundTrip (dns : Dns) (rrs : List DnsRr) : Prop :=
  ∃ fuel got, dnsReadRrs fuel (dnsReceive (dnsPack dns).1.mem dns.buf (dnsPack dns).2) = some got ∧
    got.map DnsRr.content = rrs.map DnsRr.content

/-- The step condition, from what the caller keeps and from the pointers. -/
theorem packStep_of_canonical (addrOf : Nat → Nat) {dns : Dns} {rr : DnsRr} (h : RrCanonical rr)
    (hpack : PacksInside addrOf dns rr) (hreach : PointersReach dns rr) : PackStep addrOf dns rr := by
  refine ⟨⟨⟨h.name.labels, h.name.noNul, ?_, hreach.name⟩, fun hsection => ?_⟩, hpack.1, hpack.2⟩
  · exact Nat.lt_trans (length_lt_wireLen _) h.name.wire
  · by_cases hA : rr.rrType = DNS_TYPE_A
    · exact Or.inl hA
    · have hname := h.type.resolve_left hA
      have hdata := h.data hname
      exact Or.inr ⟨hA, hname, hdata.wire, hdata.labels, hdata.noNul,
        Nat.lt_trans (length_lt_wireLen _) hdata.wire, hreach.data hsection hname⟩

/-- More calls read the same records. -/
theorem dnsReadRrs_mono {fuel : Nat} :
    ∀ {dns : Dns} {got : List DnsRr}, dnsReadRrs fuel dns = some got →
      ∀ k, dnsReadRrs (fuel + k) dns = some got := by
  induction fuel with
  | zero => intro dns got h; simp [dnsReadRrs] at h
  | succ fuel ih =>
      intro dns got h k
      rw [Nat.add_right_comm]
      rw [dnsReadRrs] at h ⊢
      dsimp only at h ⊢
      split
      · rename_i hneg
        rw [if_pos hneg] at h
        exact h
      · rename_i hneg
        rw [if_neg hneg] at h
        split
        · rename_i hzero
          rw [if_pos hzero] at h
          exact h
        · rename_i hzero
          rw [if_neg hzero] at h
          obtain ⟨rest, hrest, rfl⟩ := Option.map_eq_some_iff.mp h
          rw [ih hrest k]
          rfl

theorem dnsReadRrs_unique {dns : Dns} {fuel fuel' : Nat} {got got' : List DnsRr}
    (h : dnsReadRrs fuel dns = some got) (h' : dnsReadRrs fuel' dns = some got') : got = got' := by
  have hmore := dnsReadRrs_mono h fuel'
  rw [Nat.add_comm] at hmore
  exact Option.some.inj (hmore.symm.trans (dnsReadRrs_mono h' fuel))

/-- A message that has no records yet. -/
theorem packedRrs_start {start : Dns} (hhash : start.nameHash = none)
    (hptr : start.ptr = start.buf + 12) (hend : start.ptr ≤ start.bufEnd) :
    PackedRrs start start [] := by
  have hempty : ∀ s, start.nameAt s = none := fun s => by rw [Dns.nameAt, hhash]; rfl
  refine ⟨⟨fun hash hsome => ?_, by omega, fun s i hs => ?_⟩, .nil, hend,
    ⟨_, _, _, _, _, _, _, _, _, rfl⟩, ?_, ?_, ?_, ?_⟩
  · rw [hhash] at hsome
    exact absurd hsome (by simp)
  · rw [hempty] at hs
    exact absurd hs (by simp)
  · exact (Int.add_zero _).symm
  · exact (Int.add_zero _).symm
  · exact (Int.add_zero _).symm
  · exact (Int.add_zero _).symm

/-- A fresh message. -/
theorem packedRrs_init (mem : Int → UInt8) {buf len : Int} (hlen : 12 ≤ len) :
    PackedRrs (dnsInit mem buf len).1 (dnsInit mem buf len).1 [] :=
  packedRrs_start rfl rfl (show buf + 12 ≤ buf + len by omega)

/-- The counts of a message whose records have been packed, as they are received. -/
theorem PackedRrs.receivedCounts {start dns : Dns} {rrs : List DnsRr} (h : PackedRrs start dns rrs)
    (hqr : start.qrcount = 0) (han : start.ancount = 0) (hns : start.nscount = 0)
    (har : start.arcount = 0) (hfits : ∀ rrSection, sectionCount rrs rrSection ≤ 65535) :
    let got := dnsReceive (dnsPack dns).1.mem dns.buf (dnsPack dns).2
    got.rrIdx = 0 ∧ got.qrcount = sectionCount rrs DNS_RR_QUESTION ∧
      got.ancount = sectionCount rrs DNS_RR_ANSWER ∧
      got.nscount = sectionCount rrs DNS_RR_AUTHORITY ∧
      got.arcount = sectionCount rrs DNS_RR_ADDITIONAL := by
  intro got
  obtain ⟨-, -, -, -, hqr', han', hns', har', -, -, -, -, hidx⟩ := dnsReceive_dnsPack dns
  have hcount : ∀ s : Int, (UInt16.ofInt (0 + sectionCount rrs s)).toNat = sectionCount rrs s := by
    intro s
    have hle := hfits s
    have hnat : (UInt16.ofNat (sectionCount rrs s)).toNat = sectionCount rrs s := by
      rw [UInt16.toNat_ofNat']
      omega
    have hof := ofInt_toNat (UInt16.ofNat (sectionCount rrs s))
    rw [hnat] at hof
    rw [Int.zero_add, hof, hnat]
  refine ⟨hidx, ?_, ?_, ?_, ?_⟩
  · rw [hqr', h.qrcount, hqr, hcount]
  · rw [han', h.ancount, han, hcount]
  · rw [hns', h.nscount, hns, hcount]
  · rw [har', h.arcount, har, hcount]

/-- A message whose records have been packed is read back as what it carries of them. -/
theorem PackedRrs.reads {start dns : Dns} {rrs : List DnsRr} (h : PackedRrs start dns rrs)
    (hbuf : 0 < start.buf) (hptr : start.ptr = start.buf + 12) (hqr : start.qrcount = 0)
    (han : start.ancount = 0) (hns : start.nscount = 0) (har : start.arcount = 0)
    (hsorted : rrs.Pairwise fun rr rr' => rr.rrSection ≤ rr'.rrSection)
    (hcounted : ∀ rr ∈ rrs, rr.counted = true) (hshort : rrs.length ≤ 255)
    (hlast : NameDataLast rrs) :
    ∃ got, dnsReadRrs (rrs.length + 1) (dnsReceive (dnsPack dns).1.mem dns.buf (dnsPack dns).2)
        = some got ∧ got.map DnsRr.content = rrs.map DnsRr.carried := by
  have hstart := h.packing.start
  obtain ⟨-, -, -, -, -, -, -, -, hmem, hbuf', hend, hptr', -⟩ := dnsReceive_dnsPack dns
  obtain ⟨hidx, hqr', han', hns', har'⟩ := h.receivedCounts hqr han hns har fun s =>
    Nat.le_trans List.countP_le_length (Nat.le_trans hshort (by decide))
  have hlen : 12 ≤ (dnsPack dns).2 := by
    show 12 ≤ dns.ptr - dns.buf
    omega
  have hsame : dns.buf = start.buf := by
    obtain ⟨_, _, _, _, _, _, _, _, _, heq⟩ := h.filled
    rw [heq]
  have hok := dnsReceive_ok (dnsPack dns).1.mem (hsame ▸ hbuf) hlen
  have hcell := packed_le_received dns
  generalize dnsReceive (dnsPack dns).1.mem dns.buf (dnsPack dns).2 = got₀ at *
  have hpos : start.pos = 12 := by
    unfold Dns.pos
    omega
  have hrecords := h.records
  rw [hpos] at hrecords
  have horder : ReadOrder got₀ [] rrs :=
    ⟨by rw [hidx]; rfl, hshort, hsorted, hcounted, hqr', han', hns', har'⟩
  exact dnsReadRrs_recordsAt rrs hok hcell hrecords (by rw [hptr', hbuf']; rfl) horder hlast

/-! ### More than 255 records -/

/-- Only a call behind the last record returns 0. -/
theorem dnsRrUnpack_zero {dns : Dns} (h : (dnsRrUnpack dns).2.2 = 0) : dnsRrSection dns = none := by
  cases hsection : dnsRrSection dns with
  | none => rfl
  | some rrSection =>
      unfold dnsRrUnpack at h
      rw [hsection] at h
      dsimp only at h
      split at h
      · exact absurd (show (-1 : Int) = 0 from h) (by decide)
      · split at h <;> exact absurd (show (1 : Int) = 0 from h) (by decide)

/-- The index of 8 bits does not get behind 256 records, so the reader does not come to an end.
Induction on the calls. -/
theorem dnsReadRrs_wraps (fuel : Nat) :
    ∀ {dns : Dns}, 256 ≤ dns.qrcount + dns.ancount + dns.nscount + dns.arcount →
      dnsReadRrs fuel dns = none := by
  induction fuel with
  | zero => intro _ _; rfl
  | succ fuel ih =>
      intro dns hmany
      -- The index is below 256, and so below the sum of the counts.
      have hsome : dnsRrSection dns ≠ none := by
        have hidx := dns.rrIdx.toNat_lt
        unfold dnsRrSection
        dsimp only
        split_ifs <;> first | exact Option.some_ne_none _ | omega
      have hcounts : (dnsRrUnpack dns).1.qrcount + (dnsRrUnpack dns).1.ancount
          + (dnsRrUnpack dns).1.nscount + (dnsRrUnpack dns).1.arcount
          = dns.qrcount + dns.ancount + dns.nscount + dns.arcount := by
        obtain ⟨_, _, _, heq⟩ := dnsRrUnpack_moved dns
        rw [heq]
      rw [dnsReadRrs]
      dsimp only
      split
      · rfl
      · rw [if_neg fun hzero => hsome (dnsRrUnpack_zero hzero), ih (by omega)]
        rfl

/-! ### Questions -/

/-- The record says no more than a question does. -/
def DnsRr.Bare (rr : DnsRr) : Prop :=
  rr.ttl = 0 ∧ (rr.rrType = DNS_TYPE_A → rr.rdataAddr = 0) ∧ (rr.hasName = true → rr.rdataName = [])

/-- All that a record says is carried, but for a question that says more than a question does. -/
theorem DnsRr.carried_eq_content_iff (rr : DnsRr) :
    rr.carried = rr.content ↔ (rr.rrSection = DNS_RR_QUESTION → rr.Bare) := by
  unfold DnsRr.carried
  split
  · rename_i hquestion
    unfold DnsRr.content DnsRr.Bare
    simp only [DnsRr.zero, DnsRr.mk.injEq, hquestion, true_and, forall_const,
      eq_comm (a := (0 : UInt32)),
      eq_comm (a := ([] : List UInt8)), ite_eq_right_iff]
  · rename_i hresource
    exact ⟨fun _ h => absurd h hresource, fun _ => rfl⟩

/-! ### Behind data that is a name -/

/-- What the call that has read a record leaves to the next ones. -/
theorem dnsReadRrs_cons {fuel : Nat} {dns : Dns} {rr : DnsRr} {got : List DnsRr}
    (h : dnsReadRrs fuel dns = some (rr :: got)) :
    (dnsRrUnpack dns).2.1 = rr ∧ ∃ fuel', dnsReadRrs fuel' (dnsRrUnpack dns).1 = some got := by
  cases fuel with
  | zero => exact absurd h (by simp [dnsReadRrs])
  | succ fuel =>
      rw [dnsReadRrs] at h
      dsimp only at h
      split at h
      · exact absurd h (by simp)
      · split at h
        · exact absurd (Option.some.inj h) (by simp)
        · obtain ⟨rest, hrest, heq⟩ := Option.map_eq_some_iff.mp h
          obtain ⟨hhead, rfl⟩ := List.cons.inj heq
          exact ⟨hhead, fuel, hrest⟩

/-- Data that is the name of the root. -/
theorem dnsRdataUnpack_root {dns : Dns} {rr : DnsRr} {p : Int} (hA : rr.rrType ≠ DNS_TYPE_A)
    (hname : rr.hasName = true) (hlen : 0 < rr.rdataLen.toNat) (hzero : dns.mem p = 0) :
    dnsRdataUnpack dns rr p = (dns.load p 1, { rr with rdataName := [] }, p + 1) := by
  unfold dnsRdataUnpack
  rw [if_neg hA, if_pos hname, dnsUnpackName_root dnsNameMax (by omega) hzero]
  rfl

section
variable {dns : Dns} {rrSection : Int} (hsection : dnsRrSection dns = some rrSection)
  (hresource : rrSection ≠ DNS_RR_QUESTION) (hlt : dns.ptr < dns.bufEnd)
  (hzero : dns.mem dns.ptr = 0)
include hsection hresource hlt hzero

/-- The type of a record of the root. -/
theorem dnsRrUnpack_root_rrType : (dnsRrUnpack dns).2.1.rrType = dns.u16At (dns.ptr + 1) := by
  obtain ⟨_, dns', rr, -, rfl, hcall⟩ :=
    dnsRrUnpack_resource (dnsUnpackName_root dnsNameMax (by omega) hzero) (by decide) hsection hresource
  rw [hcall]
  obtain ⟨addr, name, hkept⟩ := dnsRdataUnpack_kept _ _ _
  exact congrArg DnsRr.rrType hkept

/-- Behind a record of the root whose data is the root's name, `ptr` goes on by the length of the data
once more. -/
theorem dnsRrUnpack_root_nameData (hname : dns.nameTypeAt (dns.ptr + 1) = true)
    (hlen : 0 < (dns.u16At (dns.ptr + 9)).toNat) (hdata : dns.mem (dns.ptr + 11) = 0) :
    ∃ loaded, (dnsRrUnpack dns).1 =
      { dns with
        rrIdx := dns.rrIdx + 1
        loaded := loaded
        ptr := dns.ptr + 12 + (dns.u16At (dns.ptr + 9)).toNat } := by
  obtain ⟨loaded, dns', rr, hdns', hrr, hcall⟩ :=
    dnsRrUnpack_resource (dnsUnpackName_root dnsNameMax (by omega) hzero) (by decide) hsection hresource
  have htype : rr.rrType = dns.u16At (dns.ptr + 1) := by rw [hrr]
  have hrdlen : rr.rdataLen = dns.u16At (dns.ptr + 9) := by
    rw [hrr, show dns.ptr + 9 = dns.ptr + 1 + 8 by omega]
  have hhas : rr.hasName = true := by
    rw [← hname]
    unfold Dns.nameTypeAt DnsRr.hasName
    rw [htype]
  have hA : rr.rrType ≠ DNS_TYPE_A := fun hA => by
    rw [DnsRr.hasName_of_typeA hA] at hhas
    exact absurd hhas (by decide)
  have hmem : dns'.mem (dns.ptr + 1 + 10) = 0 := by
    rw [hdns', Int.add_assoc]
    exact hdata
  rw [hcall, dnsRdataUnpack_root hA hhas (by rw [hrdlen]; exact hlen) hmem]
  dsimp only
  rw [hrdlen, hdns', show dns.ptr + 12 = dns.ptr + 1 + 10 + 1 by omega]
  exact ⟨_, rfl⟩

/-- So the record behind it is not read where it starts. -/
theorem dnsReadRrs_root_nameData (hname : dns.nameTypeAt (dns.ptr + 1) = true)
    (hlen : 0 < (dns.u16At (dns.ptr + 9)).toNat) (hdata : dns.mem (dns.ptr + 11) = 0) {next : Int}
    (hnext : next = dns.ptr + 12 + (dns.u16At (dns.ptr + 9)).toNat)
    (hsection' : dnsRrSection { dns with rrIdx := dns.rrIdx + 1 } = some rrSection)
    (hlt' : next < dns.bufEnd) (hzero' : dns.mem next = 0) {fuel : Nat} {rr rr' : DnsRr}
    {got : List DnsRr} (h : dnsReadRrs fuel dns = some (rr :: rr' :: got)) :
    rr'.rrType = dns.u16At (next + 1) := by
  obtain ⟨-, fuel', hrest⟩ := dnsReadRrs_cons h
  obtain ⟨loaded, hcall⟩ :=
    dnsRrUnpack_root_nameData hsection hresource hlt hzero hname hlen hdata
  rw [hcall, ← hnext] at hrest
  obtain ⟨hrr', -⟩ := dnsReadRrs_cons hrest
  rw [← hrr']
  exact dnsRrUnpack_root_rrType hsection' hresource hlt' hzero'

end

/-! ### The round trip -/

section
variable (addrOf : Nat → Nat) (mem : Int → UInt8) {buf len : Int} {rrs : List DnsRr}

/-- The message that is packed from the records. -/
def packedMessage (addrOf : Nat → Nat) (mem : Int → UInt8) (buf len : Int) (rrs : List DnsRr) : Dns :=
  run (fun dns rr => (dnsRrPack addrOf dns rr).1) (dnsInit mem buf len).1 rrs

/-- All calls that pack the records meet the condition. -/
def AllPacked (P : Dns → DnsRr → Prop) (addrOf : Nat → Nat) (mem : Int → UInt8) (buf len : Int)
    (rrs : List DnsRr) : Prop :=
  AllSteps P (fun dns rr => (dnsRrPack addrOf dns rr).1) (dnsInit mem buf len).1 rrs

/-- Where the pointers can be followed and data that is a name comes last, the records are read back
if and only if there are no more than 255 of them and no question has a time to live or data. -/
theorem recordsRoundTrip_iff (hbuf : 0 < buf) (hlen : 12 ≤ len)
    (hcanonical : ∀ rr ∈ rrs, RrCanonical rr)
    (hsorted : rrs.Pairwise fun rr rr' => rr.rrSection ≤ rr'.rrSection)
    (hfits : ∀ rrSection, sectionCount rrs rrSection ≤ 65535)
    (hpack : AllPacked (PacksInside addrOf) addrOf mem buf len rrs)
    (hreach : AllPacked PointersReach addrOf mem buf len rrs) (hlast : NameDataLast rrs) :
    RecordsRoundTrip (packedMessage addrOf mem buf len rrs) rrs ↔
      rrs.length ≤ 255 ∧ ∀ rr ∈ rrs, rr.rrSection = DNS_RR_QUESTION → rr.Bare := by
  have hsteps : AllPacked (PackStep addrOf) addrOf mem buf len rrs := by
    have hall := (hpack.and hreach).and
      (allSteps_of_forall_mem (P := RrCanonical) (fun rr hrr => hcanonical rr hrr))
    exact hall.mono fun dns rr h => packStep_of_canonical addrOf h.2 h.1.1 h.1.2
  have hpacked : PackedRrs (dnsInit mem buf len).1 (packedMessage addrOf mem buf len rrs) rrs :=
    PackedRrs.run addrOf rrs (packedRrs_init mem hlen) hsteps
  have hcounted : ∀ rr ∈ rrs, rr.counted = true := fun rr hrr => (hcanonical rr hrr).counted
  unfold RecordsRoundTrip
  by_cases hshort : rrs.length ≤ 255
  · obtain ⟨got, hgot, hcarried⟩ := hpacked.reads hbuf rfl rfl rfl rfl rfl hsorted hcounted hshort hlast
    constructor
    · rintro ⟨fuel, got', hgot', hcontent⟩
      obtain rfl := dnsReadRrs_unique hgot hgot'
      rw [hcarried] at hcontent
      refine ⟨hshort, fun rr hrr => rr.carried_eq_content_iff.mp ?_⟩
      exact List.map_inj_left.mp hcontent rr hrr
    · rintro ⟨-, hbare⟩
      refine ⟨_, got, hgot, ?_⟩
      rw [hcarried]
      exact List.map_inj_left.mpr fun rr hrr => rr.carried_eq_content_iff.mpr (hbare rr hrr)
  · refine ⟨?_, fun h => absurd h.1 hshort⟩
    rintro ⟨fuel, got, hgot, -⟩
    obtain ⟨-, hqr, han, hns, har⟩ := hpacked.receivedCounts rfl rfl rfl rfl hfits
    obtain ⟨-, -, -, htotal⟩ := sectionCounts_sum hcounted
    rw [dnsReadRrs_wraps fuel (by rw [hqr, han, hns, har]; omega)] at hgot
    exact absurd hgot (by simp)

end

/-- A name of one letter. -/
theorem nameCanonical_single {c : UInt8} (h : Label.Ok [c]) (hc : (0 : UInt8) ≠ c) :
    NameCanonical [c] := by
  have hok : ∀ l ∈ ([[c]] : List Label), l.Ok := fun l hl => List.mem_singleton.mp hl ▸ h
  have hlabels : nameLabels [c] = [[c]] := nameLabels_dotted hok
  refine ⟨⟨[[c]], hok, rfl⟩, fun hmem => hc (List.mem_singleton.mp hmem), ?_⟩
  rw [wireLen, hlabels]
  simp

/-- The name `a`. -/
theorem nameCanonical_a : NameCanonical [97] :=
  nameCanonical_single ⟨by decide, by decide, by decide⟩ (by decide)

theorem nameCanonical_root : NameCanonical [] :=
  ⟨⟨[], by simp, rfl⟩, by simp, by simp [wireLen]⟩

/-- A record of type A is canonical when its name is. -/
theorem rrCanonical_addr {rr : DnsRr} (hcounted : rr.counted = true) (hname : NameCanonical rr.name)
    (hA : rr.rrType = DNS_TYPE_A) : RrCanonical rr :=
  ⟨hcounted, hname, Or.inl hA, fun hhas => by
    rw [DnsRr.hasName_of_typeA hA] at hhas
    exact absurd hhas (by decide)⟩

/-- A question and its answer, whose name is a pointer to the question's. -/
def askedAddr : List DnsRr :=
  [⟨DNS_RR_QUESTION, [97], DNS_TYPE_A, DNS_CLASS_IN, 0, 0, 0, 0, []⟩,
    ⟨DNS_RR_ANSWER, [97], DNS_TYPE_A, DNS_CLASS_IN, 60, 0, 0, 0x0100007f, []⟩]

/-- A question and an address are read back as they were packed. -/
theorem recordsRoundTrip_askedAddr :
    RecordsRoundTrip (packedMessage id (fun _ => 0) 1 64 askedAddr) askedAddr := by
  refine (recordsRoundTrip_iff id (fun _ => 0) (by decide) (by decide) ?_ (by decide) ?_ ?_ ?_
    ?_).mpr ?_
  · simp only [askedAddr, List.forall_mem_cons]
    exact ⟨rrCanonical_addr (by decide) nameCanonical_a rfl,
      rrCanonical_addr (by decide) nameCanonical_a rfl, by simp⟩
  · intro rrSection
    exact Nat.le_trans List.countP_le_length (by decide)
  · exact ⟨⟨by decide +kernel, by decide +kernel⟩, ⟨by decide +kernel, by decide +kernel⟩, trivial⟩
  · refine ⟨⟨fun i hi => ?_, by decide⟩, ⟨fun i hi => ?_, by decide⟩, trivial⟩
    · have hnone : knownSuffix (dnsInit (fun _ => 0) 1 64).1.nameAt [97] = none := by decide +kernel
      exact absurd (hnone.symm.trans hi) (by simp)
    · have hsome : knownSuffix (dnsRrPack id (dnsInit (fun _ => 0) 1 64).1
          ⟨DNS_RR_QUESTION, [97], DNS_TYPE_A, DNS_CLASS_IN, 0, 0, 0, 0, []⟩).1.nameAt [97]
            = some 12 := by
        decide +kernel
      obtain rfl := Option.some.inj (hsome.symm.trans hi)
      decide +kernel
  · unfold NameDataLast
    decide
  · unfold DnsRr.Bare
    decide

/-- A server of the root that is the root itself, and the root's address. -/
def rootRecords : List DnsRr :=
  [⟨DNS_RR_ANSWER, [], DNS_TYPE_NS, DNS_CLASS_IN, 0, 0, 0, 0, []⟩,
    ⟨DNS_RR_ANSWER, [], DNS_TYPE_A, DNS_CLASS_IN, 0, 0, 0, 0, []⟩]

/-- The message that is packed from them, received. -/
def rootReceived : Dns :=
  dnsReceive (dnsPack (packedMessage id (fun _ => 0) 1 64 rootRecords)).1.mem
    (packedMessage id (fun _ => 0) 1 64 rootRecords).buf
    (dnsPack (packedMessage id (fun _ => 0) 1 64 rootRecords)).2

/-- The second of these records is read a byte too late. -/
theorem not_recordsRoundTrip_rootRecords :
    ¬∀ (addrOf : Nat → Nat) (mem : Int → UInt8) (buf len : Int) (rrs : List DnsRr), 0 < buf →
      12 ≤ len → (∀ rr ∈ rrs, RrCanonical rr) →
      (rrs.Pairwise fun rr rr' => rr.rrSection ≤ rr'.rrSection) →
      (∀ rrSection, sectionCount rrs rrSection ≤ 65535) →
      AllPacked (PacksInside addrOf) addrOf mem buf len rrs →
      RecordsRoundTrip (packedMessage addrOf mem buf len rrs) rrs := by
  intro hall
  have hcanonical : ∀ rr ∈ rootRecords, RrCanonical rr := by
    simp only [rootRecords, List.forall_mem_cons]
    exact ⟨⟨by decide, nameCanonical_root, Or.inr (by decide), fun _ => nameCanonical_root⟩,
      rrCanonical_addr (by decide) nameCanonical_root rfl, by simp⟩
  obtain ⟨fuel, got, hgot, hcontent⟩ := hall id (fun _ => 0) 1 64 rootRecords (by decide) (by decide)
    hcanonical (by decide) (fun _ => Nat.le_trans List.countP_le_length (by decide))
    ⟨⟨by decide +kernel, by decide +kernel⟩, ⟨by decide +kernel, by decide +kernel⟩, trivial⟩
  obtain ⟨rr, got', rfl, -, hrest⟩ := List.map_eq_cons_iff.mp hcontent
  obtain ⟨rr', got'', rfl, hrr', -⟩ := List.map_eq_cons_iff.mp hrest
  -- The first record ends at 25, and the reader goes on at 26.
  have hsection : dnsRrSection rootReceived = some DNS_RR_ANSWER := by decide +kernel
  have hnext : 26 = rootReceived.ptr + 12 + (rootReceived.u16At (rootReceived.ptr + 9)).toNat := by
    decide +kernel
  have htype : rr'.rrType = rootReceived.u16At 27 :=
    dnsReadRrs_root_nameData hsection (by decide) (by decide +kernel) (by decide +kernel)
      (by decide +kernel) (by decide +kernel) (by decide +kernel) hnext (by decide +kernel)
      (by decide +kernel) (by decide +kernel) hgot
  have hA : rr'.rrType = DNS_TYPE_A := congrArg DnsRr.rrType hrr'
  rw [hA] at htype
  exact absurd htype (by decide +kernel)

end Bklib
