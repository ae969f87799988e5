import Bklib.Proofs.DnsDump
import Bklib.Proofs.DnsName

/-!
# `Bklib.Proofs.DnsRrPack`: when packing a record is safe

`RrFits` says that a record fits behind `ptr`: its names can be encoded and its bytes end inside the
message. A call should store inside the message only, and leave the counts, the pointer, the index
and the table alone when it fails (`RrPackSafe`). What it dumps then for the debug output has to stay
inside its array too.

The count of the section goes up before anything is known about the record, so a call that fails has
always changed the message when the section is one of the four. `rrPackSafe_iff` says exactly when a
call is safe.
-/

set_option autoImplicit false

namespace Bklib

open Bklib.Lib

/-! ### Names that fit, and names that are refused -/

/-- `dns_pack_name` fails on the first look at the name, before it records a suffix. -/
def NameRefused (dns : Dns) (src : List UInt8) (dst dstlen : Int) : Prop :=
  src ≠ [] ∧ (¬src.length < dnsNameMax ∨ dns.nameHash.isSome = true ∧
    match dns.nameAt src with
    | some i => ¬i < 49152 ∨ dstlen < 2
    | none   => ¬(dns.buf ≤ dst ∧ dst < dns.bufEnd))

/-- The table is there, or not, as before, and has the same names. -/
structure SameNames (dns dns' : Dns) : Prop where
  isSome : dns'.nameHash.isSome = dns.nameHash.isSome
  nameAt : dns'.nameAt = dns.nameAt

section
variable (addrOf : Nat → Nat) {dns : Dns} {src : List UInt8} {dst dstlen : Int}

/-- A short name that fits in the room given and in the message is written, when a pointer can hold
the suffix that it ends with. Induction on the text, label by label. -/
theorem dnsPackNameLoop_fits (src : List UInt8) :
    ∀ {dns : Dns} {dst dstlen : Int}, dns.HashOk → src.length < dnsNameMax →
      (∀ i, knownSuffix dns.nameAt src = some i → i < 16384) → dns.buf ≤ dst →
      dst + (compressed dns.nameAt src).length ≤ dns.bufEnd →
      (compressed dns.nameAt src).length ≤ dstlen →
      (dnsPackNameLoop addrOf dns src dst dstlen).2 ≠ none := by
  induction src using nameLabels.induct with
  | case1 =>
      intro dns dst dstlen _ _ _ _ _ _
      rw [dnsPackNameLoop_nil]
      simp
  | case2 src hsrc ih =>
      intro dns dst dstlen h hlen hpointer hlo hend hroom
      obtain ⟨dns₁, hget, htable, hsome, hnames⟩ := nameLookup_spec h src
      obtain ⟨-, -, hbuf, hbufEnd⟩ := htable.fields
      cases hat : dns.nameAt src with
      | some i =>
          -- an offset below the limit is always written
          have hi : i < 16384 := hpointer i (knownSuffix_of_some hsrc hat)
          rw [compressed_of_some hsrc hat] at hroom
          rw [hat] at hget
          rw [dnsPackNameLoop_known addrOf hsrc hlen hget, if_neg]
          · simp
          · have htwo : (2 : Int) ≤ dstlen := hroom
            omega
      | none =>
          rw [hat] at hget
          obtain ⟨htable', -, hput⟩ :=
            Dns.namePut_spec addrOf htable.hashOk hsome src (dst - dns₁.buf).toNat
          obtain ⟨-, -, hbuf', hbufEnd'⟩ := htable'.fields
          rw [hnames] at hput
          have hother : ∀ k, k ≠ src →
              (dns₁.namePut addrOf src (dst - dns₁.buf).toNat).nameAt k = dns.nameAt k :=
            fun k hk => (hput k).trans (if_neg hk)
          have hpos := length_compressed_pos
            (dns₁.namePut addrOf src (dst - dns₁.buf).toNat).nameAt (afterLabel src)
          -- what is written here and what is left add up to the size of the name
          rw [compressed_put hsrc hat hother, List.length_cons, List.length_append] at hend hroom
          push_cast at hend hroom
          rw [dnsPackNameLoop_new addrOf hsrc hlen hget, if_neg (not_not.mpr (by omega))]
          simp only
          rw [if_neg (by omega)]
          refine ih (htable'.hashOk) (Nat.lt_trans (length_afterLabel_lt hsrc) hlen)
            (fun i hi => hpointer i ((knownSuffix_put hsrc hat hother).trans hi)) ?_ ?_ ?_
          · show (dns₁.namePut addrOf src (dst - dns₁.buf).toNat).buf ≤ _
            omega
          · show dst + 1 + (firstLabel src).length + ((compressed (dns₁.namePut addrOf src
              (dst - dns₁.buf).toNat).nameAt (afterLabel src)).length : Int)
              ≤ (dns₁.namePut addrOf src (dst - dns₁.buf).toNat).bufEnd
            omega
          · show ((compressed (dns₁.namePut addrOf src
              (dst - dns₁.buf).toNat).nameAt (afterLabel src)).length : Int) ≤ _
            omega

/-- A name that fits in the message and in the data is packed whole. -/
theorem dnsPackName_short (dst dstlen : Int) (h : dns.HashOk) (hlen : src.length < dnsNameMax)
    (hpointer : ∀ i, knownSuffix dns.nameAt src = some i → i < 16384)
    (hlo : dns.buf ≤ dst) (hend : dst + (compressed dns.nameAt src).length ≤ dns.bufEnd)
    (hroom : (compressed dns.nameAt src).length ≤ dstlen) :
    ∃ dns', dnsPackName addrOf dns src dst dstlen
        = (dns', ((compressed dns.nameAt src).length : Int)) ∧
      NameCall dns dns' src ∧ NameWritten dns dns' src dst := by
  have hdone := dnsPackNameLoop_fits addrOf src h hlen hpointer hlo hend hroom
  obtain ⟨dns', r, hloop, hcall, hwritten⟩ := dnsPackNameLoop_spec addrOf src h dst dstlen
  rw [hloop] at hdone
  obtain ⟨e, rfl⟩ := Option.ne_none_iff_exists'.mp hdone
  obtain ⟨rfl, hname⟩ := hwritten e rfl
  refine ⟨dns', ?_, hcall, hname⟩
  rw [dnsPackName, hloop]
  exact Prod.ext rfl (by show dst + _ - dst = _; omega)

/-- A name that can be encoded and fits in the message is packed whole. -/
theorem dnsPackName_fits (dst dstlen : Int) (h : dns.HashOk) (henc : NameEncodable dns.nameAt src)
    (hlo : dns.buf ≤ dst) (hend : dst + (compressed dns.nameAt src).length ≤ dns.bufEnd)
    (hroom : (compressed dns.nameAt src).length ≤ dstlen) :
    ∃ dns', dnsPackName addrOf dns src dst dstlen
        = (dns', ((compressed dns.nameAt src).length : Int)) ∧
      NameCall dns dns' src ∧ NameWritten dns dns' src dst :=
  dnsPackName_short addrOf dst dstlen h (Nat.lt_trans (length_lt_wireLen src) henc.total)
    henc.pointer hlo hend hroom

/-- A name that is refused changes nothing. -/
theorem dnsPackName_refused (h : dns.HashOk) (hrefused : NameRefused dns src dst dstlen) :
    ∃ dns', dnsPackName addrOf dns src dst dstlen = (dns', -1) ∧ dns.TableOnly dns' ∧
      SameNames dns dns' := by
  obtain ⟨hsrc, hcase⟩ := hrefused
  by_cases hlen : src.length < dnsNameMax
  · obtain ⟨hthere, hcase⟩ := hcase.resolve_left (not_not.mpr hlen)
    obtain ⟨dns₁, hget, htable, hsome, hnames⟩ := nameLookup_spec h src
    obtain ⟨-, -, hbuf, hbufEnd⟩ := htable.fields
    refine ⟨dns₁, ?_, htable, hsome.trans hthere.symm, hnames⟩
    cases hat : dns.nameAt src with
    | some i =>
        rw [hat] at hget hcase
        rw [dnsPackName, dnsPackNameLoop_known addrOf hsrc hlen hget, if_pos hcase]
    | none =>
        rw [hat] at hget hcase
        rw [dnsPackName, dnsPackNameLoop_new addrOf hsrc hlen hget,
          if_pos (by rw [hbuf, hbufEnd]; exact hcase)]
  · refine ⟨dns, ?_, ⟨⟨_, rfl⟩, h⟩, rfl, rfl⟩
    rw [dnsPackName, dnsPackNameLoop_long addrOf dns hsrc hlen]

/-- A name that is looked at further is in the table afterwards, whatever becomes of it. -/
theorem dnsPackNameLoop_records (h : dns.HashOk) (hsrc : src ≠ []) (hlen : src.length < dnsNameMax)
    (hat : dns.nameAt src = none) (hin : dns.buf ≤ dst ∧ dst < dns.bufEnd) (dstlen : Int) :
    (dnsPackNameLoop addrOf dns src dst dstlen).1.nameAt src ≠ none := by
  obtain ⟨dns₁, hget, htable, hsome, hnames⟩ := nameLookup_spec h src
  obtain ⟨-, -, hbuf, hbufEnd⟩ := htable.fields
  obtain ⟨htable', -, hput⟩ :=
    Dns.namePut_spec addrOf htable.hashOk hsome src (dst - dns₁.buf).toNat
  have hrecorded := (hput src).trans (if_pos rfl)
  rw [hat] at hget
  rw [dnsPackNameLoop_new addrOf hsrc hlen hget, if_neg (by rw [hbuf, hbufEnd]; exact not_not.mpr hin)]
  generalize dns₁.namePut addrOf src (dst - dns₁.buf).toNat = dns₂ at htable' hrecorded ⊢
  simp only
  split
  · rw [hrecorded]
    simp
  · have hok : ((dns₂.store dst [UInt8.ofNat (firstLabel src).length]).store (dst + 1)
        (firstLabel src)).HashOk := htable'.hashOk
    obtain ⟨dns', r, hloop, hcall, -⟩ := dnsPackNameLoop_spec addrOf (afterLabel src) hok
      (dst + 1 + (firstLabel src).length) (dstlen - 1 - (firstLabel src).length)
    rw [hloop, hcall.keeps src (length_afterLabel_lt hsrc)]
    show dns₂.nameAt src ≠ none
    rw [hrecorded]
    simp

/-- A name that fails otherwise has changed the table. -/
theorem nameRefused_of_failed (h : dns.HashOk) {dns' : Dns}
    (hpack : dnsPackName addrOf dns src dst dstlen = (dns', -1)) (hsame : SameNames dns dns') :
    NameRefused dns src dst dstlen := by
  by_cases hsrc : src = []
  · rw [hsrc, dnsPackName, dnsPackNameLoop_nil] at hpack
    have hret : dst + 1 - dst = -1 := congrArg Prod.snd hpack
    omega
  · refine ⟨hsrc, ?_⟩
    by_cases hlen : src.length < dnsNameMax
    · right
      obtain ⟨dns₁, hget, htable, hsome, hnames⟩ := nameLookup_spec h src
      obtain ⟨-, -, hbuf, hbufEnd⟩ := htable.fields
      cases hat : dns.nameAt src with
      | some i =>
          rw [hat] at hget
          rw [dnsPackName, dnsPackNameLoop_known addrOf hsrc hlen hget] at hpack
          by_cases hbad : ¬i < 49152 ∨ dstlen < 2
          · rw [if_pos hbad] at hpack
            obtain rfl : dns₁ = dns' := congrArg Prod.fst hpack
            exact ⟨hsame.isSome.symm.trans hsome, hbad⟩
          · rw [if_neg hbad] at hpack
            have hret : dst + 2 - dst = -1 := congrArg Prod.snd hpack
            omega
      | none =>
          by_cases hin : dns.buf ≤ dst ∧ dst < dns.bufEnd
          · exfalso
            have hrecorded := dnsPackNameLoop_records addrOf h hsrc hlen hat hin dstlen
            rw [← dnsPackName_fst, hpack, hsame.nameAt, hat] at hrecorded
            exact hrecorded rfl
          · rw [hat] at hget
            rw [dnsPackName, dnsPackNameLoop_new addrOf hsrc hlen hget,
              if_pos (by rw [hbuf, hbufEnd]; exact hin)] at hpack
            obtain rfl : dns₁ = dns' := congrArg Prod.fst hpack
            exact ⟨hsame.isSome.symm.trans hsome, hin⟩
    · exact Or.inl hlen

end

/-! ### Records -/

/-- The table when the name of the record has been written. -/
def Dns.behindName (dns : Dns) (rr : DnsRr) : SuffixTable :=
  dns.nameAt.extend (dns.ptr - dns.buf).toNat rr.name

/-- The bytes of the record's data. -/
def rdataSize (dns : Dns) (rr : DnsRr) : Nat :=
  if rr.rrType = DNS_TYPE_A then 4
  else if rr.hasName then (compressed (dns.behindName rr) rr.rdataName).length
  else rr.rdataLen.toNat

/-- The bytes of the record. A question ends behind its class. -/
def rrSize (dns : Dns) (rr : DnsRr) : Nat :=
  (compressed dns.nameAt rr.name).length +
    if rr.rrSection = DNS_RR_QUESTION then 4 else 10 + rdataSize dns rr

/-- The record fits behind `ptr`, and its names can be encoded. -/
structure RrFits (dns : Dns) (rr : DnsRr) : Prop where
  start : dns.buf ≤ dns.ptr
  room : dns.ptr + rrSize dns rr ≤ dns.bufEnd
  name : NameEncodable dns.nameAt rr.name
  rdata : rr.rrSection ≠ DNS_RR_QUESTION → rr.rrType ≠ DNS_TYPE_A → rr.hasName = true →
    NameEncodable (dns.behindName rr) rr.rdataName

/-- The section is one of the four that are counted. -/
def DnsRr.counted (rr : DnsRr) : Bool :=
  rr.rrSection = DNS_RR_QUESTION ∨ rr.rrSection = DNS_RR_ANSWER ∨
    rr.rrSection = DNS_RR_AUTHORITY ∨ rr.rrSection = DNS_RR_ADDITIONAL

/-- Every byte that the call has stored lies in the message. -/
def StoresInside (dns dns' : Dns) : Prop :=
  ∀ w ∈ dns.newStores dns', ∀ a, w.1 ≤ a → a < w.1 + w.2 → dns.buf ≤ a ∧ a < dns.bufEnd

/-- The counts, the pointer, the index and the table are as they were. -/
structure Unchanged (dns dns' : Dns) : Prop where
  qrcount : dns'.qrcount = dns.qrcount
  ancount : dns'.ancount = dns.ancount
  nscount : dns'.nscount = dns.nscount
  arcount : dns'.arcount = dns.arcount
  ptr : dns'.ptr = dns.ptr
  rrIdx : dns'.rrIdx = dns.rrIdx
  names : SameNames dns dns'

/-- The call stores inside the message only, and inside the array of its dump, and a record that does
not fit is an error that changes nothing. -/
def RrPackSafe (debugLevel : Int) (addrOf : Nat → Nat) (dns : Dns) (rr : DnsRr) : Prop :=
  StoresInside dns (dnsRrPack addrOf dns rr).1 ∧
    DumpInside (dnsRrDump debugLevel (dnsRrPack addrOf dns rr)) ∧
    (¬RrFits dns rr →
      (dnsRrPack addrOf dns rr).2.2 < 0 ∧ Unchanged dns (dnsRrPack addrOf dns rr).1)

/-- The message has been written to from `lo` to `hi` only. -/
def StoredIn (dns dns' : Dns) (lo hi : Int) : Prop :=
  ∃ ws, dns'.stored = dns.stored ++ ws ∧ ∀ w ∈ ws, lo ≤ w.1 ∧ w.1 + w.2 ≤ hi

theorem StoredIn.refl (dns : Dns) (lo hi : Int) : StoredIn dns dns lo hi :=
  ⟨[], (List.append_nil _).symm, fun _ hw => absurd hw List.not_mem_nil⟩

/-- What two steps store in a range, they store together. -/
theorem StoredIn.trans {dns dns' dns'' : Dns} {lo hi : Int} (h : StoredIn dns dns' lo hi)
    {lo' hi' : Int} (h' : StoredIn dns' dns'' lo' hi') (hlo : lo ≤ lo') (hhi : hi' ≤ hi) :
    StoredIn dns dns'' lo hi := by
  obtain ⟨ws, hws, hin⟩ := h
  obtain ⟨ws', hws', hin'⟩ := h'
  refine ⟨ws ++ ws', by rw [hws', hws, List.append_assoc], fun w hw => ?_⟩
  rcases List.mem_append.mp hw with hw | hw
  · exact hin w hw
  · obtain ⟨h1, h2⟩ := hin' w hw
    exact ⟨by omega, by omega⟩

theorem StoredIn.store {dns dns' : Dns} {lo hi : Int} (h : StoredIn dns dns' lo hi) {a : Int}
    {bs : List UInt8} (hlo : lo ≤ a) (hhi : a + bs.length ≤ hi) :
    StoredIn dns (dns'.store a bs) lo hi :=
  h.trans ⟨[(a, bs.length)], rfl, fun w hw => by rw [List.mem_singleton.mp hw]; exact ⟨hlo, hhi⟩⟩
    (Int.le_refl lo) (Int.le_refl hi)

theorem StoredIn.packU16 {dns dns' : Dns} {lo hi : Int} (h : StoredIn dns dns' lo hi) {p : Int}
    (v : UInt16) (hlo : lo ≤ p) (hhi : p + 2 ≤ hi) : StoredIn dns (dns'.packU16 p v) lo hi :=
  h.store hlo hhi

theorem StoredIn.packU32 {dns dns' : Dns} {lo hi : Int} (h : StoredIn dns dns' lo hi) {p : Int}
    (v : UInt32) (hlo : lo ≤ p) (hhi : p + 4 ≤ hi) : StoredIn dns (dns'.packU32 p v) lo hi :=
  h.store hlo hhi

theorem StoredIn.setPtr {dns dns' : Dns} {lo hi : Int} (h : StoredIn dns dns' lo hi) (p : Int) :
    StoredIn dns { dns' with ptr := p } lo hi := h

theorem StoredIn.typeClass {dns dns' : Dns} {lo hi : Int} (h : StoredIn dns dns' lo hi) (rr : DnsRr)
    (p : Int) (hlo : lo ≤ p) (hhi : p + 4 ≤ hi) :
    StoredIn dns (dnsTypeClassPack dns' rr p) lo hi :=
  (h.packU16 rr.rrType hlo (by omega)).packU16 rr.rrClass (by omega) (by omega)

theorem StoredIn.ttlLen {dns dns' : Dns} {lo hi : Int} (h : StoredIn dns dns' lo hi) (rr : DnsRr)
    (p : Int) (hlo : lo ≤ p) (hhi : p + 10 ≤ hi) : StoredIn dns (dnsTtlLenPack dns' rr p) lo hi :=
  (h.packU32 rr.ttl (by omega) (by omega)).packU16 rr.rdataLen (by omega) (by omega)

/-- Stores in a range of the buffer are inside it. -/
theorem StoredIn.inside {dns dns' : Dns} {lo hi : Int} (h : StoredIn dns dns' lo hi)
    (hlo : dns.buf ≤ lo) (hhi : hi ≤ dns.bufEnd) : StoresInside dns dns' := by
  obtain ⟨ws, hws, hin⟩ := h
  intro w hw a h1 h2
  rw [Dns.newStores, hws, List.drop_left] at hw
  obtain ⟨h3, h4⟩ := hin w hw
  exact ⟨by omega, by omega⟩

theorem NameWritten.storedIn {dns dns' : Dns} {src : List UInt8} {dst : Int}
    (h : NameWritten dns dns' src dst) :
    StoredIn dns dns' dst (dst + (compressed dns.nameAt src).length) := h.stored

/-- A name written adds its suffixes to the table at its offset. -/
theorem NameWritten.nameAt_eq {dns dns' : Dns} {src : List UInt8} {dst : Int}
    (h : NameWritten dns dns' src dst) :
    dns'.nameAt = dns.nameAt.extend (dst - dns.buf).toNat src := by
  funext k
  unfold SuffixTable.extend
  cases hlookup : (suffixOffsets dns.nameAt (dst - dns.buf).toNat src).lookup k with
  | some i =>
      obtain ⟨l₁, l₂, hsplit, -⟩ := List.lookup_eq_some_iff.mp hlookup
      rw [Option.some_or, (h.nameAt k i).mpr (Or.inl (hsplit ▸ by simp))]
  | none =>
      rw [Option.none_or]
      refine Option.ext fun i => ?_
      rw [h.nameAt k i, or_iff_right]
      intro hmem
      have hne := List.lookup_eq_none_iff.mp hlookup (k, i) hmem
      simp at hne

section
variable (addrOf : Nat → Nat) {dns : Dns} (rr : DnsRr)

/-- Only the counts differ when the section has been counted. -/
theorem dnsCountRr_eq (dns : Dns) (rrSection : Int) :
    ∃ qr an ns ar, dnsCountRr dns rrSection
      = { dns with qrcount := qr, ancount := an, nscount := ns, arcount := ar } := by
  unfold dnsCountRr
  split_ifs <;> exact ⟨_, _, _, _, rfl⟩

theorem dnsCountRr_of_not_counted (dns : Dns) (h : rr.counted = false) :
    dnsCountRr dns rr.rrSection = dns := by
  simp only [DnsRr.counted, decide_eq_false_iff_not, not_or] at h
  rw [dnsCountRr, if_neg h.1, if_neg h.2.1, if_neg h.2.2.1, if_neg h.2.2.2]

/-- A section that is counted has another count afterwards. -/
theorem dnsCountRr_changes (dns : Dns) (h : rr.counted = true) :
    ¬((dnsCountRr dns rr.rrSection).qrcount = dns.qrcount ∧
      (dnsCountRr dns rr.rrSection).ancount = dns.ancount ∧
      (dnsCountRr dns rr.rrSection).nscount = dns.nscount ∧
      (dnsCountRr dns rr.rrSection).arcount = dns.arcount) := by
  simp only [DnsRr.counted, decide_eq_true_eq] at h
  unfold dnsCountRr
  split_ifs with hqr han hns har
  · simp
  · simp
  · simp
  · simp
  · simp [hqr, han, hns, har] at h

/-- A record whose name is not written is an error; any other record is none. -/
theorem dnsRrPack_failed {dns' : Dns} {i : Int}
    (hpack : dnsPackName addrOf (dnsCountRr dns rr.rrSection) rr.name
      (dnsCountRr dns rr.rrSection).ptr ((dnsCountRr dns rr.rrSection).bufEnd
        - (dnsCountRr dns rr.rrSection).ptr) = (dns', i)) (hi : i ≤ 0) :
    dnsRrPack addrOf dns rr = (dns', rr, -1) := by
  rw [dnsRrPack]
  simp only [hpack, if_pos hi]

/-- A record whose name is packed gives 1, whatever becomes of its data. -/
theorem dnsRrPack_ret_pos {i : Int}
    (hpack : (dnsPackName addrOf (dnsCountRr dns rr.rrSection) rr.name
      (dnsCountRr dns rr.rrSection).ptr ((dnsCountRr dns rr.rrSection).bufEnd
        - (dnsCountRr dns rr.rrSection).ptr)).2 = i) (hi : 0 < i) :
    (dnsRrPack addrOf dns rr).2.2 = 1 := by
  rw [dnsRrPack]
  simp only [hpack, if_neg (Int.not_le.mpr hi)]
  split <;> rfl

/-- The data of a record that fits is stored behind its length, which is stored anew. -/
theorem dnsRdataPack_storedIn (h : dns.HashOk) (p : Int)
    (henc : rr.rrType ≠ DNS_TYPE_A → rr.hasName = true → NameEncodable dns.nameAt rr.rdataName)
    (hlo : dns.buf ≤ p) {n : Nat}
    (hn : n = if rr.rrType = DNS_TYPE_A then 4
      else if rr.hasName then (compressed dns.nameAt rr.rdataName).length else rr.rdataLen.toNat)
    (hend : p + n ≤ dns.bufEnd) :
    StoredIn dns (dnsRdataPack addrOf dns rr p).1 (p - 2) (p + n) := by
  unfold dnsRdataPack
  by_cases hA : rr.rrType = DNS_TYPE_A
  · rw [if_pos hA] at hn ⊢
    have hlen : ((bytes32 rr.rdataAddr).length : Int) = 4 := rfl
    exact ((StoredIn.refl dns (p - 2) (p + n)).store (by omega) (by omega)).packU16 4 (by omega)
      (by omega)
  · rw [if_neg hA] at hn ⊢
    by_cases hname : rr.hasName = true
    · rw [if_pos hname] at hn ⊢
      have hencode := henc hA hname
      -- The name has less than 256 bytes, so the room given for it does not matter.
      have hsize := length_compressed_le dns.nameAt fun l hl => (hencode.labels l hl).1
      have htotal := hencode.total
      have hroom : ((compressed dns.nameAt rr.rdataName).length : Int) ≤ dnsNameMax := by
        unfold dnsNameMax
        omega
      obtain ⟨dns', hpack, -, hwritten⟩ :=
        dnsPackName_fits addrOf p dnsNameMax h hencode hlo (by omega) hroom
      simp only [hpack]
      have hstored := hwritten.storedIn
      rw [← hn] at hstored
      exact ((StoredIn.refl dns (p - 2) (p + n)).trans hstored (by omega) (by omega)).packU16 _
        (by omega) (by omega)
    · rw [if_neg hname] at hn ⊢
      split
      · refine (StoredIn.refl dns (p - 2) (p + n)).store (by omega) ?_
        rw [length_readAt, hn]
      · exact StoredIn.refl _ _ _

/-- A record that fits is stored behind `ptr`. -/
theorem dnsRrPack_storedIn (h : dns.HashOk) (hfits : RrFits dns rr) :
    StoredIn dns (dnsRrPack addrOf dns rr).1 dns.ptr dns.bufEnd := by
  have hroom := hfits.room
  have hstart := hfits.start
  unfold rrSize at hroom
  obtain ⟨qr, an, ns, ar, hcount⟩ := dnsCountRr_eq dns rr.rrSection
  rw [dnsRrPack, hcount]
  generalize hdns₀ : ({ dns with qrcount := qr, ancount := an, nscount := ns, arcount := ar } : Dns)
    = dns₀
  have hok : dns₀.HashOk := by rw [← hdns₀]; exact h
  have hnames : dns₀.nameAt = dns.nameAt := by rw [← hdns₀]; rfl
  have hbuf : dns₀.buf = dns.buf := by rw [← hdns₀]
  have hbufEnd : dns₀.bufEnd = dns.bufEnd := by rw [← hdns₀]
  have hptr : dns₀.ptr = dns.ptr := by rw [← hdns₀]
  -- the counters are not in the buffer
  have hcounted : StoredIn dns dns₀ dns.ptr dns.bufEnd := by
    rw [← hdns₀]
    exact StoredIn.refl dns dns.ptr dns.bufEnd
  have hname : dns.ptr + (compressed dns.nameAt rr.name).length ≤ dns.bufEnd := by
    push_cast at hroom
    omega
  obtain ⟨dns₁, hpack, hcall, hwritten⟩ := dnsPackName_fits addrOf dns₀.ptr
    (dns₀.bufEnd - dns₀.ptr) hok (hnames ▸ hfits.name) (by omega) (by rw [hnames]; omega)
    (by rw [hnames]; omega)
  have hbehind : dns₁.nameAt = dns.behindName rr := by
    rw [hwritten.nameAt_eq, hnames, hptr, hbuf]
    rfl
  have hpos := length_compressed_pos dns.nameAt rr.name
  have hstored₁ : StoredIn dns dns₁ dns.ptr dns.bufEnd :=
    hcounted.trans hwritten.storedIn (by omega) (by rw [hnames]; omega)
  obtain ⟨hbuf₁, hbufEnd₁, hptr₁⟩ := hcall.fields
  rw [hnames] at hpack
  simp only [hpack]
  rw [if_neg (by omega)]
  generalize hdns₂ : ({ dns₁ with rrIdx := dns₁.rrIdx + 1 } : Dns) = dns₂
  rw [hptr₁, hptr]
  generalize hn : (compressed dns.nameAt rr.name).length = n at *
  have hstored₂ : StoredIn dns dns₂ dns.ptr dns.bufEnd := by
    rw [← hdns₂]
    exact hstored₁
  by_cases hquestion : rr.rrSection = DNS_RR_QUESTION
  · rw [if_pos hquestion] at hroom ⊢
    have hend : dns.ptr + n + 4 ≤ dns.bufEnd := by
      push_cast at hroom
      omega
    exact (hstored₂.typeClass rr (dns.ptr + n) (by omega) hend).setPtr _
  · rw [if_neg hquestion] at hroom ⊢
    push_cast at hroom
    -- ten bytes of fields, and the data behind them
    have hfields := (hstored₂.typeClass rr (dns.ptr + n) (by omega) (by omega)).ttlLen rr
      (dns.ptr + n) (by omega) (by omega)
    have hok₃ : (dnsTtlLenPack (dnsTypeClassPack dns₂ rr (dns.ptr + n)) rr (dns.ptr + n)).HashOk := by
      rw [← hdns₂]
      exact hcall.hashOk
    have hnames₃ : (dnsTtlLenPack (dnsTypeClassPack dns₂ rr (dns.ptr + n)) rr
        (dns.ptr + n)).nameAt = dns.behindName rr := by
      rw [← hdns₂]
      exact hbehind
    have hbuf₃ : (dnsTtlLenPack (dnsTypeClassPack dns₂ rr (dns.ptr + n)) rr (dns.ptr + n)).buf
        = dns.buf := by
      rw [← hbuf, ← hbuf₁, ← hdns₂]
      rfl
    have hbufEnd₃ : (dnsTtlLenPack (dnsTypeClassPack dns₂ rr (dns.ptr + n)) rr
        (dns.ptr + n)).bufEnd = dns.bufEnd := by
      rw [← hbufEnd, ← hbufEnd₁, ← hdns₂]
      rfl
    generalize dnsTtlLenPack (dnsTypeClassPack dns₂ rr (dns.ptr + n)) rr (dns.ptr + n) = dns₃ at *
    have hrdata := dnsRdataPack_storedIn addrOf rr hok₃ (dns.ptr + n + 10)
      (fun hA hhas => by rw [hnames₃]; exact hfits.rdata hquestion hA hhas) (by omega)
      (show rdataSize dns rr = _ by rw [hnames₃]; rfl) (by omega)
    generalize dnsRdataPack addrOf dns₃ rr (dns.ptr + n + 10) = r at hrdata ⊢
    exact (hfields.trans hrdata (by omega) (by omega)).setPtr _

/-- A record that fits is no error. -/
theorem dnsRrPack_ret_of_fits (h : dns.HashOk) (hfits : RrFits dns rr) :
    (dnsRrPack addrOf dns rr).2.2 = 1 := by
  have hroom := hfits.room
  unfold rrSize at hroom
  push_cast at hroom
  obtain ⟨qr, an, ns, ar, hcount⟩ := dnsCountRr_eq dns rr.rrSection
  have hok : (dnsCountRr dns rr.rrSection).HashOk := by rw [hcount]; exact h
  have hnames : (dnsCountRr dns rr.rrSection).nameAt = dns.nameAt := by rw [hcount]; rfl
  have hbuf : (dnsCountRr dns rr.rrSection).buf = dns.buf := by rw [hcount]
  have hbufEnd : (dnsCountRr dns rr.rrSection).bufEnd = dns.bufEnd := by rw [hcount]
  have hptr : (dnsCountRr dns rr.rrSection).ptr = dns.ptr := by rw [hcount]
  have hstart := hfits.start
  obtain ⟨dns₁, hpack, -, -⟩ := dnsPackName_fits addrOf (dnsCountRr dns rr.rrSection).ptr
    ((dnsCountRr dns rr.rrSection).bufEnd - (dnsCountRr dns rr.rrSection).ptr) hok
    (hnames ▸ hfits.name) (by omega) (by rw [hnames]; omega) (by rw [hnames]; omega)
  have hpos := length_compressed_pos (dnsCountRr dns rr.rrSection).nameAt rr.name
  exact dnsRrPack_ret_pos addrOf rr (congrArg Prod.snd hpack) (by omega)

/-- The exact condition: the record fits, or its section is none of the four, its name is refused
at once and the message is one that can be dumped. -/
theorem rrPackSafe_iff (debugLevel : Int) (h : dns.HashOk) :
    RrPackSafe debugLevel addrOf dns rr ↔ RrFits dns rr ∨
      rr.counted = false ∧ NameRefused dns rr.name dns.ptr (dns.bufEnd - dns.ptr) ∧
        DumpFits debugWARN debugLevel (dns.bufEnd - dns.buf) := by
  unfold RrPackSafe
  rw [dnsRrDump_inside_iff]
  constructor
  · rintro ⟨-, hdump, hsafe⟩
    by_cases hfits : RrFits dns rr
    · exact Or.inl hfits
    · right
      obtain ⟨hret, hsame⟩ := hsafe hfits
      obtain ⟨qr, an, ns, ar, hcount⟩ := dnsCountRr_eq dns rr.rrSection
      have hok : (dnsCountRr dns rr.rrSection).HashOk := by rw [hcount]; exact h
      obtain ⟨dns', i, hpack, hcall, hcases⟩ := dnsPackName_spec addrOf hok rr.name
        (dnsCountRr dns rr.rrSection).ptr ((dnsCountRr dns rr.rrSection).bufEnd
          - (dnsCountRr dns rr.rrSection).ptr)
      -- A name that was written would have made the call return 1.
      have hi : i = -1 := by
        refine hcases.resolve_right ?_
        rintro ⟨hi, -⟩
        have hpos := length_compressed_pos (dnsCountRr dns rr.rrSection).nameAt rr.name
        rw [dnsRrPack_ret_pos addrOf rr (congrArg Prod.snd hpack) (by omega)] at hret
        exact absurd hret (by decide)
      subst hi
      rw [dnsRrPack_failed addrOf rr hpack (by decide)] at hsame hdump
      have hdump' := hdump (show (-1 : Int) < 0 by decide)
      cases hcounted : rr.counted with
      | true =>
          obtain ⟨_, _, _, rfl⟩ := hcall.eq
          exact absurd ⟨hsame.qrcount, hsame.ancount, hsame.nscount, hsame.arcount⟩
            (dnsCountRr_changes rr dns hcounted)
      | false =>
          rw [dnsCountRr_of_not_counted rr dns hcounted] at hpack hcall
          obtain ⟨hbuf, hbufEnd, -⟩ := hcall.fields
          rw [hbuf, hbufEnd] at hdump'
          exact ⟨rfl, nameRefused_of_failed addrOf h hpack hsame.names, hdump'⟩
  · rintro (hfits | ⟨hcounted, hrefused, hdump⟩)
    · refine ⟨(dnsRrPack_storedIn addrOf rr h hfits).inside hfits.start (Int.le_refl _),
        fun hret => ?_, fun hnot => absurd hfits hnot⟩
      rw [dnsRrPack_ret_of_fits addrOf rr h hfits] at hret
      exact absurd hret (by decide)
    · obtain ⟨dns', hpack, htable, hnames⟩ := dnsPackName_refused addrOf h hrefused
      have hfailed : dnsRrPack addrOf dns rr = (dns', rr, -1) := by
        refine dnsRrPack_failed addrOf rr (i := -1) ?_ (by decide)
        rw [dnsCountRr_of_not_counted rr dns hcounted]
        exact hpack
      obtain ⟨_, rfl⟩ := htable.eq
      rw [hfailed]
      refine ⟨(StoredIn.refl _ dns.buf dns.bufEnd).inside (Int.le_refl _) (Int.le_refl _),
        fun _ => hdump, fun _ => ?_⟩
      exact ⟨show (-1 : Int) < 0 by decide, rfl, rfl, rfl, rfl, rfl, rfl, hnames⟩

end

/-- An answer of type A for the root name. -/
def rootAnswer : DnsRr := ⟨DNS_RR_ANSWER, [], DNS_TYPE_A, 1, 60, 0, 0, 0, []⟩

/-- A record that fits. -/
theorem rrPackSafe_root :
    RrPackSafe debugWARN id (dnsInit (fun _ => 0) 4096 27).1 rootAnswer := by
  refine (rrPackSafe_iff id rootAnswer debugWARN
    (fun hash hsome => absurd hsome (by simp [dnsInit]))).mpr ?_
  refine Or.inl ⟨by decide +kernel, by decide +kernel, ⟨?_, by decide +kernel, ?_⟩, ?_⟩
  · simp [rootAnswer]
  · simp [rootAnswer]
  · intro _ hA
    exact absurd rfl hA

/-- With four bytes left the record is stored far beyond the end and reported as packed, and a name
that does not fit fails with the answer counted. -/
theorem rrPackSafe_overrun :
    (dnsRrPack id (dnsInit (fun _ => 0) 4096 16).1 rootAnswer).2.2 = 1 ∧
      ¬RrPackSafe (-1) id (dnsInit (fun _ => 0) 4096 16).1 rootAnswer ∧
      (dnsRrPack id (dnsInit (fun _ => 0) 4096 13).1 { rootAnswer with name := [97] }).2.2 = -1 ∧
      (dnsRrPack id (dnsInit (fun _ => 0) 4096 13).1 { rootAnswer with name := [97] }).1.ancount
        = 1 := by
  refine ⟨by decide +kernel, fun hsafe => ?_, by decide +kernel, by decide +kernel⟩
  have hmem : ((4119, 4) : Int × Nat) ∈ (dnsInit (fun _ => 0) 4096 16).1.newStores
      (dnsRrPack id (dnsInit (fun _ => 0) 4096 16).1 rootAnswer).1 := by decide +kernel
  have hlt := (hsafe.1 (4119, 4) hmem 4119 (Int.le_refl _) (by decide)).2
  exact absurd hlt (by decide)

end Bklib
