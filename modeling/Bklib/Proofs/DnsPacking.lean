import Bklib.Proofs.DnsHeader
import Bklib.Proofs.DnsRecord

/-!
# `Bklib.Proofs.DnsPacking`: what `dns_rr_pack` writes

`RrBytes` gives the bytes of a record, and the table of names behind it. A call that succeeds inside
the message has written these bytes at `ptr` (`dnsRrPack_bytes`). Where the names of a record can be
read back (`RrReadable`), the bytes are a record for `dns_rr_pack` on the other side, and the table
leads to names that can be read (`RrBytes.recordAt`). `Packing` is what holds between the calls, and
`Packing.step` is the step lemma.
-/

set_option autoImplicit false

namespace Bklib

open Bklib.Lib

/-- The cells of the records that have been packed. Those of the header are written last. -/
def Dns.packed (dns : Dns) (i : Nat) : Option UInt8 :=
  if 12 ≤ i ∧ dns.buf + i < dns.ptr then some (dns.mem (dns.buf + i)) else none

/-- The offset of `ptr`. -/
def Dns.pos (dns : Dns) : Nat := (dns.ptr - dns.buf).toNat

/-- What holds between the calls that pack records. -/
structure Packing (dns : Dns) : Prop where
  hashOk : dns.HashOk
  start : dns.buf + 12 ≤ dns.ptr
  table : dns.nameAt.Chained dns.packed PointerReads

/-- The bytes of the record behind the names of `tbl`, and the table when it stands at `pos`. -/
inductive RrBytes (tbl : SuffixTable) (pos : Nat) (rr : DnsRr) : List UInt8 → SuffixTable → Prop where
  | question (hsection : rr.rrSection = DNS_RR_QUESTION) :
      RrBytes tbl pos rr (compressed tbl rr.name ++ rr.typeClassBytes) (tbl.extend pos rr.name)
  | addr (hsection : rr.rrSection ≠ DNS_RR_QUESTION) (htype : rr.rrType = DNS_TYPE_A) :
      RrBytes tbl pos rr
        (compressed tbl rr.name ++ (rr.typeClassBytes ++ rr.ttlLenBytes 4) ++ bytes32 rr.rdataAddr)
        (tbl.extend pos rr.name)
  | name {bs : List UInt8} {n : UInt16} (hsection : rr.rrSection ≠ DNS_RR_QUESTION)
      (htype : rr.rrType ≠ DNS_TYPE_A) (hname : rr.hasName = true)
      (hbs : bs = compressed (tbl.extend pos rr.name) rr.rdataName) (hn : n.toNat = bs.length) :
      RrBytes tbl pos rr
        (compressed tbl rr.name ++ (rr.typeClassBytes ++ rr.ttlLenBytes n) ++ bs)
        ((tbl.extend pos rr.name).extend (pos + (compressed tbl rr.name).length + 10) rr.rdataName)

/-- The data of the record is an address, or a name that can be read back. -/
def RdataReadable (dns : Dns) (rr : DnsRr) : Prop :=
  rr.rrType = DNS_TYPE_A ∨
    rr.rrType ≠ DNS_TYPE_A ∧ rr.hasName = true ∧ wireLen rr.rdataName < 256 ∧
      DataReadable dns.nameAt dns.packed dns.pos rr.name rr.rdataName

/-- The record can be read back when it is packed next. -/
structure RrReadable (dns : Dns) (rr : DnsRr) : Prop where
  name : NameReadable dns.nameAt dns.packed rr.name
  data : rr.rrSection ≠ DNS_RR_QUESTION → RdataReadable dns rr

/-! ### The record in the message -/

/-- The bytes of a record that can be read back are a record, and the table behind it leads to names
that can be read. -/
theorem RrBytes.recordAt {tbl tbl' : SuffixTable} {m m' : Nat → Option UInt8} {pos : Nat} {rr : DnsRr}
    {bs : List UInt8} (h : RrBytes tbl pos rr bs tbl') (htbl : tbl.Chained m PointerReads)
    (hle : CellsLe m m') (hpos : ∀ i b, m' i = some b → 0 < i)
    (hbefore : ∀ i b, m i = some b → i < pos) (hholds : Holds m' pos bs)
    (hname : NameReadable tbl m rr.name)
    (hdata : rr.rrSection ≠ DNS_RR_QUESTION → rr.rrType ≠ DNS_TYPE_A →
      DataReadable tbl m pos rr.name rr.rdataName) :
    RecordAt m' pos rr (pos + bs.length) ∧ tbl'.Chained m' PointerReads := by
  have hpos₀ : ∀ i b, m i = some b → 0 < i := fun i b hb => hpos i b (hle i b hb)
  -- the first name is read where it was written; a second one may point into the first
  cases h with
  | question hsection =>
      obtain ⟨hfirst, hrest⟩ := holds_append.mp hholds
      obtain ⟨hat, hchained, -⟩ := hname.written htbl hle hpos₀ hfirst
      refine ⟨?_, hchained⟩
      rw [List.length_append, ← Nat.add_assoc]
      exact .question hsection hat hrest
  | addr hsection htype =>
      obtain ⟨hfront, haddr⟩ := holds_append.mp hholds
      obtain ⟨hfirst, hfields⟩ := holds_append.mp hfront
      obtain ⟨hat, hchained, -⟩ := hname.written htbl hle hpos₀ hfirst
      refine ⟨?_, hchained⟩
      have hlen : (rr.typeClassBytes ++ rr.ttlLenBytes 4).length = 10 := rfl
      rw [List.length_append, hlen, ← Nat.add_assoc] at haddr
      rw [List.length_append, List.length_append, hlen, length_bytes32, ← Nat.add_assoc,
        ← Nat.add_assoc]
      exact .resource hsection hat hfields rfl (.addr htype haddr)
  | @name bs n hsection htype hhas hbs hn =>
      obtain ⟨hfront, hsecond⟩ := holds_append.mp hholds
      obtain ⟨hfirst, hfields⟩ := holds_append.mp hfront
      obtain ⟨hat, hchained, -⟩ := hname.written htbl hle hpos₀ hfirst
      have hreadable := (hdata hsection htype).nameReadable hname htbl hle hpos₀ hbefore hfirst
      rw [List.length_append, ← Nat.add_assoc] at hsecond
      have hlen : (rr.typeClassBytes ++ rr.ttlLenBytes n).length = 10 := rfl
      rw [hlen, hbs] at hsecond
      obtain ⟨hat', hchained', -⟩ := hreadable.written hchained (fun _ _ hb => hb) hpos hsecond
      rw [← hbs] at hat'
      refine ⟨?_, hchained'⟩
      rw [List.length_append, List.length_append, hlen, ← Nat.add_assoc, ← Nat.add_assoc]
      exact .resource hsection hat hfields (by rw [hn]) (.name htype hhas hat')

/-! ### The bytes that a call writes -/

theorem dnsTypeClassPack_mem (dns : Dns) (rr : DnsRr) (p : Int) :
    (dnsTypeClassPack dns rr p).mem = writeAt dns.mem p rr.typeClassBytes := by
  rw [DnsRr.typeClassBytes, writeAt_append, length_bytes16]
  rfl

/-- The time to live and the length are stored behind the type and the class. -/
theorem dnsTtlLenPack_mem (dns : Dns) (rr : DnsRr) (p : Int) :
    (dnsTtlLenPack dns rr p).mem = writeAt dns.mem (p + 4) (rr.ttlLenBytes rr.rdataLen) := by
  have happend := writeAt_append dns.mem (p + 4) (bytes32 (htonl rr.ttl))
    (bytes16 (htons rr.rdataLen.toNat))
  rw [length_bytes32, show p + 4 + ((4 : Nat) : Int) = p + 8 by push_cast; omega] at happend
  exact happend.symm

/-- The length of the data is written before the data is, and once more behind it. -/
theorem writeAt_lenAgain (m : Int → UInt8) (a : Int) (front data : List UInt8) (ttl : UInt32)
    (n n' : UInt16) {b c : Int} (hb : b = a + front.length + 6) (hc : c = a + front.length + 4) :
    writeAt (writeAt (writeAt m a (front ++ (bytes32 (htonl ttl) ++ bytes16 (htons n.toNat)))) b data) c
        (bytes16 (htons n'.toNat))
      = writeAt m a (front ++ (bytes32 (htonl ttl) ++ bytes16 (htons n'.toNat)) ++ data) := by
  have hfront : ∀ k : UInt16, writeAt m a (front ++ (bytes32 (htonl ttl) ++ bytes16 (htons k.toNat)))
      = writeAt (writeAt m a (front ++ bytes32 (htonl ttl))) c (bytes16 (htons k.toNat)) := by
    intro k
    rw [← List.append_assoc, writeAt_append, List.length_append, length_bytes32, hc]
    push_cast
    rw [Int.add_assoc]
  have hlen : (front ++ (bytes32 (htonl ttl) ++ bytes16 (htons n'.toNat))).length
      = front.length + 6 := by
    simp only [List.length_append, length_bytes32, length_bytes16]
  have haway : c + (bytes16 (htons n'.toNat)).length ≤ b := by
    rw [length_bytes16]
    push_cast
    omega
  rw [writeAt_append m a _ data, hlen, hfront n, hfront n', writeAt_comm _ data _ (Or.inr haway),
    writeAt_writeAt _ c (by rw [length_bytes16, length_bytes16]), hb]
  push_cast
  rw [Int.add_assoc]

/-- Only the memory, the stores, the table, the index and `ptr` are not those of `dns`. -/
def Dns.Packed (dns dns' : Dns) : Prop :=
  ∃ mem stored hash ptr, dns' = { dns with
    mem := mem, stored := stored, nameHash := hash, ptr := ptr, rrIdx := dns.rrIdx + 1 }

/-- The message is where it was. -/
theorem Dns.Packed.place {dns dns' : Dns} {rrSection : Int}
    (h : (dnsCountRr dns rrSection).Packed dns') :
    dns'.buf = dns.buf ∧ dns'.bufEnd = dns.bufEnd := by
  obtain ⟨_, _, _, _, heq⟩ := h
  obtain ⟨_, _, _, _, hcount⟩ := dnsCountRr_eq dns rrSection
  rw [heq, hcount]
  exact ⟨rfl, rfl⟩

/-- The record has been packed at `ptr`. -/
def RrPacked (dns : Dns) (rr : DnsRr) (dns' : Dns) : Prop :=
  ∃ bs tbl, dns'.HashOk ∧ (dnsCountRr dns rr.rrSection).Packed dns' ∧
    dns'.mem = writeAt dns.mem dns.ptr bs ∧ dns'.ptr = dns.ptr + bs.length ∧ dns'.nameAt = tbl ∧
    RrBytes dns.nameAt dns.pos rr bs tbl

section
variable (addrOf : Nat → Nat) {dns : Dns} {rr : DnsRr}

/-- The data of a record, behind its fixed fields. -/
theorem dnsRdataPack_bytes (h : dns.HashOk) {p q : Int} {front : List UInt8} {m : Int → UInt8}
    (hmem : dns.mem = writeAt m q (front ++ rr.ttlLenBytes rr.rdataLen))
    (hp : p = q + front.length + 6) (hlo : dns.buf ≤ p)
    (hkind : rr.rrType = DNS_TYPE_A ∨ rr.rrType ≠ DNS_TYPE_A ∧ rr.hasName = true ∧
      wireLen rr.rdataName < 256 ∧ (∀ l ∈ nameLabels rr.rdataName, 1 ≤ l.length) ∧
      ∀ i, knownSuffix dns.nameAt rr.rdataName = some i → i < 16384)
    (hend : p + (dnsRdataPack addrOf dns rr p).2.rdataLen.toNat ≤ dns.bufEnd) :
    ∃ dns' n bs, dnsRdataPack addrOf dns rr p = (dns', { rr with rdataLen := n }) ∧ dns'.HashOk ∧
      (∃ mem stored hash, dns' = { dns with mem := mem, stored := stored, nameHash := hash }) ∧
      dns'.mem = writeAt m q (front ++ rr.ttlLenBytes n ++ bs) ∧ n.toNat = bs.length ∧
      (rr.rrType = DNS_TYPE_A ∧ n = 4 ∧ bs = bytes32 rr.rdataAddr ∧ dns'.nameAt = dns.nameAt ∨
        rr.rrType ≠ DNS_TYPE_A ∧ rr.hasName = true ∧ bs = compressed dns.nameAt rr.rdataName ∧
          dns'.nameAt = dns.nameAt.extend (p - dns.buf).toNat rr.rdataName) := by
  rcases hkind with hA | ⟨hA, hname, hwire, hlabels, hpointer⟩
  · refine ⟨((dns.store p (bytes32 rr.rdataAddr)).packU16 (p - 2) 4), 4, bytes32 rr.rdataAddr, ?_, h,
      ⟨_, _, _, rfl⟩, ?_, rfl, Or.inl ⟨hA, rfl, rfl, rfl⟩⟩
    · rw [dnsRdataPack, if_pos hA]
    · show writeAt (writeAt dns.mem p (bytes32 rr.rdataAddr)) (p - 2)
        (bytes16 (htons (4 : UInt16).toNat)) = _
      rw [hmem]
      exact writeAt_lenAgain m q front _ rr.ttl rr.rdataLen 4 hp (by omega)
  · have hsize : (compressed dns.nameAt rr.rdataName).length < 256 :=
      Nat.lt_of_le_of_lt (length_compressed_le dns.nameAt hlabels) hwire
    -- A call that fails would end far behind a name that fits.
    obtain ⟨dns', i, hpack, hcall, hcases⟩ := dnsPackName_spec addrOf h rr.rdataName p dnsNameMax
    have hunfold : dnsRdataPack addrOf dns rr p
        = (dns'.packU16 (p - 2) (UInt16.ofInt i), { rr with rdataLen := UInt16.ofInt i }) := by
      rw [dnsRdataPack, if_neg hA, if_pos hname]
      simp only [hpack]
    have hdone : i = (compressed dns.nameAt rr.rdataName).length ∧
        NameWritten dns dns' rr.rdataName p := by
      rcases hcases with rfl | hdone
      · rw [hunfold] at hend
        have hfar : p + 65535 ≤ dns.bufEnd := hend
        obtain ⟨dns'', hpack', -⟩ := dnsPackName_short addrOf p dnsNameMax h
          (Nat.lt_trans (length_lt_wireLen _) hwire) hpointer hlo (by omega)
          (by unfold dnsNameMax; omega)
        have hret := congrArg Prod.snd (hpack.symm.trans hpack')
        have hret : (-1 : Int) = (compressed dns.nameAt rr.rdataName).length := hret
        omega
      · exact hdone
    obtain ⟨rfl, hwritten⟩ := hdone
    have hn : (UInt16.ofInt ((compressed dns.nameAt rr.rdataName).length : Int)).toNat
        = (compressed dns.nameAt rr.rdataName).length := by
      have hnat : (UInt16.ofNat (compressed dns.nameAt rr.rdataName).length).toNat
          = (compressed dns.nameAt rr.rdataName).length := by
        rw [UInt16.toNat_ofNat']
        omega
      have hof := ofInt_toNat (UInt16.ofNat (compressed dns.nameAt rr.rdataName).length)
      rw [hnat] at hof
      rw [hof, hnat]
    obtain ⟨mem, stored, hash, heq⟩ := hcall.eq
    refine ⟨_, _, _, hunfold, ?_, ?_, ?_, hn, Or.inr ⟨hA, hname, rfl, hwritten.nameAt_eq⟩⟩
    · exact hcall.hashOk
    · rw [heq]
      exact ⟨_, _, _, rfl⟩
    · show writeAt dns'.mem (p - 2) _ = _
      rw [hwritten.mem, hmem]
      exact writeAt_lenAgain m q front _ rr.ttl rr.rdataLen _ hp (by omega)

/-- The name of the record has been packed: what has been written, and how the call goes on. -/
structure NamePacked (dns : Dns) (rr : DnsRr) (dns₁ : Dns) : Prop where
  hashOk : dns₁.HashOk
  packed : (dnsCountRr dns rr.rrSection).Packed dns₁
  mem : dns₁.mem = writeAt dns.mem dns.ptr (compressed dns.nameAt rr.name)
  names : dns₁.nameAt = dns.nameAt.extend dns.pos rr.name
  call : dnsRrPack addrOf dns rr =
    let p := dns.ptr + (compressed dns.nameAt rr.name).length
    if rr.rrSection = DNS_RR_QUESTION then
      ({ dnsTypeClassPack dns₁ rr p with ptr := p + 4 }, rr, (1 : Int))
    else
      let r := dnsRdataPack addrOf (dnsTtlLenPack (dnsTypeClassPack dns₁ rr p) rr p) rr (p + 10)
      ({ r.1 with ptr := p + 10 + r.2.rdataLen.toNat }, { r.2 with rdataPtr := p + 10 }, (1 : Int))

/-- A call that succeeds has packed the name. -/
theorem dnsRrPack_name (h : dns.HashOk) (hret : (dnsRrPack addrOf dns rr).2.2 = 1) :
    ∃ dns₁, NamePacked addrOf dns rr dns₁ := by
  obtain ⟨qr, an, ns, ar, hcount⟩ := dnsCountRr_eq dns rr.rrSection
  have hok : (dnsCountRr dns rr.rrSection).HashOk := by rw [hcount]; exact h
  obtain ⟨dns', i, hpack, hcall, hcases⟩ :=
    dnsPackName_spec addrOf hok rr.name (dnsCountRr dns rr.rrSection).ptr
      ((dnsCountRr dns rr.rrSection).bufEnd - (dnsCountRr dns rr.rrSection).ptr)
  obtain ⟨rfl, hwritten⟩ := hcases.resolve_left (by
    rintro rfl
    rw [dnsRrPack_failed addrOf rr hpack (by decide)] at hret
    exact absurd (show (-1 : Int) = 1 from hret) (by decide))
  have hmem := hwritten.mem
  have hnames := hwritten.nameAt_eq
  obtain ⟨-, -, hptr'⟩ := hcall.fields
  obtain ⟨mem, stored, hash, heq⟩ := hcall.eq
  have hpos := length_compressed_pos dns.nameAt rr.name
  -- The counts are not looked at.
  have hsame : (dnsCountRr dns rr.rrSection).nameAt = dns.nameAt ∧
      (dnsCountRr dns rr.rrSection).ptr = dns.ptr ∧ (dnsCountRr dns rr.rrSection).mem = dns.mem ∧
      (dnsCountRr dns rr.rrSection).buf = dns.buf := by
    rw [hcount]
    exact ⟨rfl, rfl, rfl, rfl⟩
  obtain ⟨hnameAt, hptr, hmem₀, hbuf⟩ := hsame
  rw [hnameAt, hptr, hmem₀] at hmem
  rw [hnameAt, hptr, hbuf] at hnames
  rw [hnameAt] at hpack
  refine ⟨{ dns' with rrIdx := dns'.rrIdx + 1 }, hcall.hashOk, ?_, hmem, hnames, ?_⟩
  · rw [heq]
    exact ⟨_, _, _, _, rfl⟩
  · rw [dnsRrPack]
    simp only [hpack]
    rw [if_neg (by omega), hptr', hptr]

/-- Behind the name of a question, its type and its class. -/
theorem NamePacked.question {dns₁ : Dns} (h : NamePacked addrOf dns rr dns₁)
    (hquestion : rr.rrSection = DNS_RR_QUESTION) :
    RrPacked dns rr (dnsRrPack addrOf dns rr).1 := by
  have hcall := h.call
  dsimp only at hcall
  rw [if_pos hquestion] at hcall
  rw [hcall]
  refine ⟨_, _, h.hashOk, ?_, ?_, ?_, h.names, .question hquestion⟩
  · obtain ⟨_, _, _, _, heq⟩ := h.packed
    rw [heq]
    exact ⟨_, _, _, _, rfl⟩
  · show (dnsTypeClassPack dns₁ rr _).mem = _
    rw [dnsTypeClassPack_mem, h.mem, writeAt_append]
  · show dns.ptr + ((compressed dns.nameAt rr.name).length : Int) + 4 = _
    rw [List.length_append, show rr.typeClassBytes.length = 4 from rfl]
    push_cast
    omega

/-- The condition of the data, behind the name. -/
theorem RdataReadable.kind (hdata : RdataReadable dns rr) :
    rr.rrType = DNS_TYPE_A ∨ rr.rrType ≠ DNS_TYPE_A ∧ rr.hasName = true ∧
      wireLen rr.rdataName < 256 ∧ (∀ l ∈ nameLabels rr.rdataName, 1 ≤ l.length) ∧
      ∀ i, knownSuffix (dns.nameAt.extend dns.pos rr.name) rr.rdataName = some i → i < 16384 := by
  rcases hdata with hA | ⟨hA, hname, hwire, hdata⟩
  · exact Or.inl hA
  · obtain ⟨ls, hls, hdotted⟩ := hdata.labels
    refine Or.inr ⟨hA, hname, hwire, ?_, fun i hi => (hdata.pointer i hi).1⟩
    rw [hdotted, nameLabels_dotted hls]
    exact fun l hl => (hls l hl).pos

/-- Behind the name of another record, its fixed fields and its data. -/
theorem NamePacked.resource {dns₁ : Dns} (h : NamePacked addrOf dns rr dns₁)
    (hstart : dns.buf + 12 ≤ dns.ptr) (hresource : rr.rrSection ≠ DNS_RR_QUESTION)
    (hdata : RdataReadable dns rr) (hend : (dnsRrPack addrOf dns rr).1.ptr ≤ dns.bufEnd) :
    RrPacked dns rr (dnsRrPack addrOf dns rr).1 := by
  have hcall := h.call
  dsimp only at hcall
  rw [if_neg hresource] at hcall
  generalize hC : compressed dns.nameAt rr.name = C at hcall
  have hmem₁ := h.mem
  rw [hC] at hmem₁
  generalize hdns₂ : dnsTtlLenPack (dnsTypeClassPack dns₁ rr (dns.ptr + C.length)) rr
    (dns.ptr + C.length) = dns₂ at hcall
  -- the name, and the four fields behind it, in one piece
  have hmem₂ : dns₂.mem
      = writeAt dns.mem dns.ptr (C ++ rr.typeClassBytes ++ rr.ttlLenBytes rr.rdataLen) := by
    rw [← hdns₂, dnsTtlLenPack_mem, dnsTypeClassPack_mem, hmem₁, ← writeAt_append,
      writeAt_append _ _ (C ++ rr.typeClassBytes), List.length_append,
      show rr.typeClassBytes.length = 4 from rfl]
    push_cast
    rw [← Int.add_assoc]
  have hok₂ : dns₂.HashOk := by rw [← hdns₂]; exact h.hashOk
  have hnames₂ : dns₂.nameAt = dns.nameAt.extend dns.pos rr.name := by rw [← hdns₂]; exact h.names
  have hpacked₂ : (dnsCountRr dns rr.rrSection).Packed dns₂ := by
    obtain ⟨_, _, _, _, heq⟩ := h.packed
    rw [← hdns₂, heq]
    exact ⟨_, _, _, _, rfl⟩
  obtain ⟨hbuf₂, hbufEnd₂⟩ := hpacked₂.place
  have hfront : (C ++ rr.typeClassBytes).length = C.length + 4 := by
    rw [List.length_append]
    rfl
  have hkind := hdata.kind
  rw [← hnames₂] at hkind
  rw [hcall] at hend
  obtain ⟨dns₃, n, bs, hrdata, hok₃, hsame, hmem₃, hn, hcase⟩ :=
    dnsRdataPack_bytes addrOf hok₂ (p := dns.ptr + C.length + 10) hmem₂
      (by rw [hfront]; push_cast; omega) (by omega) hkind (by rw [hbufEnd₂]; exact hend)
  simp only [hrdata] at hcall
  rw [hcall]
  refine ⟨C ++ (rr.typeClassBytes ++ rr.ttlLenBytes n) ++ bs, _, hok₃, ?_, ?_, ?_, rfl, ?_⟩
  · obtain ⟨_, _, _, _, heq₂⟩ := hpacked₂
    obtain ⟨_, _, _, heq₃⟩ := hsame
    rw [heq₃, heq₂]
    exact ⟨_, _, _, _, rfl⟩
  · show dns₃.mem = _
    rw [hmem₃, List.append_assoc C]
  · show dns.ptr + (C.length : Int) + 10 + n.toNat = _
    rw [List.length_append, List.length_append,
      show (rr.typeClassBytes ++ rr.ttlLenBytes n).length = 10 from rfl, hn]
    push_cast
    omega
  · show RrBytes dns.nameAt dns.pos rr _ dns₃.nameAt
    -- the data is an address, or a name with suffixes of its own
    rcases hcase with ⟨hA, rfl, rfl, hnames₃⟩ | ⟨hA, hname, hbs, hnames₃⟩
    · rw [hnames₃, hnames₂, ← hC]
      exact .addr hresource hA
    · have hoffset : (dns.ptr + (C.length : Int) + 10 - dns₂.buf).toNat
          = dns.pos + (compressed dns.nameAt rr.name).length + 10 := by
        rw [hbuf₂, hC, Dns.pos]
        omega
      rw [hnames₃, hnames₂, hoffset, ← hC]
      exact .name hresource hA hname (hnames₂ ▸ hbs) hn

/-- What a call that succeeds inside the message has written. -/
theorem dnsRrPack_bytes (h : dns.HashOk) (hstart : dns.buf + 12 ≤ dns.ptr)
    (hdata : rr.rrSection ≠ DNS_RR_QUESTION → RdataReadable dns rr)
    (hret : (dnsRrPack addrOf dns rr).2.2 = 1)
    (hend : (dnsRrPack addrOf dns rr).1.ptr ≤ dns.bufEnd) :
    RrPacked dns rr (dnsRrPack addrOf dns rr).1 := by
  obtain ⟨dns₁, hname⟩ := dnsRrPack_name addrOf h hret
  by_cases hquestion : rr.rrSection = DNS_RR_QUESTION
  · exact hname.question addrOf hquestion
  · exact hname.resource addrOf hstart hquestion (hdata hquestion) hend

/-- The bytes behind the name of a question, or of a record of type A. -/
def DnsRr.fixedSize (rr : DnsRr) : Nat := if rr.rrSection = DNS_RR_QUESTION then 4 else 14

/-- A question or an address for which there is room is packed, whatever its name is. -/
theorem dnsRrPack_fits (rr : DnsRr) (h : dns.HashOk) (hlo : dns.buf ≤ dns.ptr)
    (hkind : rr.rrSection = DNS_RR_QUESTION ∨ rr.rrType = DNS_TYPE_A)
    (hlen : rr.name.length < dnsNameMax)
    (hpointer : ∀ i, knownSuffix dns.nameAt rr.name = some i → i < 16384)
    (hroom : dns.ptr + (compressed dns.nameAt rr.name).length + rr.fixedSize ≤ dns.bufEnd) :
    (dnsRrPack addrOf dns rr).2.2 = 1 ∧
      (dnsRrPack addrOf dns rr).1.ptr
        = dns.ptr + (compressed dns.nameAt rr.name).length + rr.fixedSize := by
  obtain ⟨qr, an, ns, ar, hcount⟩ := dnsCountRr_eq dns rr.rrSection
  generalize hdns₀ : ({ dns with qrcount := qr, ancount := an, nscount := ns, arcount := ar } : Dns)
    = dns₀ at hcount
  have hok : dns₀.HashOk := by rw [← hdns₀]; exact h
  have hnames : dns₀.nameAt = dns.nameAt := by rw [← hdns₀]; rfl
  have hbuf : dns₀.buf = dns.buf := by rw [← hdns₀]
  have hptr : dns₀.ptr = dns.ptr := by rw [← hdns₀]
  have hend : dns₀.bufEnd = dns.bufEnd := by rw [← hdns₀]
  have hpos := length_compressed_pos dns.nameAt rr.name
  rw [← hnames] at hpointer hroom hpos ⊢
  obtain ⟨dns₁, hpack, hcall, -⟩ := dnsPackName_short addrOf dns₀.ptr (dns₀.bufEnd - dns₀.ptr) hok hlen
    hpointer (by omega) (by omega) (by omega)
  obtain ⟨-, -, hptr₁⟩ := hcall.fields
  rw [dnsRrPack, hcount]
  simp only [hpack]
  rw [if_neg (by omega), hptr₁, hptr]
  unfold DnsRr.fixedSize
  by_cases hquestion : rr.rrSection = DNS_RR_QUESTION
  · rw [if_pos hquestion, if_pos hquestion]
    exact ⟨rfl, rfl⟩
  · have hA := hkind.resolve_left hquestion
    rw [if_neg hquestion, if_neg hquestion, dnsRdataPack, if_pos hA]
    refine ⟨rfl, ?_⟩
    show dns.ptr + ((compressed dns₀.nameAt rr.name).length : Int) + 10 + 4 = _
    push_cast
    omega

/-! ### One call, and a run of calls -/

/-- The cells of the records before stay, and the bytes behind them are there. -/
theorem packed_write {dns dns' : Dns} (hstart : dns.buf + 12 ≤ dns.ptr) {bs : List UInt8}
    (hbuf : dns'.buf = dns.buf) (hmem : dns'.mem = writeAt dns.mem dns.ptr bs)
    (hptr : dns'.ptr = dns.ptr + bs.length) :
    CellsLe dns.packed dns'.packed ∧ Holds dns'.packed dns.pos bs := by
  constructor
  · intro i b hb
    unfold Dns.packed at hb ⊢
    split at hb
    · rename_i hin
      rw [hbuf, hptr, hmem, if_pos ⟨hin.1, by omega⟩, writeAt_of_lt _ _ hin.2]
      exact hb
    · exact absurd hb (by simp)
  · refine holds_of_cells fun k hk => ?_
    have haddr : dns.buf + ((dns.pos + k : Nat) : Int) = dns.ptr + k := by
      unfold Dns.pos
      omega
    unfold Dns.packed
    rw [hbuf, haddr, hptr, hmem, if_pos ⟨by unfold Dns.pos; omega, by omega⟩, writeAt_add _ _ _ k hk]

/-- What is packed lies behind the header and before the cursor. -/
theorem Dns.packed_bounds (dns : Dns) {i : Nat} {b : UInt8} (hb : dns.packed i = some b) :
    12 ≤ i ∧ i < dns.pos := by
  unfold Dns.packed at hb
  split at hb
  · unfold Dns.pos
    omega
  · exact absurd hb (by simp)

/-- The step lemma: a call that succeeds inside the message has packed its record. -/
theorem Packing.step (h : Packing dns) (hr : RrReadable dns rr)
    (hret : (dnsRrPack addrOf dns rr).2.2 = 1)
    (hend : (dnsRrPack addrOf dns rr).1.ptr ≤ dns.bufEnd) :
    ∃ dns', (dnsRrPack addrOf dns rr).1 = dns' ∧ Packing dns' ∧
      (dnsCountRr dns rr.rrSection).Packed dns' ∧ CellsLe dns.packed dns'.packed ∧
      RecordAt dns'.packed dns.pos rr dns'.pos := by
  obtain ⟨bs, tbl, hok, hpacked, hmem, hptr, htable, hbytes⟩ :=
    dnsRrPack_bytes addrOf h.hashOk h.start hr.data hret hend
  generalize heq : (dnsRrPack addrOf dns rr).1 = dns' at hok hpacked hmem hptr htable
  have hbuf := hpacked.place.1
  have hstart := h.start
  obtain ⟨hle, hholds⟩ := packed_write h.start hbuf hmem hptr
  obtain ⟨hrecord, hchained⟩ := hbytes.recordAt h.table hle
    (fun i b hb => Nat.lt_of_lt_of_le (by decide) (dns'.packed_bounds hb).1)
    (fun i b hb => (dns.packed_bounds hb).2) hholds hr.name (fun hsection hA => by
      rcases hr.data hsection with hA' | ⟨-, -, -, hdata⟩
      · exact absurd hA' hA
      · exact hdata)
  have hpos : dns'.pos = dns.pos + bs.length := by
    unfold Dns.pos
    omega
  rw [← hpos] at hrecord
  exact ⟨dns', rfl, ⟨hok, by omega, htable ▸ hchained⟩, hpacked, hle, hrecord⟩

/-- The records stand one behind the other from offset `o` to `o'`. -/
inductive RecordsAt (m : Nat → Option UInt8) : Nat → List DnsRr → Nat → Prop where
  | nil {o : Nat} : RecordsAt m o [] o
  | cons {o o₁ o' : Nat} {rr : DnsRr} {rrs : List DnsRr} (h : RecordAt m o rr o₁)
      (rest : RecordsAt m o₁ rrs o') : RecordsAt m o (rr :: rrs) o'

theorem RecordsAt.concat {m : Nat → Option UInt8} {o o₁ o' : Nat} {rrs : List DnsRr}
    (h : RecordsAt m o rrs o₁) (hrr : RecordAt m o₁ rr o') : RecordsAt m o (rrs ++ [rr]) o' := by
  induction h with
  | nil => exact .cons hrr .nil
  | cons h _ ih => exact .cons h (ih hrr)

theorem RecordsAt.mono {m m' : Nat → Option UInt8} {o o' : Nat} {rrs : List DnsRr}
    (h : RecordsAt m o rrs o') (hle : CellsLe m m') : RecordsAt m' o rrs o' := by
  induction h with
  | nil => exact .nil
  | cons h _ ih => exact .cons (h.mono hle) ih

/-- The record is packed inside the message, and can be read back. -/
structure PackStep (dns : Dns) (rr : DnsRr) : Prop where
  readable : RrReadable dns rr
  ret : (dnsRrPack addrOf dns rr).2.2 = 1
  inside : (dnsRrPack addrOf dns rr).1.ptr ≤ dns.bufEnd

/-- How many of the records are in the section. -/
def sectionCount (rrs : List DnsRr) (rrSection : Int) : Nat :=
  rrs.countP fun rr => rr.rrSection = rrSection

/-- A record more is one more of its section. -/
theorem sectionCount_concat (rrs : List DnsRr) (rr : DnsRr) (rrSection : Int) :
    sectionCount (rrs ++ [rr]) rrSection
      = sectionCount rrs rrSection + if rr.rrSection = rrSection then 1 else 0 := by
  unfold sectionCount
  rw [List.countP_append, List.countP_singleton]
  simp

/-- Counting a record adds one to the count of its section alone. -/
theorem dnsCountRr_counts (dns : Dns) (rrSection : Int) :
    (dnsCountRr dns rrSection).qrcount
        = dns.qrcount + (if rrSection = DNS_RR_QUESTION then 1 else 0 : Nat) ∧
      (dnsCountRr dns rrSection).ancount
        = dns.ancount + (if rrSection = DNS_RR_ANSWER then 1 else 0 : Nat) ∧
      (dnsCountRr dns rrSection).nscount
        = dns.nscount + (if rrSection = DNS_RR_AUTHORITY then 1 else 0 : Nat) ∧
      (dnsCountRr dns rrSection).arcount
        = dns.arcount + (if rrSection = DNS_RR_ADDITIONAL then 1 else 0 : Nat) := by
  by_cases hqr : rrSection = DNS_RR_QUESTION
  · subst hqr
    exact ⟨rfl, (Int.add_zero _).symm, (Int.add_zero _).symm, (Int.add_zero _).symm⟩
  by_cases han : rrSection = DNS_RR_ANSWER
  · subst han
    exact ⟨(Int.add_zero _).symm, rfl, (Int.add_zero _).symm, (Int.add_zero _).symm⟩
  by_cases hns : rrSection = DNS_RR_AUTHORITY
  · subst hns
    exact ⟨(Int.add_zero _).symm, (Int.add_zero _).symm, rfl, (Int.add_zero _).symm⟩
  by_cases har : rrSection = DNS_RR_ADDITIONAL
  · subst har
    exact ⟨(Int.add_zero _).symm, (Int.add_zero _).symm, (Int.add_zero _).symm, rfl⟩
  · simp [dnsCountRr, hqr, han, hns, har]

/-- The message has been filled: the ids and flags are as they were, and so is its place. -/
def Dns.Filled (start dns : Dns) : Prop :=
  ∃ mem stored hash ptr rrIdx qr an ns ar, dns = { start with
    mem := mem, stored := stored, nameHash := hash, ptr := ptr, rrIdx := rrIdx, qrcount := qr,
    ancount := an, nscount := ns, arcount := ar }

/-- What has been packed: the records, counted by section. -/
structure PackedRrs (start dns : Dns) (rrs : List DnsRr) : Prop where
  packing : Packing dns
  records : RecordsAt dns.packed start.pos rrs dns.pos
  inside : dns.ptr ≤ dns.bufEnd
  filled : start.Filled dns
  qrcount : dns.qrcount = start.qrcount + sectionCount rrs DNS_RR_QUESTION
  ancount : dns.ancount = start.ancount + sectionCount rrs DNS_RR_ANSWER
  nscount : dns.nscount = start.nscount + sectionCount rrs DNS_RR_AUTHORITY
  arcount : dns.arcount = start.arcount + sectionCount rrs DNS_RR_ADDITIONAL

/-- One more record. -/
theorem PackedRrs.step {start : Dns} {rrs : List DnsRr} (h : PackedRrs start dns rrs)
    (hstep : PackStep addrOf dns rr) :
    PackedRrs start (dnsRrPack addrOf dns rr).1 (rrs ++ [rr]) := by
  obtain ⟨dns', heq, hpacking, hpacked, hle, hrecord⟩ :=
    h.packing.step addrOf hstep.readable hstep.ret hstep.inside
  have hinside := hstep.inside
  have hend := hpacked.place.2
  obtain ⟨mem, stored, hash, ptr, hpacked⟩ := hpacked
  rw [heq] at hinside ⊢
  obtain ⟨qr, an, ns, ar, hcount⟩ := dnsCountRr_eq dns rr.rrSection
  obtain ⟨hqr, han, hns, har⟩ := dnsCountRr_counts dns rr.rrSection
  have hfilled : start.Filled dns' := by
    obtain ⟨_, _, _, _, _, _, _, _, _, hdns⟩ := h.filled
    rw [hpacked, hcount, hdns]
    exact ⟨_, _, _, _, _, _, _, _, _, rfl⟩
  have hqr' : dns'.qrcount = (dnsCountRr dns rr.rrSection).qrcount := by rw [hpacked]
  have han' : dns'.ancount = (dnsCountRr dns rr.rrSection).ancount := by rw [hpacked]
  have hns' : dns'.nscount = (dnsCountRr dns rr.rrSection).nscount := by rw [hpacked]
  have har' : dns'.arcount = (dnsCountRr dns rr.rrSection).arcount := by rw [hpacked]
  refine ⟨hpacking, (h.records.mono hle).concat hrecord, by omega, hfilled, ?_, ?_, ?_, ?_⟩
  · rw [hqr', hqr, h.qrcount, sectionCount_concat, Nat.cast_add, Int.add_assoc]
  · rw [han', han, h.ancount, sectionCount_concat, Nat.cast_add, Int.add_assoc]
  · rw [hns', hns, h.nscount, sectionCount_concat, Nat.cast_add, Int.add_assoc]
  · rw [har', har, h.arcount, sectionCount_concat, Nat.cast_add, Int.add_assoc]

/-- A run of calls that succeed inside the message. Induction on the records. -/
theorem PackedRrs.run {start : Dns} (rrs' : List DnsRr) :
    ∀ {dns : Dns} {rrs : List DnsRr}, PackedRrs start dns rrs →
      AllSteps (PackStep addrOf) (fun dns rr => (dnsRrPack addrOf dns rr).1) dns rrs' →
      PackedRrs start (run (fun dns rr => (dnsRrPack addrOf dns rr).1) dns rrs') (rrs ++ rrs') := by
  induction rrs' with
  | nil =>
      intro dns rrs h _
      rw [List.append_nil]
      exact h
  | cons rr rrs' ih =>
      intro dns rrs h hsteps
      obtain ⟨hstep, hsteps'⟩ := hsteps
      have hrest := ih (h.step addrOf hstep) hsteps'
      rw [List.append_assoc, List.singleton_append] at hrest
      exact hrest

end

end Bklib
