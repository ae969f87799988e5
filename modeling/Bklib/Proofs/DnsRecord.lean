import Bklib.Proofs.DnsChain
import Bklib.Proofs.DnsRrPack

/-!
# `Bklib.Proofs.DnsRecord`: a record in a message

`RecordAt m o rr o'` says that the cells `m` have the record `rr` from offset `o` to `o'`, with names
that `dns_unpack_name` reads. `dns_rr_pack` reads such a record back (`dnsRrUnpack_record`), and it
writes one when it succeeds (`dnsRrPack_record`).

Two things are lost. A question ends behind its class. And behind data that is a name, `ptr` goes on by
the length of the data once more.
-/

set_option autoImplicit false

namespace Bklib

open Bklib.Lib

/-- What a record says, without what the functions make of it for themselves: the length of the data,
its place, and the member of the data that is not in use. -/
def DnsRr.content (rr : DnsRr) : DnsRr :=
  { rr with
    rdataLen := 0
    rdataPtr := 0
    rdataAddr := if rr.rrType = DNS_TYPE_A then rr.rdataAddr else 0
    rdataName := if rr.hasName then rr.rdataName else [] }

/-- What a message keeps of a record. -/
def DnsRr.carried (rr : DnsRr) : DnsRr :=
  if rr.rrSection = DNS_RR_QUESTION then
    { DnsRr.zero with
      rrSection := rr.rrSection, name := rr.name, rrType := rr.rrType, rrClass := rr.rrClass }
  else rr.content

/-- The bytes of the type and the class. -/
def DnsRr.typeClassBytes (rr : DnsRr) : List UInt8 :=
  bytes16 (htons rr.rrType.toNat) ++ bytes16 (htons rr.rrClass.toNat)

/-- The bytes of the time to live, and of the length of the data. -/
def DnsRr.ttlLenBytes (rr : DnsRr) (n : UInt16) : List UInt8 :=
  bytes32 (htonl rr.ttl) ++ bytes16 (htons n.toNat)

/-- The data of a record stands between `o` and `e`. -/
inductive RdataAt (m : Nat → Option UInt8) (o : Nat) (rr : DnsRr) : Nat → Prop where
  | addr (htype : rr.rrType = DNS_TYPE_A) (h : Holds m o (bytes32 rr.rdataAddr)) :
      RdataAt m o rr (o + 4)
  | name {e : Nat} (htype : rr.rrType ≠ DNS_TYPE_A) (hname : rr.hasName = true)
      (h : NameAt m o rr.rdataName e) : RdataAt m o rr e

/-- The record stands between `o` and `o'`. -/
inductive RecordAt (m : Nat → Option UInt8) (o : Nat) (rr : DnsRr) : Nat → Prop where
  | question {e : Nat} (hsection : rr.rrSection = DNS_RR_QUESTION) (hname : NameAt m o rr.name e)
      (h : Holds m e rr.typeClassBytes) : RecordAt m o rr (e + 4)
  | resource {e e' : Nat} {n : UInt16} (hsection : rr.rrSection ≠ DNS_RR_QUESTION)
      (hname : NameAt m o rr.name e) (h : Holds m e (rr.typeClassBytes ++ rr.ttlLenBytes n))
      (hlen : e' = e + 10 + n.toNat) (hdata : RdataAt m (e + 10) rr e') : RecordAt m o rr e'

theorem RdataAt.mono {m m' : Nat → Option UInt8} {o e : Nat} {rr : DnsRr} (h : RdataAt m o rr e)
    (hle : CellsLe m m') : RdataAt m' o rr e := by
  cases h with
  | addr htype h => exact .addr htype (h.mono hle)
  | name htype hname h => exact .name htype hname (h.mono hle)

/-- A record over some cells is one over more cells. -/
theorem RecordAt.mono {m m' : Nat → Option UInt8} {o o' : Nat} {rr : DnsRr} (h : RecordAt m o rr o')
    (hle : CellsLe m m') : RecordAt m' o rr o' := by
  cases h with
  | question hsection hname h => exact .question hsection (hname.mono hle) (h.mono hle)
  | resource hsection hname h hlen hdata =>
      exact .resource hsection (hname.mono hle) (h.mono hle) hlen (hdata.mono hle)

/-! ### Reading -/

section
variable {dns : Dns} {m : Nat → Option UInt8}

theorem Dns.readAt_of_holds (hle : CellsLe m dns.cells) {o : Nat} {bs : List UInt8}
    (h : Holds m o bs) : readAt dns.mem (dns.buf + o) bs.length = bs :=
  Bklib.readAt_of_holds (fun i b hb => (Dns.mem_of_cells hle i b hb).1) h

/-- A short word is read where its bytes are held. -/
theorem Dns.u16At_of_holds (hle : CellsLe m dns.cells) {o : Nat} {v : UInt16}
    (h : Holds m o (bytes16 (htons v.toNat))) {p : Int} (hp : p = dns.buf + o) : dns.u16At p = v := by
  have hget := get16_of_readAt dns.mem (htons_lt v.toNat) (Dns.readAt_of_holds hle h)
  rw [hp]
  show UInt16.ofNat (htons (get16 dns.mem (dns.buf + o))) = v
  rw [hget, htons_htons v.toNat_lt, UInt16.ofNat_toNat]

theorem Dns.u32At_of_holds (hle : CellsLe m dns.cells) {o : Nat} {v : UInt32}
    (h : Holds m o (bytes32 (htonl v))) {p : Int} (hp : p = dns.buf + o) : dns.u32At p = v := by
  rw [hp]
  show htonl (get32 dns.mem (dns.buf + o)) = v
  rw [get32_of_readAt dns.mem (Dns.readAt_of_holds hle h), htonl_htonl]

/-- The cells end with the message. -/
theorem holds_end_le (hle : CellsLe m dns.cells) {o : Nat} {bs : List UInt8} (h : Holds m o bs)
    (hbs : bs ≠ []) : dns.buf + o + bs.length ≤ dns.bufEnd := by
  induction bs generalizing o with
  | nil => exact absurd rfl hbs
  | cons b bs ih =>
      obtain ⟨hcell, hrest⟩ := holds_cons.mp h
      have hlt := (Dns.mem_of_cells hle o b hcell).2
      cases bs with
      | nil => simp; omega
      | cons c bs =>
          have hend := ih hrest (by simp)
          rw [List.length_cons]
          push_cast at hend ⊢
          omega

/-- The record that the data of `rr` is put into. -/
def DnsRr.withData (got rr : DnsRr) : DnsRr :=
  if rr.rrType = DNS_TYPE_A then { got with rdataAddr := rr.rdataAddr }
  else { got with rdataName := rr.rdataName }

/-- The data is read. Behind an address `p` is where it was. -/
theorem dnsRdataUnpack_of_rdataAt {dns' : Dns} (h : dns.Read dns') (hbuf : 0 < dns.buf)
    (hle : CellsLe m dns.cells) {o e : Nat} {rr got : DnsRr} (hdata : RdataAt m o rr e)
    (hgot : got.rrType = rr.rrType) (hlen : e = o + got.rdataLen.toNat) :
    ∃ dns'' p, dnsRdataUnpack dns' got (dns.buf + o) = (dns'', got.withData rr, p) ∧
      dns.Read dns'' ∧ (rr.hasName = false → p = dns.buf + o) := by
  obtain ⟨hmem, -, -⟩ := h.fields
  unfold dnsRdataUnpack DnsRr.withData
  rw [hgot]
  cases hdata with
  | addr htype hholds =>
      have hend := holds_end_le hle hholds (List.cons_ne_nil _ _)
      rw [length_bytes32] at hend
      have hfour : got.rdataLen = 4 := by
        apply UInt16.toNat_inj.mp
        show got.rdataLen.toNat = 4
        omega
      have hread : get32 dns'.mem (dns.buf + o) = rr.rdataAddr := by
        rw [hmem]
        exact get32_of_readAt dns.mem (Dns.readAt_of_holds hle hholds)
      rw [if_pos htype, if_pos hfour, if_pos htype, hread]
      exact ⟨_, _, rfl, h.load (by omega) (by omega), fun _ => rfl⟩
  | name htype hname hat =>
      have hhas : got.hasName = true := by
        rw [← hname]
        unfold DnsRr.hasName
        rw [hgot]
      obtain ⟨hlt, hend⟩ := hat.end_le hle
      have hstop : dns.buf + (o : Int) + got.rdataLen.toNat = dns.buf + e := by omega
      have hscan := scan_of_nameAt hle hat (Int.le_refl _) hend
      obtain ⟨dns'', i, hunpack, -, hread⟩ := h.unpackName hbuf (by omega) hend hscan
      rw [show dns.buf + (e : Int) - (dns.buf + o) = got.rdataLen.toNat by omega] at hunpack
      rw [if_neg htype, if_pos hhas, if_neg htype]
      simp only [hunpack]
      refine ⟨dns'', dns.buf + e, ?_, hread, fun hno => absurd (hname.symm.trans hno) (by simp)⟩
      have hcstr : cstr (rr.rdataName ++ [0]) = rr.rdataName := by
        simpa using cstr_append_nul hat.noNul []
      rw [hcstr]

theorem DnsRr.hasName_of_typeA {rr : DnsRr} (h : rr.rrType = DNS_TYPE_A) : rr.hasName = false := by
  rw [DnsRr.hasName, h]
  decide

/-- The fixed fields of a record, read. -/
theorem dnsRrFields_of_holds (hle : CellsLe m dns.cells) {e : Nat} {rr : DnsRr} {n : UInt16}
    (h : Holds m e (rr.typeClassBytes ++ rr.ttlLenBytes n)) :
    dns.u16At (dns.buf + e) = rr.rrType ∧ dns.u16At (dns.buf + e + 2) = rr.rrClass ∧
      dns.u32At (dns.buf + e + 4) = rr.ttl ∧ dns.u16At (dns.buf + e + 8) = n := by
  obtain ⟨htypeClass, httlLen⟩ := holds_append.mp h
  obtain ⟨htype, hclass⟩ := holds_append.mp htypeClass
  obtain ⟨httl, hlen⟩ := holds_append.mp httlLen
  simp only [DnsRr.typeClassBytes, List.length_append, length_bytes16, length_bytes32] at *
  refine ⟨Dns.u16At_of_holds hle htype rfl, Dns.u16At_of_holds hle hclass ?_,
    Dns.u32At_of_holds hle httl ?_, Dns.u16At_of_holds hle hlen ?_⟩
  · push_cast
    omega
  · push_cast
    omega
  · push_cast
    omega

/-- A record is read back. Behind a name as data, `ptr` is not where the record ends. -/
theorem dnsRrUnpack_record (h : MessageOk dns) (hle : CellsLe m dns.cells) {o o' : Nat} {rr : DnsRr}
    (hrecord : RecordAt m o rr o') (hptr : dns.ptr = dns.buf + o)
    (hsection : dnsRrSection dns = some rr.rrSection) :
    ∃ dns' rr' p', dnsRrUnpack dns = ({ dns' with ptr := p' }, rr', 1) ∧
      Dns.Read { dns with rrIdx := dns.rrIdx + 1 } dns' ∧ rr'.content = rr.carried ∧
      (rr.rrSection = DNS_RR_QUESTION ∨ rr.hasName = false → p' = dns.buf + o') := by
  cases hrecord with
  | @question e hquestion hname hholds =>
      obtain ⟨hlt, hend⟩ := hname.end_le hle
      have hscan := scan_of_nameAt hle hname hend (Int.le_refl _)
      rw [← hptr] at hscan
      -- the name first, from where the pointer is
      obtain ⟨loaded, i, hunpack, hi, hread⟩ := h.unpackName hscan
      have hcstr : cstr (rr.name ++ [0]) = rr.name := by
        simpa using cstr_append_nul hname.noNul []
      have hbytes := holds_end_le hle hholds (by simp [DnsRr.typeClassBytes, bytes16])
      have hroom : dns.buf + (e : Int) + 4 ≤ dns.bufEnd := hbytes
      obtain ⟨htype, hclass⟩ := holds_append.mp hholds
      have htype' : dns.u16At (dns.buf + e) = rr.rrType := Dns.u16At_of_holds hle htype rfl
      rw [length_bytes16] at hclass
      have hclass' : dns.u16At (dns.buf + e + 2) = rr.rrClass :=
        Dns.u16At_of_holds hle hclass (by push_cast; omega)
      obtain ⟨dns₂, hfields, hread₂⟩ := dnsTypeClassUnpack_read (hread.setIdx (dns.rrIdx + 1))
        { DnsRr.zero with rrSection := rr.rrSection, name := rr.name } (p := dns.buf + e)
        (show dns.buf ≤ dns.buf + (e : Int) by omega) hroom
      simp only [show Dns.u16At { dns with rrIdx := dns.rrIdx + 1 } = dns.u16At from rfl, htype',
        hclass'] at hfields
      refine ⟨dns₂, { DnsRr.zero with
        rrSection := rr.rrSection, name := rr.name, rrType := rr.rrType, rrClass := rr.rrClass },
        dns.buf + ((e + 4 : Nat) : Int), ?_, hread₂, ?_, fun _ => rfl⟩
      · unfold dnsRrUnpack
        simp only [hsection, hunpack, hcstr]
        rw [if_neg (by omega)]
        simp only [hfields, if_pos hquestion]
        rw [show dns.buf + (e : Int) + 4 = dns.buf + ((e + 4 : Nat) : Int) by push_cast; omega]
      · rw [DnsRr.carried, if_pos hquestion]
        unfold DnsRr.content
        split_ifs <;> rfl
  | @resource e _ n hresource hname hholds hlen hdata =>
      obtain ⟨hlt, hend⟩ := hname.end_le hle
      have hscan := scan_of_nameAt hle hname hend (Int.le_refl _)
      rw [← hptr] at hscan
      -- the name, the type and class, the TTL and length, and the data
      obtain ⟨loaded, i, hunpack, hi, hread⟩ := h.unpackName hscan
      have hcstr : cstr (rr.name ++ [0]) = rr.name := by
        simpa using cstr_append_nul hname.noNul []
      have hbytes := holds_end_le hle hholds (by simp [DnsRr.typeClassBytes, bytes16])
      have hroom : dns.buf + (e : Int) + 10 ≤ dns.bufEnd := hbytes
      obtain ⟨htype, hclass, httl, hn⟩ := dnsRrFields_of_holds hle hholds
      have hlo : dns.buf ≤ dns.buf + (e : Int) := by omega
      obtain ⟨dns₂, hfields, hread₂⟩ := dnsTypeClassUnpack_read (hread.setIdx (dns.rrIdx + 1))
        { DnsRr.zero with rrSection := rr.rrSection, name := rr.name } (p := dns.buf + e) hlo
        (show dns.buf + (e : Int) + 4 ≤ dns.bufEnd by omega)
      simp only [show Dns.u16At { dns with rrIdx := dns.rrIdx + 1 } = dns.u16At from rfl, htype,
        hclass] at hfields
      generalize hgot₁ : ({ DnsRr.zero with
        rrSection := rr.rrSection, name := rr.name, rrType := rr.rrType,
        rrClass := rr.rrClass } : DnsRr) = got₁ at hfields
      obtain ⟨dns₃, hfields', hread₃⟩ := dnsTtlLenUnpack_read hread₂ got₁ (p := dns.buf + e) hlo hroom
      simp only [show Dns.u16At { dns with rrIdx := dns.rrIdx + 1 } = dns.u16At from rfl,
        show Dns.u32At { dns with rrIdx := dns.rrIdx + 1 } = dns.u32At from rfl, httl, hn] at hfields'
      generalize hgot : ({ got₁ with ttl := rr.ttl, rdataLen := n } : DnsRr) = got at hfields'
      have hgotType : got.rrType = rr.rrType := by rw [← hgot, ← hgot₁]
      have hgotSection : got₁.rrSection = rr.rrSection := by rw [← hgot₁]
      have hgotLen : got.rdataLen = n := by rw [← hgot]
      have hle' : CellsLe m ({ dns with rrIdx := dns.rrIdx + 1 } : Dns).cells := hle
      obtain ⟨dns₄, p, hrdata, hread₄, hp⟩ := dnsRdataUnpack_of_rdataAt hread₃ h.buf hle' hdata
        hgotType (by rw [hgotLen]; exact hlen)
      have haddr : dns.buf + (e : Int) + 10 = dns.buf + ((e + 10 : Nat) : Int) := by push_cast; omega
      have hlenData : (got.withData rr).rdataLen = n := by
        unfold DnsRr.withData
        split <;> exact hgotLen
      refine ⟨dns₄, { got.withData rr with rdataPtr := p }, p + n.toNat, ?_, hread₄, ?_, ?_⟩
      · unfold dnsRrUnpack
        simp only [hsection, hunpack, hcstr]
        rw [if_neg (by omega)]
        simp only [hfields, hgotSection, if_neg hresource, hfields']
        rw [haddr]
        simp only [show dns.buf + ((e + 10 : Nat) : Int)
          = ({ dns with rrIdx := dns.rrIdx + 1 } : Dns).buf + ((e + 10 : Nat) : Int) from rfl, hrdata,
          hlenData]
      · rw [DnsRr.carried, if_neg hresource, ← hgot, ← hgot₁]
        unfold DnsRr.withData
        cases hdata with
        | addr hA _ =>
            simp only [DnsRr.content, DnsRr.hasName, hA, DnsRr.zero, if_pos]
            congr 1
        | name hA hhas _ => simp [DnsRr.content, hA, DnsRr.zero, DnsRr.hasName]
      · intro hkind
        have hno := hkind.resolve_left hresource
        have hpe := hp hno
        rw [hpe, hlen]
        show dns.buf + ((e + 10 : Nat) : Int) + n.toNat = _
        push_cast
        omega

end

end Bklib
