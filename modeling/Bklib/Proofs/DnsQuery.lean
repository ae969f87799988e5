import Bklib.Proofs.DnsHeader

/-!
# `Bklib.Proofs.DnsQuery`: looking through a query

Reading a record moves the position and the index and counts what it reads. The header and the bytes of
the message stay as they are, wherever the record is (`dnsRrUnpack_moved`), so a query can be sent on
when `dns_check_query_in_a` has been through it (`dnsCheckQueryInA_header`).
-/

set_option autoImplicit false

namespace Bklib

open Bklib.Lib

/-! ### What reading keeps -/

/-- Only the position, the index and the list of loads have changed. -/
def Dns.Moved (dns dns' : Dns) : Prop :=
  ∃ loaded ptr rrIdx, dns' = { dns with loaded := loaded, ptr := ptr, rrIdx := rrIdx }

namespace Dns.Moved

variable {dns dns' dns'' : Dns}

theorem refl (dns : Dns) : dns.Moved dns := ⟨_, _, _, rfl⟩

theorem trans (h : dns.Moved dns') (h' : dns'.Moved dns'') : dns.Moved dns'' := by
  obtain ⟨_, _, _, rfl⟩ := h
  obtain ⟨_, _, _, rfl⟩ := h'
  exact ⟨_, _, _, rfl⟩

theorem load (h : dns.Moved dns') (a : Int) (n : Nat) : dns.Moved (dns'.load a n) :=
  h.trans ⟨_, _, _, rfl⟩

theorem setPtr (h : dns.Moved dns') (ptr : Int) : dns.Moved { dns' with ptr } :=
  h.trans ⟨_, _, _, rfl⟩

theorem setIdx (h : dns.Moved dns') (rrIdx : UInt8) : dns.Moved { dns' with rrIdx } :=
  h.trans ⟨_, _, _, rfl⟩

/-- The header is that of the same bytes. -/
theorem hasHeader (h : dns.Moved dns') (hheader : dns.HasHeader) : dns'.HasHeader := by
  obtain ⟨_, _, _, rfl⟩ := h
  exact ⟨hheader.qr, hheader.opcode, hheader.aa, hheader.tc, hheader.rd, hheader.ra, hheader.x3,
    hheader.rcode, hheader.qrcount, hheader.ancount, hheader.nscount, hheader.arcount⟩

theorem fields (h : dns.Moved dns') :
    dns'.mem = dns.mem ∧ dns'.buf = dns.buf ∧ dns'.bufEnd = dns.bufEnd ∧
      dns'.buflen = dns.buflen ∧ dns'.id = dns.id := by
  obtain ⟨_, _, _, rfl⟩ := h
  exact ⟨rfl, rfl, rfl, rfl, rfl⟩

end Dns.Moved

/-- Induction along the rounds of the loop. -/
theorem dnsUnpackNameLoop_moved (dns : Dns) (ptrMax src srclen : Int) (dst : List UInt8)
    (dstlen srcEnd : Int) :
    dns.Moved (dnsUnpackNameLoop dns ptrMax src srclen dst dstlen srcEnd).dns := by
  fun_induction dnsUnpackNameLoop dns ptrMax src srclen dst dstlen srcEnd with
  | case1 => exact .refl _
  | case2 => exact (Dns.Moved.refl _).load _ _
  | case3 => exact (Dns.Moved.refl _).load _ _
  | case4 => exact ((Dns.Moved.refl _).load _ _).load _ _
  | case5 =>
      rename_i ih
      exact (((Dns.Moved.refl _).load _ _).load _ _).trans ih
  | case6 => exact (Dns.Moved.refl _).load _ _
  | case7 => exact (Dns.Moved.refl _).load _ _
  | case8 =>
      rename_i ih
      exact (((Dns.Moved.refl _).load _ _).load _ _).trans ih

/-- Reading a name moves the cursor at most. -/
theorem dnsUnpackName_moved (dns : Dns) (src srclen dstlen : Int) :
    dns.Moved (dnsUnpackName dns src srclen dstlen).1 := by
  have hloop := dnsUnpackNameLoop_moved dns 100 src srclen [] dstlen 0
  unfold dnsUnpackName
  dsimp only
  split
  · exact hloop
  · exact hloop

/-- Of the record nothing but the data changes. -/
theorem dnsRdataUnpack_kept (dns : Dns) (rr : DnsRr) (p : Int) :
    ∃ addr name, (dnsRdataUnpack dns rr p).2.1
      = { rr with rdataAddr := addr, rdataName := name } := by
  unfold dnsRdataUnpack
  split_ifs
  · exact ⟨_, rr.rdataName, rfl⟩
  · exact ⟨rr.rdataAddr, rr.rdataName, rfl⟩
  · exact ⟨rr.rdataAddr, _, rfl⟩
  · exact ⟨rr.rdataAddr, rr.rdataName, rfl⟩

/-- Reading data moves the cursor and nothing else. -/
theorem dnsRdataUnpack_moved (dns : Dns) (rr : DnsRr) (p : Int) :
    dns.Moved (dnsRdataUnpack dns rr p).1 := by
  unfold dnsRdataUnpack
  split
  · split
    · exact (Dns.Moved.refl _).load _ _
    · exact .refl _
  · split
    · exact dnsUnpackName_moved dns p _ _
    · exact .refl _

/-- Reading a record moves the cursor and nothing else. -/
theorem dnsRrUnpack_moved (dns : Dns) : dns.Moved (dnsRrUnpack dns).1 := by
  unfold dnsRrUnpack
  cases dnsRrSection dns with
  | none => exact .refl _
  | some rrSection =>
      have hname := dnsUnpackName_moved dns dns.ptr (dns.bufEnd - dns.ptr) dnsNameMax
      generalize dnsUnpackName dns dns.ptr (dns.bufEnd - dns.ptr) dnsNameMax = r at hname ⊢
      obtain ⟨dns₁, i, name, p⟩ := r
      have htype : dns.Moved (dnsTypeClassUnpack { dns₁ with rrIdx := dns₁.rrIdx + 1 }
          { DnsRr.zero with rrSection := rrSection, name := cstr name } p).1 :=
        ((hname.setIdx _).load _ _).load _ _
      dsimp only
      split
      · exact hname
      · split
        · exact htype.setPtr _
        · have hfields := (htype.load (p + 4) 4).load (p + 8) 2
          exact (hfields.trans (dnsRdataUnpack_moved _ _ _)).setPtr _

/-! ### `dns_check_query_in_a` -/

/-- The loop over the questions moves the cursor and nothing else. -/
theorem dnsCheckQueryLoop_moved (fuel : Nat) :
    ∀ dns : Dns, dns.Moved (dnsCheckQueryLoop fuel dns).1 := by
  induction fuel with
  | zero => exact fun dns => .refl dns
  | succ fuel ih =>
      intro dns
      have hread := dnsRrUnpack_moved dns
      rw [dnsCheckQueryLoop]
      dsimp only
      split
      · exact hread
      · split
        · exact hread.trans (ih _)
        · split
          · exact hread.trans (ih _)
          · exact hread

/-- The check leaves the bytes alone, and the fields are those of the header. -/
theorem dnsCheckQueryInA_header (dns : Dns) (len : Nat) :
    ∃ dns' i name, dnsCheckQueryInA dns len = (dns', i, name) ∧ dns'.HasHeader ∧
      dns'.mem = dns.mem ∧ dns'.buf = dns.buf ∧ dns'.bufEnd = dns.bufEnd ∧
      dns'.buflen = dns.buflen ∧ dns'.id = (dns.word 0).toNat := by
  obtain ⟨hheader, hid, hmem, hbuf, hend, -, hbuflen⟩ := dnsUnpack_header dns
  have hall : ∀ dns' : Dns, (dnsUnpack dns).1.Moved dns' → dns'.HasHeader ∧ dns'.mem = dns.mem ∧
      dns'.buf = dns.buf ∧ dns'.bufEnd = dns.bufEnd ∧ dns'.buflen = dns.buflen ∧
      dns'.id = (dns.word 0).toNat := by
    intro dns' hmoved
    obtain ⟨hmem', hbuf', hend', hbuflen', hid'⟩ := hmoved.fields
    exact ⟨hmoved.hasHeader hheader, hmem'.trans hmem, hbuf'.trans hbuf, hend'.trans hend,
      hbuflen'.trans hbuflen, hid'.trans hid⟩
  unfold dnsCheckQueryInA
  generalize hunpack : dnsUnpack dns = r at hall
  obtain ⟨dns₁, i⟩ := r
  dsimp only
  split
  · exact ⟨_, _, _, rfl, hall _ (.refl _)⟩
  · have hloop := dnsCheckQueryLoop_moved
      (((dnsRrRewind dns₁).bufEnd - (dnsRrRewind dns₁).ptr).toNat + 1) (dnsRrRewind dns₁)
    have hrewind : dns₁.Moved (dnsRrRewind dns₁) := ⟨dns₁.loaded, dns₁.buf + dnsHdrLen, 0, rfl⟩
    split
    · rename_i dns₂ heq
      rw [heq] at hloop
      exact ⟨_, _, _, rfl, hall _ (hrewind.trans hloop)⟩
    · rename_i dns₂ hostname heq
      rw [heq] at hloop
      exact ⟨_, _, _, rfl, hall _ (hrewind.trans hloop)⟩

end Bklib
