import Bklib.Model.DnsResolve
import Bklib.Proofs.DnsRoundTrip
import Bklib.Proofs.DnsUnpackName

/-!
# `Bklib.Proofs.DnsReply`: the messages that `dns.c` builds

`dns_pack_reply_in_a` packs a question and an answer for the name that `dns_check_query_in_a` hands
on. Two things of the accepted question can be lost. Its type may be PTR or AAAA, and the question of
the reply is always one of type A. And its name is handed on as text: a label with a dot at its
beginning or its end, or with two of them in a row, makes an empty part, which is packed as the end of
the name (`chain_of_text`). `dnsPackReplyInA_echoes_iff` says that nothing else is lost.

`dns_resolve_query` makes no query at all, as it takes the result of `dns_rr_pack` for an error.
-/

set_option autoImplicit false

namespace Bklib

open Bklib.Lib

/-! ### The accepted question -/

/-- The name of a record is what `dns_unpack_name` has read. -/
theorem dnsRrUnpack_name {dns : Dns} {rrSection : Int} (h : dnsRrSection dns = some rrSection) :
    (dnsRrUnpack dns).2.1.name
      = cstr (dnsUnpackName dns dns.ptr (dns.bufEnd - dns.ptr) dnsNameMax).2.2.1 := by
  unfold dnsRrUnpack
  rw [h]
  dsimp only
  split
  · rfl
  · split
    · rfl
    · obtain ⟨addr, name, hkept⟩ := dnsRdataUnpack_kept _ _ _
      exact congrArg DnsRr.name hkept

/-- It is read in every call that succeeds. -/
theorem dnsRrUnpack_textRead {dns : Dns} (h : 0 < (dnsRrUnpack dns).2.2) :
    TextRead (dnsRrUnpack dns).2.1.name := by
  cases hsection : dnsRrSection dns with
  | none =>
      rw [dnsRrUnpack, hsection] at h
      exact absurd h (show ¬(0 : Int) < 0 by decide)
  | some rrSection =>
      rw [dnsRrUnpack_name hsection]
      refine dnsUnpackName_textRead (Int.not_le.mp fun hle => ?_)
      rw [dnsRrUnpack, hsection] at h
      dsimp only at h
      rw [if_pos hle] at h
      exact absurd h (show ¬(0 : Int) < -1 by decide)

/-- The question is one that `dns_check_query_in_a` does not skip. -/
def DnsRr.Accepted (rr : DnsRr) : Prop :=
  rr.rrClass = DNS_CLASS_IN ∧
    (rr.rrType = DNS_TYPE_A ∨ rr.rrType = DNS_TYPE_PTR ∨ rr.rrType = DNS_TYPE_AAAA)

/-- The first question from `ptr` on that is not skipped. -/
inductive AcceptedQuestion : Dns → DnsRr → Prop where
  | here {dns : Dns} (hread : 0 < (dnsRrUnpack dns).2.2)
      (hquestion : (dnsRrUnpack dns).2.1.rrSection = DNS_RR_QUESTION)
      (haccepted : (dnsRrUnpack dns).2.1.Accepted) : AcceptedQuestion dns (dnsRrUnpack dns).2.1
  | next {dns : Dns} {rr : DnsRr} (hread : 0 < (dnsRrUnpack dns).2.2)
      (hquestion : (dnsRrUnpack dns).2.1.rrSection = DNS_RR_QUESTION)
      (hskipped : ¬(dnsRrUnpack dns).2.1.Accepted)
      (rest : AcceptedQuestion (dnsRrUnpack dns).1 rr) : AcceptedQuestion dns rr

theorem AcceptedQuestion.textRead {dns : Dns} {rr : DnsRr} (h : AcceptedQuestion dns rr) :
    TextRead rr.name := by
  induction h with
  | here hread _ _ => exact dnsRrUnpack_textRead hread
  | next _ _ _ _ ih => exact ih

theorem AcceptedQuestion.accepted {dns : Dns} {rr : DnsRr} (h : AcceptedQuestion dns rr) :
    rr.Accepted := by
  induction h with
  | here _ _ haccepted => exact haccepted
  | next _ _ _ _ ih => exact ih

/-- The accepted question is one: the first with a type and a class that are accepted. -/
theorem AcceptedQuestion.unique {dns : Dns} {rr rr' : DnsRr} (h : AcceptedQuestion dns rr)
    (h' : AcceptedQuestion dns rr') : rr = rr' := by
  induction h with
  | here _ _ haccepted =>
      cases h' with
      | here => rfl
      | next _ _ hskipped _ => exact absurd haccepted hskipped
  | next _ _ hskipped _ ih =>
      cases h' with
      | here _ _ haccepted => exact absurd haccepted hskipped
      | next _ _ _ rest' => exact ih rest'

/-- The name that the loop hands on is that of the accepted question. Induction on the calls. -/
theorem acceptedQuestion_of_loop (fuel : Nat) :
    ∀ {dns : Dns} {hostname : List UInt8}, (dnsCheckQueryLoop fuel dns).2 = some hostname →
      ∃ rr, AcceptedQuestion dns rr ∧ rr.name = hostname := by
  induction fuel with
  | zero =>
      intro dns hostname h
      exact absurd h (by simp [dnsCheckQueryLoop])
  | succ fuel ih =>
      intro dns hostname h
      rw [dnsCheckQueryLoop] at h
      dsimp only at h
      split at h
      · exact absurd h (by simp)
      rename_i hread
      rw [not_or, Int.not_le, not_not] at hread
      split at h
      · rename_i hclass
        obtain ⟨rr, hrr, hname⟩ := ih h
        exact ⟨rr, .next hread.1 hread.2 (fun haccepted => hclass haccepted.1) hrr, hname⟩
      rename_i hclass
      split at h
      · rename_i htype
        obtain ⟨rr, hrr, hname⟩ := ih h
        refine ⟨rr, .next hread.1 hread.2 (fun haccepted => ?_) hrr, hname⟩
        rcases haccepted.2 with hA | hPtr | hAaaa
        · exact htype.1 hA
        · exact htype.2.1 hPtr
        · exact htype.2.2 hAaaa
      · rename_i htype
        refine ⟨_, .here hread.1 hread.2 ⟨not_not.mp hclass, ?_⟩, Option.some.inj h⟩
        by_contra hno
        rw [not_or, not_or] at hno
        exact htype hno

/-- What a query is that the check accepts. -/
theorem dnsCheckQueryInA_accepts {query : Dns} {len : Nat}
    (h : (dnsCheckQueryInA query len).2.1 = 0) :
    (dnsUnpack query).1.opcode = DNS_OPCODE_QUERY ∧
      (dnsUnpack query).1.Moved (dnsCheckQueryInA query len).1 ∧
      ∃ rr, AcceptedQuestion (dnsRrRewind (dnsUnpack query).1) rr ∧
        (dnsCheckQueryInA query len).2.2 = rr.name.take len := by
  unfold dnsCheckQueryInA at h ⊢
  generalize dnsUnpack query = r at h ⊢
  obtain ⟨dns, i⟩ := r
  dsimp only at h ⊢
  split at h
  · exact absurd h (show ¬(-1 : Int) = 0 by decide)
  rename_i hheader
  rw [if_neg hheader]
  rw [not_or, not_or, not_not, not_not] at hheader
  refine ⟨hheader.2.1, ?_⟩
  have hloop := dnsCheckQueryLoop_moved
    (((dnsRrRewind dns).bufEnd - (dnsRrRewind dns).ptr).toNat + 1) (dnsRrRewind dns)
  have hrewind : dns.Moved (dnsRrRewind dns) := ⟨dns.loaded, dns.buf + dnsHdrLen, 0, rfl⟩
  have hfound := fun hostname => @acceptedQuestion_of_loop
    (((dnsRrRewind dns).bufEnd - (dnsRrRewind dns).ptr).toNat + 1) (dnsRrRewind dns) hostname
  generalize dnsCheckQueryLoop _ (dnsRrRewind dns) = r at h hloop hfound ⊢
  obtain ⟨dns', hostname⟩ := r
  cases hostname with
  | none => exact absurd h (show ¬(-1 : Int) = 0 by decide)
  | some hostname =>
      obtain ⟨rr, hrr, rfl⟩ := hfound hostname rfl
      exact ⟨hrewind.trans hloop, rr, hrr, rfl⟩

/-! ### The records of the reply -/

theorem dnsQuestionInA_name {s : List UInt8} (hs : s.length < dnsNameMax) :
    (dnsQuestionInA s).name = s := List.take_of_length_le (Nat.le_of_lt hs)

theorem dnsAnswerInA_name {s : List UInt8} (hs : s.length < dnsNameMax) (addr ttl : UInt32) :
    (dnsAnswerInA s addr ttl).name = s := List.take_of_length_le (Nat.le_of_lt hs)

/-- A message in which there is nothing but a header. -/
structure Fresh (start : Dns) : Prop where
  packed : PackedRrs start start []
  names : ∀ k, start.nameAt k = none
  ptr : start.ptr = start.buf + 12

section
variable (addrOf : Nat → Nat) {start : Dns} {s : List UInt8}

/-- The question has been packed: its bytes, and the table. -/
structure QuestionPacked (start dns : Dns) (s : List UInt8) : Prop where
  hashOk : dns.HashOk
  names : dns.nameAt = start.nameAt.extend 12 s
  holds : Holds dns.packed 12 (compressed start.nameAt s ++ (dnsQuestionInA s).typeClassBytes)
  ptr : start.ptr ≤ dns.ptr ∧ dns.ptr ≤ start.ptr + s.length + 6
  buf : dns.buf = start.buf
  bufEnd : dns.bufEnd = start.bufEnd

/-- The question is packed when there is room for it. -/
theorem dnsQuestionInA_packed (h : Fresh start) (hs : s.length < dnsNameMax)
    (hroom : start.ptr + s.length + 6 ≤ start.bufEnd) :
    (dnsRrPack addrOf start (dnsQuestionInA s)).2.2 = 1 ∧
      QuestionPacked start (dnsRrPack addrOf start (dnsQuestionInA s)).1 s := by
  have hname := dnsQuestionInA_name hs
  have hsize := length_compressed_le_text start.nameAt s
  have hstart := h.packed.packing.start
  obtain ⟨hret, hptr⟩ := dnsRrPack_fits addrOf (dnsQuestionInA s) h.packed.packing.hashOk (by omega)
    (Or.inl rfl) (by rw [hname]; exact hs)
    (fun i hi => absurd hi (by rw [knownSuffix_of_empty h.names]; simp))
    (by rw [hname]; show _ + _ + ((4 : Nat) : Int) ≤ _; omega)
  rw [hname, show (dnsQuestionInA s).fixedSize = 4 from rfl] at hptr
  obtain ⟨bs, tbl, hok, hpacked, hmem, hptr', htbl, hbytes⟩ :=
    dnsRrPack_bytes addrOf h.packed.packing.hashOk hstart (fun hresource => absurd rfl hresource) hret
      (by rw [hptr]; push_cast; omega)
  have hpos : start.pos = 12 := by
    have hp := h.ptr
    unfold Dns.pos
    omega
  obtain ⟨hbuf, hend⟩ := hpacked.place
  obtain ⟨-, hholds⟩ := packed_write hstart hbuf hmem hptr'
  rw [hpos] at hbytes hholds
  refine ⟨hret, ?_⟩
  cases hbytes with
  | question =>
      rw [hname] at htbl hholds
      exact ⟨hok, htbl, hholds, by omega, hbuf, hend⟩
  | addr hresource => exact absurd rfl hresource
  | name hresource => exact absurd rfl hresource

/-- The answer points to the question, or its name is the root. -/
theorem QuestionPacked.pointer {dns : Dns} (h : QuestionPacked start dns s) (hfresh : Fresh start)
    {i : Nat} (hi : knownSuffix dns.nameAt s = some i) : s ≠ [] ∧ i = 12 := by
  by_cases hs : s = []
  · rw [hs, knownSuffix_nil] at hi
    exact absurd hi (by simp)
  · rw [h.names, knownSuffix_extend_self hs (hfresh.names s)] at hi
    exact ⟨hs, (Option.some.inj hi).symm⟩

/-- The question's name is known to the message already, so packing it again takes two bytes at
most. -/
theorem QuestionPacked.length {dns : Dns} (h : QuestionPacked start dns s) (hfresh : Fresh start) :
    (compressed dns.nameAt s).length ≤ 2 := by
  by_cases hs : s = []
  · rw [hs, compressed_nil]
    decide
  · rw [h.names, compressed_of_some hs
      (show start.nameAt.extend 12 s s = some 12 by
        rw [SuffixTable.extend, suffixOffsets_of_none hs (hfresh.names s)]
        simp)]
    exact Nat.le_refl 2

/-- So the answer is packed in 16 bytes. -/
theorem QuestionPacked.answer {dns : Dns} (h : QuestionPacked start dns s) (hfresh : Fresh start)
    (hs : s.length < dnsNameMax) (addr ttl : UInt32)
    (hroom : start.ptr + s.length + 22 ≤ start.bufEnd) :
    (dnsRrPack addrOf dns (dnsAnswerInA s addr ttl)).2.2 = 1 ∧
      (dnsRrPack addrOf dns (dnsAnswerInA s addr ttl)).1.ptr ≤ dns.bufEnd ∧
      (dnsRrPack addrOf dns (dnsAnswerInA s addr ttl)).1.buf = dns.buf ∧
      dns.ptr ≤ (dnsRrPack addrOf dns (dnsAnswerInA s addr ttl)).1.ptr ∧
      CellsLe dns.packed (dnsRrPack addrOf dns (dnsAnswerInA s addr ttl)).1.packed := by
  have hname := dnsAnswerInA_name hs addr ttl
  have hsize := h.length hfresh
  have hstart := hfresh.packed.packing.start
  have hptr := h.ptr
  have hbuf := h.buf
  have hend := h.bufEnd
  obtain ⟨hret, hptr'⟩ := dnsRrPack_fits addrOf (dnsAnswerInA s addr ttl) h.hashOk (by omega)
    (Or.inr rfl) (by rw [hname]; exact hs)
    (fun i hi => by
      rw [hname] at hi
      rw [(h.pointer hfresh hi).2]
      decide)
    (by rw [hname]; show _ + _ + ((14 : Nat) : Int) ≤ _; omega)
  rw [hname, show (dnsAnswerInA s addr ttl).fixedSize = 14 from rfl] at hptr'
  have hinside : (dnsRrPack addrOf dns (dnsAnswerInA s addr ttl)).1.ptr ≤ dns.bufEnd := by
    rw [hptr']
    push_cast
    omega
  obtain ⟨bs, -, -, hpacked, hmem, hptr'', -, -⟩ :=
    dnsRrPack_bytes addrOf h.hashOk (by omega) (fun _ => Or.inl rfl) hret hinside
  have hplace := hpacked.place.1
  exact ⟨hret, hinside, hplace, by omega, (packed_write (by omega) hplace hmem hptr'').1⟩

/-- A name with labels in order makes a question and an answer that can be read back. -/
theorem Fresh.packedReply (h : Fresh start)
    (hlabels : ∃ ls : List Label, (∀ l ∈ ls, l.Ok) ∧ s = dotted ls)
    (htext : TextRead s) (addr ttl : UInt32) (hroom : start.ptr + s.length + 22 ≤ start.bufEnd) :
    PackedRrs start
      (dnsRrPack addrOf (dnsRrPack addrOf start (dnsQuestionInA s)).1 (dnsAnswerInA s addr ttl)).1
      [dnsQuestionInA s, dnsAnswerInA s addr ttl] := by
  have hs := htext.short
  have hnone := knownSuffix_of_empty h.names s
  obtain ⟨hret, hquestion⟩ := dnsQuestionInA_packed addrOf h hs (by omega)
  have hptr := hquestion.ptr
  have hreadable : NameReadable start.nameAt start.packed s :=
    ⟨hlabels, htext.noNul, hs, fun i hi => absurd hi (by rw [hnone]; simp)⟩
  have hstep : PackStep addrOf start (dnsQuestionInA s) :=
    ⟨⟨by rw [dnsQuestionInA_name hs]; exact hreadable, fun hresource => absurd rfl hresource⟩, hret,
      by omega⟩
  obtain ⟨hret', hinside, -⟩ := hquestion.answer addrOf h hs addr ttl hroom
  -- The pointer of the answer leads to the question, whose name has none.
  have hempty : CellsLe start.packed (dnsRrPack addrOf start (dnsQuestionInA s)).1.packed := by
    intro i b hb
    have hbounds := start.packed_bounds hb
    have hp := h.ptr
    unfold Dns.pos at hbounds
    omega
  obtain ⟨-, -, hoffsets⟩ := hreadable.written h.packed.packing.table hempty
    (fun i b hb => Nat.lt_of_lt_of_le (by decide) (start.packed_bounds hb).1)
    (holds_append.mp hquestion.holds).1
  have hreadable' : NameReadable (dnsRrPack addrOf start (dnsQuestionInA s)).1.nameAt
      (dnsRrPack addrOf start (dnsQuestionInA s)).1.packed s := by
    refine ⟨hlabels, htext.noNul, hs, fun i hi => ?_⟩
    obtain ⟨hne, rfl⟩ := hquestion.pointer h hi
    have hcount := (hoffsets s 12 (by
      rw [suffixOffsets_of_none hne (h.names s)]
      exact List.mem_cons_self)).2
    have hzero : nameHops start.nameAt start.packed s = 0 := by rw [nameHops, hnone]
    exact ⟨by decide, by decide, by omega⟩
  have hstep' : PackStep addrOf (dnsRrPack addrOf start (dnsQuestionInA s)).1
      (dnsAnswerInA s addr ttl) :=
    ⟨⟨by rw [dnsAnswerInA_name hs]; exact hreadable', fun _ => Or.inl rfl⟩, hret', hinside⟩
  exact (h.packed.step addrOf hstep).step addrOf hstep'

end

/-- The question of a message that begins with such bytes has a name with labels in order. -/
theorem dnsReadRrs_question {got : Dns} {m : Nat → Option UInt8} {tbl : SuffixTable}
    {s bs : List UInt8} (hok : MessageOk got) (hptr : got.ptr = got.buf + 12)
    (hle : CellsLe m got.cells) (hnone : ∀ k, tbl k = none) (htext : TextRead s)
    (hholds : Holds m 12 (compressed tbl s ++ bs)) {fuel : Nat} {rr : DnsRr} {rrs : List DnsRr}
    (hread : dnsReadRrs fuel got = some (rr :: rrs)) :
    ∃ ls : List Label, (∀ l ∈ ls, l.Ok) ∧ rr.name = dotted ls := by
  -- An empty part of the text is packed as the end of the name, so fewer labels may be there.
  obtain ⟨ls, e, hchain, hcut⟩ :=
    chain_of_text hnone s 12 htext.parts.labels (holds_append.mp hholds).1
  have hname : NameAt m 12 (dotted ls) e :=
    ⟨0, ls, rfl, fun hzero => htext.noNul (hcut.subset hzero),
      Nat.lt_of_le_of_lt hcut.length_le htext.short, by decide, hchain⟩
  have hscan := scan_of_nameAt hle hname (hname.end_le hle).2 (Int.le_refl _)
  rw [show got.buf + ((12 : Nat) : Int) = got.ptr from hptr.symm] at hscan
  obtain ⟨loaded, i, hunpack, -⟩ := hok.unpackName hscan
  obtain ⟨rfl, -⟩ := dnsReadRrs_cons hread
  refine ⟨ls, hchain.ok, ?_⟩
  cases hsection : dnsRrSection got with
  | none =>
      cases fuel with
      | zero => exact absurd hread (by simp [dnsReadRrs])
      | succ fuel =>
          rw [dnsReadRrs_done hsection] at hread
          exact absurd hread (by simp)
  | some rrSection =>
      rw [dnsRrUnpack_name hsection, hunpack]
      simpa using cstr_append_nul hname.noNul []

/-! ### The header of the reply -/

theorem exists_rcode (u : UInt16) : ∃ r : Fin 16, unpackBits u 4 0 = r.val := by
  have hlt : ((u >>> (0 : UInt16)) &&& (((1 : UInt16) <<< (4 : UInt16)) - 1)).toNat < 16 := by
    rw [UInt16.toNat_and]
    exact Nat.lt_of_le_of_lt Nat.and_le_right (by decide)
  exact ⟨⟨_, hlt⟩, rfl⟩

/-- The flags of a reply, whatever its error is. -/
theorem replyFlags (dns : Dns) (hqr : dns.qr = 1) (hopcode : dns.opcode = 0) (haa : dns.aa = 0)
    (htc : dns.tc = 0) (hrd : dns.rd = 0) (hra : dns.ra = 0) (hx3 : dns.x3 = 0) {u : UInt16}
    (hrcode : dns.rcode = unpackBits u 4 0) :
    unpackBits dns.flags 1 15 = 1 ∧ unpackBits dns.flags 4 11 = 0 := by
  obtain ⟨r, hr⟩ := exists_rcode u
  have hall : ∀ r : Fin 16,
      unpackBits (packBits (packBits (packBits (packBits (packBits (packBits (packBits (packBits 0 1 1 15)
        0 4 11) 0 1 10) 0 1 9) 0 1 8) 0 1 7) 0 3 4) (r.val : Int) 4 0) 1 15 = 1 ∧
      unpackBits (packBits (packBits (packBits (packBits (packBits (packBits (packBits (packBits 0 1 1 15)
        0 4 11) 0 1 10) 0 1 9) 0 1 8) 0 1 7) 0 3 4) (r.val : Int) 4 0) 4 11 = 0 := by
    decide
  unfold Dns.flags
  rw [hqr, hopcode, haa, htc, hrd, hra, hx3, hrcode, hr]
  exact hall r

/-! ### A reply echoes its question -/

/-- The question of `rr`, as a message has it. -/
def DnsRr.asked (rr : DnsRr) : DnsRr :=
  { DnsRr.zero with
    rrSection := DNS_RR_QUESTION, name := rr.name, rrType := rr.rrType, rrClass := rr.rrClass }

/-- The message `got` is the reply to the question `rr` of `query`: it has its id and opcode, and the
question and one answer are all its records. -/
structure ReplyEchoes (got query : Dns) (rr : DnsRr) (addr ttl : UInt32) : Prop where
  id : got.id = query.id
  opcode : got.opcode = query.opcode
  qr : got.qr = 1
  records : ∃ fuel rrs, dnsReadRrs fuel got = some rrs ∧
    rrs.map DnsRr.content = [rr.asked, dnsAnswerInA rr.name addr ttl]

/-- The name is text in which no part between two dots is empty. -/
def LabelsInOrder (s : List UInt8) : Prop :=
  ∃ ls : List Label, (∀ l ∈ ls, l.Ok) ∧ s = dotted ls

/-- What `dns_pack_reply_in_a` packs its two records into: a fresh message with the id of the query,
which is a reply. -/
structure ReplyStart (start query : Dns) (buf len : Int) : Prop where
  fresh : Fresh start
  place : start.buf = buf ∧ start.bufEnd = buf + len
  counts : start.qrcount = 0 ∧ start.ancount = 0 ∧ start.nscount = 0 ∧ start.arcount = 0
  id : start.id = (dnsUnpack query).1.id
  isReply : start.qr = 1
  opcode : start.opcode = 0
  clear : start.aa = 0 ∧ start.tc = 0 ∧ start.rd = 0 ∧ start.ra = 0 ∧ start.x3 = 0
  rcode : start.rcode = unpackBits ((dnsUnpack query).1.word 2) 4 0

/-- A question that is accepted is packed into such a message, and the answer behind it. -/
theorem dnsPackReplyInA_start (addrOf : Nat → Nat) (mem : Int → UInt8) (buf len : Int) {query : Dns}
    (addr ttl : UInt32) (haccepts : (dnsCheckQueryInA query (dnsNameMax + 1)).2.1 = 0) {rr : DnsRr}
    (hrr : AcceptedQuestion (dnsRrRewind (dnsUnpack query).1) rr) (hlen : 12 ≤ len) :
    (dnsUnpack query).1.opcode = 0 ∧ ∃ start query' dns, ReplyStart start query buf len ∧
      dns = (dnsRrPack addrOf (dnsRrPack addrOf start (dnsQuestionInA rr.name)).1
        (dnsAnswerInA rr.name addr ttl)).1 ∧
      dnsPackReplyInA addrOf (dnsInit mem buf len).1 query addr ttl
        = ((dnsPack dns).1, query', (dnsPack dns).2) := by
  obtain ⟨hopcode, hmoved, rr', hrr', hhostname⟩ := dnsCheckQueryInA_accepts haccepts
  obtain rfl := hrr.unique hrr'
  have htext := hrr.textRead
  rw [List.take_of_length_le (Nat.le_succ_of_le (Nat.le_of_lt htext.short))] at hhostname
  obtain ⟨hheader, -⟩ := dnsUnpack_header query
  unfold dnsPackReplyInA
  generalize dnsCheckQueryInA query (dnsNameMax + 1) = r at haccepts hmoved hhostname
  obtain ⟨query', i, hostname⟩ := r
  dsimp only at haccepts hmoved hhostname ⊢
  obtain ⟨_, _, _, rfl⟩ := hmoved
  subst haccepts hhostname
  rw [if_neg (by decide)]
  refine ⟨hopcode, _, _, _, ?_, rfl, rfl⟩
  exact ⟨⟨packedRrs_start rfl rfl (show buf + 12 ≤ buf + len by omega), fun _ => rfl, rfl⟩,
    ⟨rfl, rfl⟩, ⟨rfl, rfl, rfl, rfl⟩, rfl, rfl, hopcode, ⟨rfl, rfl, rfl, rfl, rfl⟩, hheader.rcode⟩

/-- Packing records changes neither the id nor the flags. -/
theorem ReplyStart.packed {start query dns : Dns} {buf len : Int} {rrs : List DnsRr}
    (h : ReplyStart start query buf len) (hpacked : PackedRrs start dns rrs) :
    dns.buf = buf ∧ dns.bufEnd = buf + len ∧ dns.id = (dnsUnpack query).1.id ∧
      unpackBits dns.flags 1 15 = 1 ∧ unpackBits dns.flags 4 11 = 0 := by
  obtain ⟨_, _, _, _, _, _, _, _, _, hfilled⟩ := hpacked.filled
  obtain ⟨haa, htc, hrd, hra, hx3⟩ := h.clear
  refine ⟨by rw [hfilled]; exact h.place.1, by rw [hfilled]; exact h.place.2,
    by rw [hfilled]; exact h.id, ?_⟩
  exact replyFlags dns (u := (dnsUnpack query).1.word 2)
    (by rw [hfilled]; exact h.isReply) (by rw [hfilled]; exact h.opcode) (by rw [hfilled]; exact haa)
    (by rw [hfilled]; exact htc) (by rw [hfilled]; exact hrd) (by rw [hfilled]; exact hra)
    (by rw [hfilled]; exact hx3) (by rw [hfilled]; exact h.rcode)

/-- The reply, received. -/
def replyReceived (addrOf : Nat → Nat) (mem : Int → UInt8) (buf len : Int) (query : Dns)
    (addr ttl : UInt32) : Dns :=
  let (reply, _, i) := dnsPackReplyInA addrOf (dnsInit mem buf len).1 query addr ttl
  dnsReceive reply.mem buf i

/-- What is received when a question for the name of `rr` has been answered. -/
structure ReplyReads (got query : Dns) (rr : DnsRr) (addr ttl : UInt32) : Prop where
  name : ∀ fuel asked rrs, dnsReadRrs fuel got = some (asked :: rrs) → LabelsInOrder asked.name
  header : LabelsInOrder rr.name → got.id = query.id ∧ got.opcode = query.opcode ∧ got.qr = 1
  records : LabelsInOrder rr.name → ∃ rrs, dnsReadRrs 3 got = some rrs ∧
    rrs.map DnsRr.content
      = [{ rr.asked with rrType := DNS_TYPE_A }, dnsAnswerInA rr.name addr ttl]

section
variable (addrOf : Nat → Nat) (mem : Int → UInt8) {buf len : Int} (query : Dns) (addr ttl : UInt32)
  (hbuf : 0 < buf) (haccepts : (dnsCheckQueryInA query (dnsNameMax + 1)).2.1 = 0) {rr : DnsRr}
  (hrr : AcceptedQuestion (dnsRrRewind (dnsUnpack query).1) rr)
  (hroom : 12 + rr.name.length + 22 ≤ len)
include hbuf haccepts hrr hroom

/-- What can be read of the reply. The name is that of a question that was read, so only an empty
part between two dots is lost. -/
theorem replyReceived_reads :
    ReplyReads (replyReceived addrOf mem buf len query addr ttl) (dnsUnpack query).1 rr addr ttl := by
  have htext := hrr.textRead
  obtain ⟨hheader, hqid, -⟩ := dnsUnpack_header query
  obtain ⟨hopcode, start, query', dns, hstart, hdns, hpack⟩ :=
    dnsPackReplyInA_start addrOf mem buf len addr ttl haccepts hrr (by omega)
  have hfresh := hstart.fresh
  have hroom' : start.ptr + rr.name.length + 22 ≤ start.bufEnd := by
    rw [hfresh.ptr, hstart.place.1, hstart.place.2]
    omega
  obtain ⟨-, hquestion⟩ := dnsQuestionInA_packed addrOf hfresh htext.short (by omega)
  obtain ⟨-, -, hdnsBuf, hdnsPtr, hcells⟩ := hquestion.answer addrOf hfresh htext.short addr ttl hroom'
  have hreply := fun hlabels => hfresh.packedReply addrOf hlabels htext addr ttl hroom'
  rw [← hdns] at hdnsBuf hdnsPtr hcells hreply
  rw [hquestion.buf, hstart.place.1] at hdnsBuf
  have hdnsLen : 12 ≤ (dnsPack dns).2 := by
    have hptr := hquestion.ptr
    have hstartPtr := hfresh.ptr
    have hstartBuf := hstart.place.1
    show 12 ≤ dns.ptr - dns.buf
    omega
  have hgot : replyReceived addrOf mem buf len query addr ttl
      = dnsReceive (dnsPack dns).1.mem buf (dnsPack dns).2 := by
    unfold replyReceived
    rw [hpack]
  rw [hgot]
  refine ⟨fun fuel asked rrs hgot => ?_, fun hlabels => ?_, fun hlabels => ?_⟩
  · -- The bytes of the question's name are those of a name, whatever text it was packed from.
    have hok := dnsReceive_ok (dnsPack dns).1.mem hbuf hdnsLen
    have hle := packed_le_received dns
    rw [hdnsBuf] at hle
    exact dnsReadRrs_question hok rfl hle hfresh.names htext (hquestion.holds.mono hcells) hgot
  · obtain ⟨-, -, hid', hflagQr, hflagOp⟩ := hstart.packed (hreply hlabels)
    obtain ⟨hid, hqr, hop, -⟩ := dnsReceive_dnsPack dns
    rw [hdnsBuf] at hid hqr hop
    exact ⟨by rw [hid, hid', hqid, ofInt_toNat], by rw [hop, hflagOp, hopcode],
      by rw [hqr, hflagQr]⟩
  · have hcounted : ∀ k ∈ [dnsQuestionInA rr.name, dnsAnswerInA rr.name addr ttl],
        k.counted = true := by
      intro k hk
      simp only [List.mem_cons, List.not_mem_nil, or_false] at hk
      rcases hk with rfl | rfl <;> rfl
    obtain ⟨hqr, han, hns, har⟩ := hstart.counts
    obtain ⟨got, hgot, hcarried⟩ := (hreply hlabels).reads (hstart.place.1.symm ▸ hbuf) hfresh.ptr
      hqr han hns har
      (List.pairwise_pair.mpr (show (1 : Int) ≤ 2 by decide)) hcounted (show 2 ≤ 255 by decide)
      (fun k hk => Or.inl (by rw [List.mem_singleton.mp hk]; rfl))
    rw [hdnsBuf] at hgot
    refine ⟨got, hgot, ?_⟩
    have hclass := hrr.accepted.1
    rw [hcarried, List.map_cons, List.map_singleton]
    congr 1
    · show ({ DnsRr.zero with
        rrSection := DNS_RR_QUESTION, name := (dnsQuestionInA rr.name).name, rrType := DNS_TYPE_A,
        rrClass := DNS_CLASS_IN } : DnsRr) = _
      rw [dnsQuestionInA_name htext.short, DnsRr.asked, hclass]

/-- Only a question of type A is echoed, and only a name whose labels are in order. -/
theorem ReplyEchoes.asked
    (h : ReplyEchoes (replyReceived addrOf mem buf len query addr ttl) (dnsUnpack query).1 rr addr
      ttl) : rr.rrType = DNS_TYPE_A ∧ LabelsInOrder rr.name := by
  have hreads := replyReceived_reads addrOf mem query addr ttl hbuf haccepts hrr hroom
  obtain ⟨fuel, rrs, hgot, hcontent⟩ := h.records
  obtain ⟨asked, rrs', rfl, hasked, -⟩ := List.map_eq_cons_iff.mp hcontent
  have hname : asked.name = rr.name := by
    show asked.content.name = rr.asked.name
    rw [hasked]
  have hlabels : LabelsInOrder rr.name := hname ▸ hreads.name fuel asked rrs' hgot
  obtain ⟨rrs₂, hgot₂, hcontent₂⟩ := hreads.records hlabels
  obtain rfl := dnsReadRrs_unique hgot hgot₂
  rw [hcontent] at hcontent₂
  exact ⟨congrArg DnsRr.rrType (List.cons.inj hcontent₂).1, hlabels⟩

/-- The reply is the accepted question's if and only if that is a question of type A and its name has
labels of 1 to 63 bytes with dots between them. -/
theorem dnsPackReplyInA_echoes_iff :
    ReplyEchoes (replyReceived addrOf mem buf len query addr ttl) (dnsUnpack query).1 rr addr ttl ↔
      rr.rrType = DNS_TYPE_A ∧ LabelsInOrder rr.name := by
  refine ⟨ReplyEchoes.asked addrOf mem query addr ttl hbuf haccepts hrr hroom, ?_⟩
  rintro ⟨hA, hlabels⟩
  have hreads := replyReceived_reads addrOf mem query addr ttl hbuf haccepts hrr hroom
  obtain ⟨hid, hopcode, hqr⟩ := hreads.header hlabels
  obtain ⟨rrs, hgot, hcontent⟩ := hreads.records hlabels
  refine ⟨hid, hopcode, hqr, 3, rrs, hgot, ?_⟩
  rw [hcontent, ← hA]
  rfl

end

/-! A question of type A, and one of type PTR. -/

/-- The question is the first one, so the check stops at it. -/
theorem dnsCheckQueryLoop_here {dns : Dns} (hread : 0 < (dnsRrUnpack dns).2.2)
    (hquestion : (dnsRrUnpack dns).2.1.rrSection = DNS_RR_QUESTION)
    (haccepted : (dnsRrUnpack dns).2.1.Accepted) (fuel : Nat) :
    dnsCheckQueryLoop (fuel + 1) dns
      = ((dnsRrUnpack dns).1, some (dnsRrUnpack dns).2.1.name) := by
  rw [dnsCheckQueryLoop]
  dsimp only
  rw [if_neg (by rw [not_or, not_not]; exact ⟨Int.not_le.mpr hread, hquestion⟩),
    if_neg (not_not.mpr haccepted.1),
    if_neg fun hno => ?_]
  rcases haccepted.2 with hA | hPtr | hAaaa
  · exact hno.1 hA
  · exact hno.2.1 hPtr
  · exact hno.2.2 hAaaa

/-- A query with a question of type `t` for the name `a`. -/
def askedDatagram (t : UInt8) : List UInt8 := [0, 7, 1, 0, 0, 1, 0, 0, 0, 0, 0, 0, 1, 97, 0, 0, t, 0, 1]

def askedQuery (t : UInt8) : Dns := (dnsInit (datagram (askedDatagram t)) 1 19).1

/-- The question of the query. -/
def askedQuestion (t : UInt16) : DnsRr :=
  { DnsRr.zero with
    rrSection := DNS_RR_QUESTION, name := [97], rrType := t, rrClass := DNS_CLASS_IN }

/-- The sample query's record is its question. -/
theorem askedQuery_read (t : UInt8) (ht : t = 1 ∨ t = 12) :
    (dnsRrUnpack (dnsRrRewind (dnsUnpack (askedQuery t)).1)).2 = (askedQuestion t.toUInt16, 1) := by
  have hok : MessageOk (dnsReceive (datagram (askedDatagram t)) 1 19) :=
    dnsReceive_ok _ (by decide) (by decide)
  have hscan : (dnsReceive (datagram (askedDatagram t)) 1 19).scan 100
      (dnsReceive (datagram (askedDatagram t)) 1 19).ptr
      (dnsReceive (datagram (askedDatagram t)) 1 19).bufEnd [] = .ends 16 [97] :=
    scanName_a rfl rfl rfl (show (16 : Int) ≤ 1 + 19 by decide)
  obtain ⟨loaded, i, hunpack, hi, -⟩ := hok.unpackName hscan
  have hsection : dnsRrSection (dnsReceive (datagram (askedDatagram t)) 1 19)
      = some DNS_RR_QUESTION := by
    rcases ht with rfl | rfl <;> decide
  have htype : (dnsReceive (datagram (askedDatagram t)) 1 19).u16At 16 = t.toUInt16 := by
    rcases ht with rfl | rfl <;> decide
  have hclass : (dnsReceive (datagram (askedDatagram t)) 1 19).u16At (16 + 2) = DNS_CLASS_IN := by
    rcases ht with rfl | rfl <;> decide
  obtain ⟨loaded', hcall⟩ := dnsRrUnpack_question hunpack hi hsection
  rw [htype, hclass] at hcall
  exact congrArg Prod.snd hcall

/-- The sample query is accepted with that question. -/
theorem askedQuery_accepted (t : UInt8) (ht : t = 1 ∨ t = 12) :
    (dnsCheckQueryInA (askedQuery t) (dnsNameMax + 1)).2.1 = 0 ∧
      AcceptedQuestion (dnsRrRewind (dnsUnpack (askedQuery t)).1) (askedQuestion t.toUInt16) := by
  have hread := askedQuery_read t ht
  have hrr : (dnsRrUnpack (dnsRrRewind (dnsUnpack (askedQuery t)).1)).2.1
      = askedQuestion t.toUInt16 := congrArg Prod.fst hread
  have hret : 0 < (dnsRrUnpack (dnsRrRewind (dnsUnpack (askedQuery t)).1)).2.2 := by
    rw [hread]
    exact Int.one_pos
  have hquestion : (dnsRrUnpack (dnsRrRewind (dnsUnpack (askedQuery t)).1)).2.1.rrSection
      = DNS_RR_QUESTION := by
    rw [hread]
    rfl
  have haccepted : (dnsRrUnpack (dnsRrRewind (dnsUnpack (askedQuery t)).1)).2.1.Accepted := by
    rw [hread]
    rcases ht with rfl | rfl
    · exact ⟨rfl, Or.inl rfl⟩
    · exact ⟨rfl, Or.inr (Or.inl rfl)⟩
  refine ⟨?_, hrr ▸ .here hret hquestion haccepted⟩
  have hheader : ¬(¬0 < (dnsUnpack (askedQuery t)).2 ∨
      (dnsUnpack (askedQuery t)).1.opcode ≠ DNS_OPCODE_QUERY ∨
      (dnsUnpack (askedQuery t)).1.qr ≠ 0) := by
    rcases ht with rfl | rfl <;> decide
  unfold dnsCheckQueryInA
  dsimp only
  rw [if_neg hheader, dnsCheckQueryLoop_here hret hquestion haccepted]

/-- A question of type A is echoed. -/
theorem dnsPackReplyInA_echoes_a :
    ReplyEchoes (replyReceived id (fun _ => 0) 1 64 (askedQuery 1) 0x0100007f 60)
      (dnsUnpack (askedQuery 1)).1 (askedQuestion 1) 0x0100007f 60 :=
  (dnsPackReplyInA_echoes_iff id (fun _ => 0) (askedQuery 1) 0x0100007f 60 (by decide)
    (askedQuery_accepted 1 (Or.inl rfl)).1 (askedQuery_accepted 1 (Or.inl rfl)).2
    (show (12 : Int) + (1 : Nat) + 22 ≤ 64 by decide)).mpr
    ⟨rfl, nameCanonical_a.labels⟩

/-- A question of type PTR is answered as one of type A. -/
theorem not_echoes_ptr :
    ¬∀ (addrOf : Nat → Nat) (mem : Int → UInt8) (buf len : Int) (query : Dns) (addr ttl : UInt32)
      (rr : DnsRr), 0 < buf → (dnsCheckQueryInA query (dnsNameMax + 1)).2.1 = 0 →
      AcceptedQuestion (dnsRrRewind (dnsUnpack query).1) rr → 12 + rr.name.length + 22 ≤ len →
      ReplyEchoes (replyReceived addrOf mem buf len query addr ttl)
        (dnsUnpack query).1 rr addr ttl := by
  intro hall
  obtain ⟨haccepts, hrr⟩ := askedQuery_accepted 12 (Or.inr rfl)
  have hechoes := hall id (fun _ => 0) 1 64 (askedQuery 12) 0 0 _ (by decide) haccepts hrr
    (show (12 : Int) + (1 : Nat) + 22 ≤ 64 by decide)
  obtain ⟨hA, -⟩ := ReplyEchoes.asked id (fun _ => 0) (askedQuery 12) 0 0 (by decide) haccepts hrr
    (show (12 : Int) + (1 : Nat) + 22 ≤ 64 by decide) hechoes
  exact absurd hA (by decide)

/-! ### Queries -/

/-- The message is a query for the address of `hostname`: it has the id, asks for recursion, and one
question is all that is in it. -/
structure QueryAsks (got : Dns) (hostname : List UInt8) (id : Int) : Prop where
  id : got.id = id
  qr : got.qr = 0
  opcode : got.opcode = DNS_OPCODE_QUERY
  rd : got.rd = 1
  records : ∃ fuel rrs, dnsReadRrs fuel got = some rrs ∧
    rrs.map DnsRr.content = [dnsQuestionInA hostname]

/-- `dns_rr_pack` returns 1 or -1. -/
theorem dnsRrPack_ret (addrOf : Nat → Nat) (dns : Dns) (rr : DnsRr) :
    (dnsRrPack addrOf dns rr).2.2 = 1 ∨ (dnsRrPack addrOf dns rr).2.2 = -1 := by
  rw [dnsRrPack]
  dsimp only
  split
  · exact Or.inr rfl
  · split
    · exact Or.inl rfl
    · exact Or.inl rfl

/-- So `dns_pack_query_in_a` always ends at its assert. -/
theorem dnsPackQueryInA_fails (addrOf : Nat → Nat) (query : Dns) (hostname : List UInt8) (id : Int) :
    (dnsPackQueryInA addrOf query hostname id).2 = -1 := by
  unfold dnsPackQueryInA
  dsimp only
  split
  · rfl
  · rename_i hzero
    rw [not_not] at hzero
    rcases dnsRrPack_ret addrOf _ (dnsQuestionInA hostname) with hone | hneg
    · exact absurd (hone.symm.trans hzero) (by decide)
    · exact absurd (hneg.symm.trans hzero) (by decide)

/-- No query is made, for any name and id and in any buffer. -/
theorem dnsResolveQuery_asks_never (addrOf : Nat → Nat) (mem : Int → UInt8) (buf buflen : Int)
    (hostname : List UInt8) (id : Int) :
    ¬(0 < (dnsResolveQuery addrOf mem buf buflen hostname id).2 ∧
      QueryAsks (dnsReceive (dnsResolveQuery addrOf mem buf buflen hostname id).1.mem buf
        (dnsResolveQuery addrOf mem buf buflen hostname id).2) hostname id) := by
  rintro ⟨hpos, -⟩
  rw [dnsResolveQuery, dnsPackQueryInA_fails] at hpos
  exact absurd hpos (by decide)

/-- No query is made for `a`: the call gives -1. -/
theorem not_asks_a :
    ¬∀ (addrOf : Nat → Nat) (mem : Int → UInt8) (buf buflen : Int) (hostname : List UInt8) (id : Int),
      NameCanonical hostname → 0 ≤ id → id < 65536 → 0 < buf → 12 + hostname.length + 6 ≤ buflen →
      0 < (dnsResolveQuery addrOf mem buf buflen hostname id).2 ∧
        QueryAsks (dnsReceive (dnsResolveQuery addrOf mem buf buflen hostname id).1.mem buf
          (dnsResolveQuery addrOf mem buf buflen hostname id).2) hostname id := by
  intro hall
  obtain ⟨hpos, -⟩ := hall id (fun _ => 0) 1 64 [97] 977 nameCanonical_a (by decide) (by decide)
    (by decide) (by decide)
  rw [dnsResolveQuery, dnsPackQueryInA_fails] at hpos
  exact absurd hpos (by decide)

end Bklib
