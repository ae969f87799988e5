import Mathlib.Tactic.IntervalCases
import Bklib.Model.Dns

/-!
# `Bklib.Proofs.DnsHeader`: the header of a message is read and written back

`dns_pack` takes the flags of a header apart and puts them together again. The fields cover the
sixteen bits and do not overlap, so nothing is lost (`packBits_unpackBits`). A message whose fields
are those of its header (`Dns.HasHeader`) is written back as it was, but for an id that was changed
(`dnsPack_header`).
-/

set_option autoImplicit false

namespace Bklib

open Bklib.Lib

/-! ### The flags -/

theorem ofInt_toNat (v : UInt16) : UInt16.ofInt v.toNat = v := by
  have hv := v.toNat_lt
  rw [UInt16.ofInt, ← UInt16.toNat_inj]
  simp
  omega

/-- Bits that are moved down, masked and moved back. -/
theorem shiftRight_and_shiftLeft (u mask : UInt16) {shift : UInt16} (hshift : shift < 16) :
    ((u >>> shift) &&& mask) <<< shift = u &&& (mask <<< shift) := by
  have hlt : shift.toNat < 16 := by simpa [UInt16.lt_iff_toNat_lt] using hshift
  have hmod : shift.toNat % 16 = shift.toNat := Nat.mod_eq_of_lt hlt
  apply UInt16.eq_of_toBitVec_eq
  apply BitVec.eq_of_getLsbD_eq
  intro i hi
  simp only [UInt16.toBitVec_and, UInt16.toBitVec_shiftLeft, UInt16.toBitVec_shiftRight,
    BitVec.getLsbD_and]
  by_cases hlow : i < shift.toNat
  · simp [hmod, hlow]
  · simp [hmod, hlow, hi, Nat.add_sub_cancel' (Nat.le_of_not_lt hlow)]

/-- The bits of a field are taken from the word that the field was read from. -/
theorem packBits_unpackBits (net u bits : UInt16) {shift : UInt16} (hshift : shift < 16) :
    packBits net (unpackBits u bits shift) bits shift =
      (net &&& ~~~(((1 <<< bits) - 1) <<< shift)) ||| (u &&& (((1 <<< bits) - 1) <<< shift)) := by
  simp only [packBits, unpackBits, ofInt_toNat]
  rw [UInt16.and_assoc, UInt16.and_self, shiftRight_and_shiftLeft u _ hshift]

/-- The flags that a word is taken apart to make it again. -/
theorem packFlags_unpackFlags (u : UInt16) :
    packBits (packBits (packBits (packBits (packBits (packBits (packBits (packBits 0
      (unpackBits u 1 15) 1 15) (unpackBits u 4 11) 4 11) (unpackBits u 1 10) 1 10)
      (unpackBits u 1 9) 1 9) (unpackBits u 1 8) 1 8) (unpackBits u 1 7) 1 7)
      (unpackBits u 3 4) 3 4) (unpackBits u 4 0) 4 0 = u := by
  rw [packBits_unpackBits _ u 1 (by decide), packBits_unpackBits _ u 4 (by decide),
    packBits_unpackBits _ u 1 (by decide), packBits_unpackBits _ u 1 (by decide),
    packBits_unpackBits _ u 1 (by decide), packBits_unpackBits _ u 1 (by decide),
    packBits_unpackBits _ u 3 (by decide), packBits_unpackBits _ u 4 (by decide)]
  apply UInt16.eq_of_toBitVec_eq
  apply BitVec.eq_of_getLsbD_eq
  intro i hi
  simp only [UInt16.toBitVec_or, UInt16.toBitVec_and, UInt16.toBitVec_not, BitVec.getLsbD_or,
    BitVec.getLsbD_and, BitVec.getLsbD_not]
  -- Every bit is in one of the masks.
  interval_cases i <;> simp

/-! ### The header -/

/-- The word of the header at offset `i`. -/
def Dns.word (dns : Dns) (i : Int) : UInt16 := UInt16.ofNat (htons (get16 dns.mem (dns.buf + i)))

/-- The fields are those of the header, but for the id. -/
structure Dns.HasHeader (dns : Dns) : Prop where
  qr : dns.qr = unpackBits (dns.word 2) 1 15
  opcode : dns.opcode = unpackBits (dns.word 2) 4 11
  aa : dns.aa = unpackBits (dns.word 2) 1 10
  tc : dns.tc = unpackBits (dns.word 2) 1 9
  rd : dns.rd = unpackBits (dns.word 2) 1 8
  ra : dns.ra = unpackBits (dns.word 2) 1 7
  x3 : dns.x3 = unpackBits (dns.word 2) 3 4
  rcode : dns.rcode = unpackBits (dns.word 2) 4 0
  qrcount : dns.qrcount = (dns.word 4).toNat
  ancount : dns.ancount = (dns.word 6).toNat
  nscount : dns.nscount = (dns.word 8).toNat
  arcount : dns.arcount = (dns.word 10).toNat

/-- The id is not one of these fields. -/
theorem Dns.HasHeader.setId {dns : Dns} (h : dns.HasHeader) (id : Int) :
    ({ dns with id } : Dns).HasHeader :=
  ⟨h.qr, h.opcode, h.aa, h.tc, h.rd, h.ra, h.x3, h.rcode, h.qrcount, h.ancount, h.nscount, h.arcount⟩

/-- What `dns_pack` reads. -/
theorem dnsUnpack_eq (dns : Dns) :
    ∃ loaded, (dnsUnpack dns).1 = { dns with
      loaded := loaded
      id := (dns.word 0).toNat
      qr := unpackBits (dns.word 2) 1 15
      opcode := unpackBits (dns.word 2) 4 11
      aa := unpackBits (dns.word 2) 1 10
      tc := unpackBits (dns.word 2) 1 9
      rd := unpackBits (dns.word 2) 1 8
      ra := unpackBits (dns.word 2) 1 7
      x3 := unpackBits (dns.word 2) 3 4
      rcode := unpackBits (dns.word 2) 4 0
      qrcount := (dns.word 4).toNat
      ancount := (dns.word 6).toNat
      nscount := (dns.word 8).toNat
      arcount := (dns.word 10).toNat } := by
  have hid : dns.word 0 = UInt16.ofNat (htons (get16 dns.mem dns.buf)) := by
    rw [Dns.word, Int.add_zero]
  rw [hid]
  exact ⟨_, rfl⟩

/-- The header is read, and nothing else changes. -/
theorem dnsUnpack_header (dns : Dns) :
    (dnsUnpack dns).1.HasHeader ∧ (dnsUnpack dns).1.id = (dns.word 0).toNat ∧
      (dnsUnpack dns).1.mem = dns.mem ∧ (dnsUnpack dns).1.buf = dns.buf ∧
      (dnsUnpack dns).1.bufEnd = dns.bufEnd ∧ (dnsUnpack dns).1.ptr = dns.ptr ∧
      (dnsUnpack dns).1.buflen = dns.buflen := by
  obtain ⟨loaded, heq⟩ := dnsUnpack_eq dns
  rw [heq]
  exact ⟨⟨rfl, rfl, rfl, rfl, rfl, rfl, rfl, rfl, rfl, rfl, rfl, rfl⟩, rfl, rfl, rfl, rfl, rfl, rfl⟩

/-- A word of the header, written in network order, is what was there. -/
theorem bytes16_word (m : Int → UInt8) (a : Int) :
    bytes16 (htons (UInt16.ofNat (htons (get16 m a))).toNat) = readAt m a 2 := by
  have hlt := htons_lt (get16 m a)
  rw [UInt16.toNat_ofNat', Nat.mod_eq_of_lt hlt, htons_htons (get16_lt m a), bytes16_get16]

/-- Storing a word of the header back changes nothing. -/
theorem store_word (m : Int → UInt8) (a : Int) :
    writeAt m a (bytes16 (htons (UInt16.ofNat (htons (get16 m a))).toNat)) = m := by
  rw [bytes16_word, writeAt_readAt]

/-- The bytes of a word in network order tell the word. -/
theorem bytes16_htons_inj {v w : UInt16} (h : bytes16 (htons v.toNat) = bytes16 (htons w.toNat)) :
    v = w := by
  have hv := get16_of_readAt (writeAt (fun _ => 0) 0 (bytes16 (htons v.toNat)))
    (htons_lt v.toNat) (readAt_writeAt _ 0 _)
  have hw := get16_of_readAt (writeAt (fun _ => 0) 0 (bytes16 (htons v.toNat)))
    (htons_lt w.toNat) ((readAt_writeAt _ 0 _).trans h)
  rw [← UInt16.toNat_inj, ← htons_htons v.toNat_lt, ← htons_htons w.toNat_lt, ← hv, ← hw]

/-- `dns_pack` writes the header back, with the id. -/
theorem dnsPack_header {dns : Dns} (h : dns.HasHeader) :
    (dnsPack dns).1.mem = writeAt dns.mem dns.buf (bytes16 (htons (UInt16.ofInt dns.id).toNat)) ∧
      (dnsPack dns).1.buf = dns.buf ∧ (dnsPack dns).1.buflen = dns.buflen ∧
      (dnsPack dns).2 = dns.ptr - dns.buf := by
  refine ⟨?_, rfl, rfl, rfl⟩
  obtain ⟨m, hm⟩ : ∃ m, writeAt dns.mem dns.buf (bytes16 (htons (UInt16.ofInt dns.id).toNat)) = m :=
    ⟨_, rfl⟩
  -- Behind the id, the header is still that of the message.
  have hword : ∀ i : Int, 2 ≤ i → dns.word i = UInt16.ofNat (htons (get16 m (dns.buf + i))) := by
    intro i hi
    have hget := get16_put16_of_disjoint dns.mem (htons (UInt16.ofInt dns.id).toNat)
      (show dns.buf + i + 2 ≤ dns.buf ∨ dns.buf + 2 ≤ dns.buf + i by omega)
    unfold put16 at hget
    rw [← hm, hget]
    rfl
  unfold dnsPack
  simp only [Dns.packU16, Dns.store, h.qr, h.opcode, h.aa, h.tc, h.rd, h.ra, h.x3, h.rcode,
    h.qrcount, h.ancount, h.nscount, h.arcount, packFlags_unpackFlags, ofInt_toNat, hm]
  rw [hword 2 (by decide), hword 4 (by decide), hword 6 (by decide), hword 8 (by decide),
    hword 10 (by decide), store_word, store_word, store_word, store_word, store_word]

/-! ### A message that was received -/

/-- `dns_init` and `dns_pack` on a message of at least twelve bytes. -/
theorem dnsReceived (mem : Int → UInt8) (buf : Int) {bytes : List UInt8} (hlen : 12 ≤ bytes.length) :
    ∃ dns, dnsUnpack (dnsInit (writeAt mem buf bytes) buf bytes.length).1 = (dns, 12) ∧
      (dnsInit (writeAt mem buf bytes) buf bytes.length).2 = 0 ∧ dns.HasHeader ∧
      (∃ v : UInt16, dns.id = v.toNat ∧ bytes16 (htons v.toNat) = bytes.take 2) ∧
      dns.mem = writeAt mem buf bytes ∧ dns.buf = buf ∧ dns.buflen = bytes.length ∧
      dns.bufEnd = buf + bytes.length ∧ dns.ptr = buf + 12 := by
  obtain ⟨hheader, hid, hmem, hbuf, hend, hptr, hbuflen⟩ :=
    dnsUnpack_header (dnsInit (writeAt mem buf bytes) buf bytes.length).1
  refine ⟨_, Prod.ext rfl ?_, ?_, hheader, ⟨_, hid, ?_⟩, hmem, hbuf, hbuflen, hend, hptr⟩
  · show buf + 12 - buf = (12 : Int)
    omega
  · show (if buf + 12 ≤ buf + (bytes.length : Int) then 0 else -1) = (0 : Int)
    exact if_pos (by omega)
  · show bytes16 (htons (UInt16.ofNat (htons (get16 (writeAt mem buf bytes) (buf + 0)))).toNat) = _
    have htake := take_readAt (writeAt mem buf bytes) buf (show 2 ≤ bytes.length by omega)
    rw [bytes16_word, Int.add_zero, ← htake, readAt_writeAt]

/-- A shorter message is refused. -/
theorem dnsInit_short (mem : Int → UInt8) (buf : Int) {bytes : List UInt8}
    (hlen : bytes.length < 12) : (dnsInit (writeAt mem buf bytes) buf bytes.length).2 = -1 := by
  show (if buf + 12 ≤ buf + (bytes.length : Int) then 0 else -1) = (-1 : Int)
  exact if_neg (by omega)

end Bklib
