import Bklib.Model.DnsFmt
import Bklib.Proofs.DnsUnpackName
import Bklib.Proofs.Memdump

/-!
# `Bklib.Proofs.DnsFmt`: how much of a dump stays inside of its buffer

`dnsRecords` lists the records that `dns_fmt` reads. Its texts are those of the header and of these
records (`dnsFmt_eq`), none of which is long: a name has no more than 257 bytes, whether it could be
read or not. So `SnBuf.adds_inside_iff` says when the dump is inside of its buffer
(`dnsFmt_inside_fuel_iff`), and `dumps_inside_iff` says it of both dumps.
-/

set_option autoImplicit false

namespace Bklib

open Bklib.Lib

/-! ### The texts of a dump -/

/-- The records that `dns_rr_pack` reads from here on, `fuel` of them at most. -/
def dnsRecords : Nat → Dns → List DnsRr
  | 0,        _   => []
  | fuel + 1, dns =>
      match dnsRrUnpack dns with
      | (dns, rr, i) => if i ≤ 0 then [] else rr :: dnsRecords fuel dns

/-- The loop prints the texts of the records that can be read. -/
theorem dnsFmtLoop_eq (fuel : Nat) (dns : Dns) (b : SnBuf) :
    (dnsFmtLoop fuel dns b).2 = b.adds ((dnsRecords fuel dns).flatMap dnsFmtRr) := by
  induction fuel generalizing dns b with
  | zero => rfl
  | succ fuel ih =>
      rw [dnsFmtLoop, dnsRecords]
      -- the loop ends where no record can be read
      rcases dnsRrUnpack dns with ⟨dns', rr, i⟩
      dsimp only
      by_cases hi : i ≤ 0
      · rw [if_pos hi, if_pos hi]
        rfl
      · rw [if_neg hi, if_neg hi, ih, List.flatMap_cons, SnBuf.adds_append]

theorem dnsFmt_eq (fuel : Nat) (dns : Dns) (b : SnBuf) :
    (dnsFmt fuel dns b).2 =
      b.adds (dnsFmtHdr dns ++ (dnsRecords fuel (dnsRrRewind dns)).flatMap dnsFmtRr) := by
  rw [SnBuf.adds_append, ← dnsFmtLoop_eq]
  rfl

/-! ### Names are short -/

/-- A round that ends the loop has written a dot at most. -/
theorem length_dst_of_stop {s : NameCursor} {r : DnsNameRead} (h : nameRound s = .stop r) :
    r.dst.length ≤ s.dst.length + 1 := by
  unfold nameRound at h
  dsimp only at h
  split_ifs at h <;> cases h <;> simp

/-- What `dns_unpack_name` has written, also when it fails. -/
theorem length_dnsUnpackName_le (dns : Dns) (src srclen : Int) :
    (cstr (dnsUnpackName dns src srclen dnsNameMax).2.2.1).length ≤ 257 := by
  obtain ⟨moves, r, hrounds, hloop⟩ := exists_nameRounds ⟨dns, 100, src, srclen, [], dnsNameMax, 0⟩
  have hdst : r.dst.length ≤ 256 := by
    -- a round takes as much off the room as it writes
    refine hrounds.inv (Q := fun r => r.dst.length ≤ 256)
      (I := fun s => s.dst.length + s.dstlen = (dnsNameMax : Int) ∧ 0 < s.dstlen)
      (fun s₁ b s₂ hs h => ?_) (fun s₁ r hs h => ?_) ⟨rfl, show (0 : Int) < dnsNameMax by decide⟩
    · rcases nameRound_move h with ⟨-, -, -, hdst, hroom⟩ | ⟨-, -, -, -, htotal, hpos, -⟩
      · rw [hdst, hroom]
        exact hs
      · exact ⟨htotal.trans hs.1, hpos⟩
    · have hstop := length_dst_of_stop h
      have hmax : (dnsNameMax : Int) = 256 := rfl
      omega
  have hle : ∀ text : List UInt8, (cstr text).length ≤ text.length := fun text =>
    List.Sublist.length_le (List.takeWhile_sublist _)
  cases hok : r.ok with
  | false =>
      rw [dnsUnpackName_failed hloop hok]
      exact (hle r.dst).trans (by omega)
  | true =>
      rw [dnsUnpackName_ok hloop hok]
      refine (hle (r.dst ++ [0])).trans ?_
      rw [List.length_append, List.length_singleton]
      omega

/-- The names of a record. -/
def DnsRr.NamesShort (rr : DnsRr) : Prop := rr.name.length ≤ 257 ∧ rr.rdataName.length ≤ 257

/-- Reading data keeps the names short. -/
theorem namesShort_dnsRdataUnpack {dns : Dns} {rr : DnsRr} (h : rr.NamesShort) (p : Int) :
    (dnsRdataUnpack dns rr p).2.1.NamesShort := by
  unfold dnsRdataUnpack
  split_ifs
  · exact h
  · exact h
  · exact ⟨h.1, length_dnsUnpackName_le dns p rr.rdataLen.toNat⟩
  · exact h

/-- A name that was read ends in its array. -/
theorem namesShort_dnsRrUnpack (dns : Dns) : (dnsRrUnpack dns).2.1.NamesShort := by
  have hzero : DnsRr.zero.NamesShort := ⟨Nat.zero_le _, Nat.zero_le _⟩
  unfold dnsRrUnpack
  cases dnsRrSection dns with
  | none => exact hzero
  | some rrSection =>
      have hname := length_dnsUnpackName_le dns dns.ptr (dns.bufEnd - dns.ptr)
      dsimp only
      split_ifs
      · exact ⟨hname, hzero.2⟩
      · exact ⟨hname, hzero.2⟩
      · -- the name is read before the rest, which may fail
        refine namesShort_dnsRdataUnpack ?_ _
        exact ⟨hname, hzero.2⟩

/-- This holds of all records that are read. -/
theorem namesShort_of_mem_dnsRecords {fuel : Nat} {dns : Dns} {rr : DnsRr}
    (h : rr ∈ dnsRecords fuel dns) : rr.NamesShort := by
  induction fuel generalizing dns with
  | zero => exact absurd h List.not_mem_nil
  | succ fuel ih =>
      have hshort := namesShort_dnsRrUnpack dns
      rw [dnsRecords] at h
      rcases dnsRrUnpack dns with ⟨dns', rr', i⟩
      dsimp only at h hshort
      split at h
      · exact absurd h List.not_mem_nil
      · rcases List.mem_cons.mp h with rfl | h
        · exact hshort
        · exact ih h

/-! ### Texts are short -/

/-- A name of a table, or a number, is short. -/
theorem length_intStr_le {names : List (Int × String)}
    (hnames : ∀ e ∈ names, e.2.length ≤ 11) (x : Int) : (intStr names x).length ≤ 11 := by
  induction names with
  | nil => exact length_fmtD_le x
  | cons e names ih =>
      have hrest := ih fun e he => hnames e (List.mem_cons_of_mem _ he)
      unfold intStr at hrest ⊢
      rw [List.lookup_cons]
      by_cases hx : (x == e.1) = true
      · rw [hx]
        show (bytes e.2).length ≤ 11
        rw [length_bytes]
        exact hnames e List.mem_cons_self
      · rw [Bool.not_eq_true] at hx
        rw [hx]
        exact hrest

/-- So is an address. -/
theorem length_netpktNtoa_le (addr : UInt32) : (netpktNtoa addr).length ≤ 15 := by
  have hbyte : ∀ b : UInt8, (bytes (toString b.toNat)).length ≤ 3 := by
    intro b
    have hb := b.toNat_lt
    rw [length_bytes]
    exact Nat.repr_length b.toNat 3 (by decide) (by omega)
  have h₀ := hbyte addr.toUInt8
  have h₁ := hbyte (addr >>> 8).toUInt8
  have h₂ := hbyte (addr >>> 16).toUInt8
  have h₃ := hbyte (addr >>> 24).toUInt8
  have hdot : (bytes ".").length = 1 := rfl
  simp only [netpktNtoa, bytesLe, List.map_cons, List.map_nil, List.intercalate, List.intersperse,
    List.flatten_cons, List.flatten_nil, List.length_append, List.length_nil]
  omega

/-- Every text of the header fits. -/
theorem length_le_of_mem_dnsFmtHdr {dns : Dns} {t : List UInt8} (h : t ∈ dnsFmtHdr dns) :
    t.length ≤ 300 := by
  have hopcode : (dnsOpcodeStr dns.opcode).length ≤ 11 := length_intStr_le (by decide) _
  have hrcode : (dnsRcodeStr dns.rcode).length ≤ 11 := length_intStr_le (by decide) _
  have hint : ∀ (s : String) (x : Int), s.length ≤ 8 → (bytes s ++ fmtD x).length ≤ 300 := by
    intro s x hs
    have hx := length_fmtD_le x
    rw [List.length_append, length_bytes]
    omega
  unfold dnsFmtHdr at h
  simp only [List.mem_cons, List.not_mem_nil, or_false] at h
  rcases h with rfl | rfl | rfl | rfl | rfl | rfl | rfl | rfl | rfl | rfl
  · decide
  · exact hint _ _ (by decide)
  · exact hint _ _ (by decide)
  · exact hint _ _ (by decide)
  · exact hint _ _ (by decide)
  · exact hint _ _ (by decide)
  · exact hint _ _ (by decide)
  · exact hint _ _ (by decide)
  · rw [List.length_append, show (bytes " opcode=").length = 8 from rfl]
    omega
  · rw [List.length_append, show (bytes " rcode=").length = 7 from rfl]
    omega

/-- So does every text for the data of a record. -/
theorem length_le_of_mem_dnsFmtRdata {rr : DnsRr} (hrr : rr.NamesShort) {t : List UInt8}
    (h : t ∈ dnsFmtRdata rr) : t.length ≤ 300 := by
  unfold dnsFmtRdata at h
  split_ifs at h
  · exact absurd h List.not_mem_nil
  · have haddr := length_netpktNtoa_le rr.rdataAddr
    rw [List.mem_singleton.mp h, List.length_append, show (bytes " addr=").length = 6 from rfl]
    omega
  · have hname := hrr.2
    rw [List.mem_singleton.mp h, List.length_append, show (bytes " name=").length = 6 from rfl]
    omega
  · exact absurd h List.not_mem_nil

/-- So does every text of a record. -/
theorem length_le_of_mem_dnsFmtRr {rr : DnsRr} (hrr : rr.NamesShort) {t : List UInt8}
    (h : t ∈ dnsFmtRr rr) : t.length ≤ 300 := by
  have hsection : (dnsRrStr rr.rrSection).length ≤ 11 := length_intStr_le (by decide) _
  have hclass : (dnsClassStr rr.rrClass.toNat).length ≤ 11 := length_intStr_le (by decide) _
  have htype : (dnsTypeStr rr.rrType.toNat).length ≤ 11 := length_intStr_le (by decide) _
  have httl := length_fmtD_le rr.ttl.toNat
  have hname := hrr.1
  unfold dnsFmtRr at h
  rw [List.mem_append, List.mem_append] at h
  rcases h with (h | h) | h
  · simp only [List.mem_cons, List.not_mem_nil, or_false] at h
    rcases h with rfl | rfl | rfl | rfl
    · rw [List.length_append, List.length_append, List.length_append,
        show (bytes " ").length = 1 from rfl, show (bytes ":\x7bname=").length = 7 from rfl]
      omega
    · rw [List.length_append, show (bytes " class=").length = 7 from rfl]
      omega
    · rw [List.length_append, show (bytes " type=").length = 6 from rfl]
      omega
    · rw [List.length_append, show (bytes " ttl=").length = 5 from rfl]
      omega
  · exact length_le_of_mem_dnsFmtRdata hrr h
  · rw [List.mem_singleton.mp h]
    decide

/-! ### The dump -/

/-- The characters of the dump of a message with these records, but for its last text: the closing
brace of the last record, or the response code when there is no record. -/
def dnsFmtLen (dns : Dns) (rrs : List DnsRr) : Nat :=
  if rrs = [] then textsLen (dnsFmtHdr dns).dropLast
  else textsLen (dnsFmtHdr dns) + (rrs.map fun rr => textsLen (dnsFmtRr rr)).sum - 1

/-- The texts of the records are as long as each record's together. -/
theorem textsLen_flatMap_dnsFmtRr (rrs : List DnsRr) :
    textsLen (rrs.flatMap dnsFmtRr) = (rrs.map fun rr => textsLen (dnsFmtRr rr)).sum := by
  induction rrs with
  | nil => rfl
  | cons rr rrs ih =>
      rw [List.flatMap_cons, textsLen_append, ih, List.map_cons, List.sum_cons]

/-- The length of all that is printed. -/
theorem textsLen_dnsFmt (dns : Dns) (rrs : List DnsRr) :
    textsLen (dnsFmtHdr dns ++ rrs.flatMap dnsFmtRr).dropLast = dnsFmtLen dns rrs := by
  unfold dnsFmtLen
  rcases List.eq_nil_or_concat' rrs with rfl | ⟨init, last, rfl⟩
  · rw [if_pos rfl, List.flatMap_nil, List.append_nil]
  · -- the last text of a record is its closing brace
    have hsplit : dnsFmtHdr dns ++ (init ++ [last]).flatMap dnsFmtRr =
        (dnsFmtHdr dns ++ (init.flatMap dnsFmtRr ++
          ([bytes " " ++ dnsRrStr last.rrSection ++ bytes ":\x7bname=" ++ last.name,
            bytes " class=" ++ dnsClassStr last.rrClass.toNat,
            bytes " type=" ++ dnsTypeStr last.rrType.toNat,
            bytes " ttl=" ++ fmtD last.ttl.toNat] ++ dnsFmtRdata last))) ++ [bytes "\x7d"] := by
      rw [List.flatMap_append, List.flatMap_singleton, List.append_assoc, List.append_assoc]
      rfl
    have htotal := congrArg textsLen hsplit
    rw [textsLen_append, textsLen_append, textsLen_flatMap_dnsFmtRr, textsLen_cons, textsLen_nil,
      show (bytes "\x7d").length = 1 from rfl] at htotal
    rw [if_neg (by simp), hsplit, List.dropLast_concat]
    omega

/-- The condition, with the records that `fuel` reads. -/
theorem dnsFmt_inside_fuel_iff (mem : Int → UInt8) (buf : Int) {len : Int} (hlen : 0 ≤ len)
    (hint : len < 2 ^ 31) (dns : Dns) (fuel : Nat) :
    (dnsFmt fuel dns (.init mem buf len)).2.Inside buf len ↔
      (dnsFmtLen dns (dnsRecords fuel (dnsRrRewind dns)) : Int) ≤ len := by
  have hempty : (SnBuf.init mem buf len).Inside buf len := fun r hr => absurd hr List.not_mem_nil
  -- no text is so long that `len` would wrap around
  have hshort : ∀ t ∈ dnsFmtHdr dns ++ (dnsRecords fuel (dnsRrRewind dns)).flatMap dnsFmtRr,
      t.length < 2 ^ 63 := by
    intro t ht
    rcases List.mem_append.mp ht with ht | ht
    · have hle := length_le_of_mem_dnsFmtHdr ht
      omega
    · obtain ⟨rr, hrr, ht⟩ := List.mem_flatMap.mp ht
      have hle := length_le_of_mem_dnsFmtRr (namesShort_of_mem_dnsRecords hrr) ht
      omega
  rw [dnsFmt_eq, SnBuf.adds_inside_iff hempty (le_refl buf) hlen rfl
    (show len < 2 ^ 63 by omega) hshort, textsLen_dnsFmt]
  exact Iff.rfl

/-- A dump stays inside of the `len` bytes of its buffer exactly when there is room for all of its
texts but the last: for `memdump` the newline, for `dns_fmt` the closing brace of the last record or
the response code. What `dns_fmt` does to its buffer is said for any number of its rounds. -/
theorem dumps_inside_iff (mem : Int → UInt8) (buf : Int) {len : Int} (hlen : 1 ≤ len)
    (hint : len < 2 ^ 31) :
    (∀ src : List UInt8, (memdump (.init mem buf len) src).Inside buf len ↔
      src = [] ∨ (memdumpLen src.length : Int) ≤ len + 1) ∧
    ∀ dns : Dns, (∀ fuel, (dnsFmt fuel dns (.init mem buf len)).2.Inside buf len) ↔
      ∀ fuel, (dnsFmtLen dns (dnsRecords fuel (dnsRrRewind dns)) : Int) ≤ len := by
  constructor
  · intro src
    exact memdump_inside_iff mem buf (by omega) hint src
  · intro dns
    exact forall_congr' fun fuel => dnsFmt_inside_fuel_iff mem buf (by omega) hint dns fuel

theorem dumps_inside_iff_one :
    (∀ src : List UInt8, (memdump (.init (fun _ => 0) 0 1) src).Inside 0 1 ↔
      src = [] ∨ (memdumpLen src.length : Int) ≤ 1 + 1) ∧
    ∀ dns : Dns, (∀ fuel, (dnsFmt fuel dns (.init (fun _ => 0) 0 1)).2.Inside 0 1) ↔
      ∀ fuel, (dnsFmtLen dns (dnsRecords fuel (dnsRrRewind dns)) : Int) ≤ 1 :=
  dumps_inside_iff (fun _ => 0) 0 (by decide) (by decide)

/-- The dump of one byte in a buffer of 16 bytes, and the one of an empty message. -/
theorem dumps_outside :
    ¬(memdump (.init (fun _ => 0) 0 16) [104]).Inside 0 16 ∧
      ¬(dnsFmt 1 (dnsInit (fun _ => 0) 0 12).1 (.init (fun _ => 0) 0 16)).2.Inside 0 16 := by
  constructor
  · rw [memdump_inside_iff _ _ (by decide) (by decide)]
    decide
  · rw [dnsFmt_inside_fuel_iff _ _ (by decide) (by decide)]
    decide

end Bklib
