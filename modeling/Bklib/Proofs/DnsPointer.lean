import Bklib.Proofs.DnsName

/-!
# `Bklib.Proofs.DnsPointer`: the pointers that `dns_pack_name` writes

A name ends with a pointer to its first suffix that `name_hash` has. The pointer has 14 bits for the
offset, and the guard lets every offset below `DNS_NAME_PTR << 8` through, which is three times as
many. A pointer to an offset between the two loses its upper bits.

* `pointers_faithful_iff`: in which runs of `dns_pack_name` every pointer leads to the saved offset.
-/

set_option autoImplicit false

namespace Bklib

open Bklib.Lib

/-- A call of `dns_pack_name`. -/
structure NameToPack where
  src : List UInt8
  dst : Int
  dstlen : Int

/-- The call on a message. -/
def packStep (addrOf : Nat → Nat) (dns : Dns) (c : NameToPack) : Dns :=
  (dnsPackName addrOf dns c.src c.dst c.dstlen).1

/-- A call that succeeds, for a name of which `name_hash` has a suffix, ends with a pointer whose 14
bits are the offset saved for it. -/
def PointerFaithful (addrOf : Nat → Nat) (dns : Dns) (c : NameToPack) : Prop :=
  ∀ i, knownSuffix dns.nameAt c.src = some i →
    let (dns', len) := dnsPackName addrOf dns c.src c.dst c.dstlen
    0 < len →
      pointerValue (dns'.mem (c.dst + len - 2)) (dns'.mem (c.dst + len - 1)) = some i

/-- The name is short enough, there is room for what is written of it, and the labels before the
pointer start in the message. -/
structure NameFits (dns : Dns) (src : List UInt8) (dst dstlen : Int) : Prop where
  len : src.length < dnsNameMax
  room : (compressed dns.nameAt src).length ≤ dstlen
  inside : ∀ e ∈ suffixOffsets dns.nameAt (dst - dns.buf).toNat src,
    dns.buf ≤ dst ∧ dns.buf + e.2 < dns.bufEnd

/-- The name is not one that fits and has its first known suffix at an offset that the guard lets
through, but that needs more than 14 bits. -/
def OffsetFits (dns : Dns) (c : NameToPack) : Prop :=
  ∀ i, knownSuffix dns.nameAt c.src = some i → NameFits dns c.src c.dst c.dstlen →
    i < 16384 ∨ dnsNamePtr * 256 ≤ i

/-- The bytes of a label and its length in front of a name. -/
theorem length_compressed_put {tbl tbl' : SuffixTable} {src : List UInt8} (hsrc : src ≠ [])
    (hat : tbl src = none) (hother : ∀ k, k ≠ src → tbl' k = tbl k) :
    (compressed tbl src).length
      = (firstLabel src).length + 1 + (compressed tbl' (afterLabel src)).length := by
  rw [compressed_put hsrc hat hother, List.length_cons, List.length_append]
  omega

/-- A name fits when its label starts in the message and the rest fits behind it. -/
theorem nameFits_put {dns dns' : Dns} {src : List UInt8} {dst dstlen : Int} (hsrc : src ≠ [])
    (hlen : src.length < dnsNameMax) (hat : dns.nameAt src = none)
    (hother : ∀ k, k ≠ src → dns'.nameAt k = dns.nameAt k) (hbuf : dns'.buf = dns.buf)
    (hend : dns'.bufEnd = dns.bufEnd) (hin : dns.buf ≤ dst ∧ dst < dns.bufEnd) :
    NameFits dns' (afterLabel src) (dst + 1 + (firstLabel src).length)
        (dstlen - 1 - (firstLabel src).length) ↔ NameFits dns src dst dstlen := by
  have hlabel := length_compressed_put hsrc hat hother
  have hrest := length_afterLabel_lt hsrc
  have hpos : (dst + 1 + (firstLabel src).length - dns.buf).toNat
      = (dst - dns.buf).toNat + 1 + (firstLabel src).length := by omega
  have hoffsets := suffixOffsets_put (dst - dns.buf).toNat hsrc hat hother
  constructor
  · rintro ⟨-, hroom, hinside⟩
    rw [hbuf, hpos, hend] at hinside
    refine ⟨hlen, by omega, fun e he => ?_⟩
    rw [hoffsets, List.mem_cons] at he
    cases he with
    | inl he =>
        rw [he]
        exact ⟨hin.1, by show dns.buf + ((dst - dns.buf).toNat : Int) < _; omega⟩
    | inr he => exact ⟨hin.1, (hinside e he).2⟩
  · rintro ⟨-, hroom, hinside⟩
    refine ⟨by omega, by omega, fun e he => ?_⟩
    rw [hbuf, hpos] at he
    rw [hbuf, hend]
    have hold := hinside e (by rw [hoffsets]; exact List.mem_cons_of_mem _ he)
    exact ⟨by omega, hold.2⟩

/-- Where the bytes of the pointer are. -/
theorem NameWritten.pointer_bytes {dns dns' : Dns} {src bs : List UInt8} {dst : Int} {i : Nat}
    (h : NameWritten dns dns' src dst) (hbs : compressed dns.nameAt src = bs ++ pointerBytes i) :
    dns'.mem (dst + bs.length) = UInt8.ofNat (i / 256) ||| 192 ∧
      dns'.mem (dst + bs.length + 1) = UInt8.ofNat i := by
  rw [h.mem, hbs, writeAt_append]
  have hfirst := writeAt_add (writeAt dns.mem dst bs) (dst + bs.length) (pointerBytes i) 0
    Nat.zero_lt_two
  have hsecond := writeAt_add (writeAt dns.mem dst bs) (dst + bs.length) (pointerBytes i) 1
    Nat.one_lt_two
  rw [Nat.cast_zero, Int.add_zero] at hfirst
  exact ⟨hfirst, hsecond⟩

section
variable (addrOf : Nat → Nat)

/-- When a name with a known suffix is written. Induction on the text, label by label. -/
theorem dnsPackNameLoop_known_iff {i : Nat} (src : List UInt8) :
    ∀ {dns : Dns} {dst dstlen : Int}, dns.HashOk → knownSuffix dns.nameAt src = some i →
      ((dnsPackNameLoop addrOf dns src dst dstlen).2.isSome ↔
        NameFits dns src dst dstlen ∧ i < 49152) := by
  induction src using nameLabels.induct with
  | case1 =>
      intro dns dst dstlen _ hknown
      rw [knownSuffix_nil] at hknown
      cases hknown
  | case2 src hsrc ih =>
      intro dns dst dstlen h hknown
      by_cases hlen : src.length < dnsNameMax
      · obtain ⟨dns₁, hget, htable, hsome, hnames⟩ := nameLookup_spec h src
        obtain ⟨-, -, hbuf, hbufEnd⟩ := htable.fields
        cases hat : dns.nameAt src with
        | some j =>
            -- the pointer is written here, in two bytes
            rw [knownSuffix_of_some hsrc hat] at hknown
            obtain rfl := Option.some.inj hknown
            have hfits : NameFits dns src dst dstlen ↔ 2 ≤ dstlen := by
              have hroom : (compressed dns.nameAt src).length = 2 := by
                rw [compressed_of_some hsrc hat]
                rfl
              constructor
              · intro hfits
                have := hfits.room
                omega
              · intro htwo
                refine ⟨hlen, by omega, fun e he => ?_⟩
                rw [suffixOffsets_of_some hsrc hat] at he
                cases he
            rw [hat] at hget
            rw [dnsPackNameLoop_known addrOf hsrc hlen hget, hfits]
            split_ifs with hbad
            · exact iff_of_false (by simp) (by omega)
            · exact iff_of_true rfl (by omega)
        | none =>
            rw [hat] at hget
            obtain ⟨htable', -, hput⟩ :=
              Dns.namePut_spec addrOf htable.hashOk hsome src (dst - dns₁.buf).toNat
            obtain ⟨-, -, hbuf', hbufEnd'⟩ := htable'.fields
            rw [hnames] at hput
            rw [dnsPackNameLoop_new addrOf hsrc hlen hget]
            generalize dns₁.namePut addrOf src (dst - dns₁.buf).toNat = dns₂ at *
            -- no other name gets an offset
            have hother : ∀ k, k ≠ src → dns₂.nameAt k = dns.nameAt k :=
              fun k hk => (hput k).trans (if_neg hk)
            have hpos := length_compressed_pos dns₂.nameAt (afterLabel src)
            have hlabel := length_compressed_put hsrc hat hother
            by_cases hin : dns₁.buf ≤ dst ∧ dst < dns₁.bufEnd
            · rw [if_neg (not_not.mpr hin)]
              by_cases hroom : dstlen ≤ (firstLabel src).length + 1
              · simp only [if_pos hroom]
                refine iff_of_false (by simp) fun hfits => ?_
                have := hfits.1.room
                omega
              · simp only [if_neg hroom]
                rw [knownSuffix_put hsrc hat hother] at hknown
                rw [@ih ((dns₂.store dst _).store (dst + 1) _) _ _ htable'.hashOk hknown]
                exact and_congr_left fun _ => nameFits_put hsrc hlen hat hother
                  (hbuf'.trans hbuf) (hbufEnd'.trans hbufEnd) (by rwa [hbuf, hbufEnd] at hin)
            · rw [if_pos hin]
              refine iff_of_false (by simp) fun hfits => hin ?_
              obtain ⟨hlo, hhi⟩ := hfits.1.inside (src, (dst - dns.buf).toNat)
                (by rw [suffixOffsets_of_none hsrc hat]; exact List.mem_cons_self)
              have hhi' : dns.buf + (dst - dns.buf).toNat < dns.bufEnd := hhi
              omega
      · rw [dnsPackNameLoop_long addrOf dns hsrc hlen]
        refine iff_of_false (by simp) fun hfits => hlen hfits.1.len

/-- The step lemma: which calls write a pointer that leads to the saved offset. -/
theorem pointerFaithful_iff {dns : Dns} (h : dns.HashOk) (c : NameToPack) :
    PointerFaithful addrOf dns c ↔ OffsetFits dns c := by
  unfold PointerFaithful OffsetFits
  refine forall_congr' fun i => forall_congr' fun hknown => ?_
  have hdone := @dnsPackNameLoop_known_iff addrOf i c.src dns c.dst c.dstlen h hknown
  obtain ⟨dns', r, hloop, hcall, hwritten⟩ := dnsPackNameLoop_spec addrOf c.src h c.dst c.dstlen
  obtain ⟨bs, hbs⟩ := compressed_of_known hknown
  rw [dnsPackName, hloop]
  rw [hloop] at hdone
  -- a call that fails writes no pointer, and so none that is wrong
  cases r with
  | none =>
      refine iff_of_true (fun hpos => absurd hpos (by decide)) fun hfits => Or.inr ?_
      have hguard : ¬i < 49152 := fun hlt => by simpa using hdone.mpr ⟨hfits, hlt⟩
      show 49152 ≤ i
      omega
  | some e =>
      obtain ⟨rfl, hname⟩ := hwritten e rfl
      obtain ⟨hfits, hguard⟩ := hdone.mp rfl
      obtain ⟨hhi, hlo⟩ := hname.pointer_bytes hbs
      have hlen : c.dst + (compressed dns.nameAt c.src).length - c.dst
          = (bs.length : Int) + 2 := by
        rw [hbs, List.length_append]
        show c.dst + ((bs.length + 2 : Nat) : Int) - c.dst = _
        omega
      show (0 < c.dst + ((compressed dns.nameAt c.src).length : Int) - c.dst →
        pointerValue _ _ = some i) ↔ _
      rw [hlen, show c.dst + ((bs.length : Int) + 2) - 2 = c.dst + bs.length by omega,
        show c.dst + ((bs.length : Int) + 2) - 1 = c.dst + bs.length + 1 by omega, hhi, hlo]
      -- 14 bits hold the offset below 16384, and what is above them is lost
      constructor
      · intro hptr _
        exact Or.inl (pointerValue_lt (hptr (by omega)))
      · intro hoffset _
        have hsmall := hoffset hfits
        refine pointerValue_pointerBytes (hsmall.resolve_right ?_)
        show ¬49152 ≤ i
        omega

end

/-- The runs of `dns_pack_name` on a message of any length, to any places, in which every pointer
leads to the offset that `name_hash` has for its suffix. -/
theorem pointers_faithful_iff (addrOf : Nat → Nat) (mem : Int → UInt8) (buf len : Int)
    (calls : List NameToPack) :
    AllSteps (PointerFaithful addrOf) (packStep addrOf) (dnsInit mem buf len).1 calls ↔
      AllSteps OffsetFits (packStep addrOf) (dnsInit mem buf len).1 calls := by
  refine allSteps_congr_of_inv (I := Dns.HashOk) (fun dns c h => ?_)
    (fun dns c h => pointerFaithful_iff addrOf h c) ?_
  · obtain ⟨dns', i, hpack, hcall, -⟩ := dnsPackName_spec addrOf h c.src c.dst c.dstlen
    rw [packStep, hpack]
    exact hcall.hashOk
  · intro hash hsome
    cases hsome

/-- The same name twice, from offset 16384 on. -/
def farNames : List NameToPack := [⟨[97], 16384, 256⟩, ⟨[97], 16400, 256⟩]

/-- The second one is a pointer to offset 0. -/
theorem pointers_faithful_far :
    ¬AllSteps (PointerFaithful id) (packStep id) (dnsInit (fun _ => 0) 0 20000).1 farNames := by
  intro h
  have hfar := h.2.1 16384 (by decide +kernel)
  revert hfar
  decide +kernel

end Bklib
