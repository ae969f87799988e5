import Bklib.Lib.DomainName
import Bklib.Lib.Rounds
import Bklib.Proofs.DnsUnpack

/-!
# `Bklib.Proofs.DnsUnpackName`: `dns_unpack_name` ends

A pointer sets the source to the rest of the message again, and may lead backwards or forwards, so
only the pointers that are left bound the jumps, and only between two jumps the source gets shorter.
Both together go down in every round. What is left of the destination is at least one byte before
every round, which is the byte for the NUL.

* `dnsUnpackName_ends`: the rounds, the pointers and the length of the text.
-/

set_option autoImplicit false

namespace Bklib

open Bklib.Lib

/-- The variables of the loop of `dns_unpack_name`. -/
structure NameCursor where
  dns : Dns
  ptrMax : Int
  src : Int
  srclen : Int
  dst : List UInt8
  dstlen : Int
  srcEnd : Int

/-- The two ways in which a round goes on. -/
inductive NameMove where
  | pointer
  | label
  deriving DecidableEq

/-- A round of the loop of `dns_unpack_name`. -/
def nameRound (s : NameCursor) : Round NameCursor NameMove DnsNameRead :=
  if ¬0 < s.srclen then .stop ⟨s.dns, false, s.dst, s.src, s.srcEnd⟩
  else
    let n := s.dns.mem s.src
    let dns := s.dns.load s.src 1
    let src := s.src + 1
    let srclen := s.srclen - 1
    if n = 0 then .stop ⟨dns, true, s.dst, src, s.srcEnd⟩
    else if n &&& 192 ≠ 0 then
      if ¬0 < s.ptrMax - 1 ∨ ¬0 < srclen then .stop ⟨dns, false, s.dst, src, s.srcEnd⟩
      else
        let i := dnsPtrValue n (dns.mem src)
        let dns := dns.load src 1
        let src := src + 1
        if ¬0 < i then .stop ⟨dns, false, s.dst, src, s.srcEnd⟩
        else
          .move .pointer ⟨dns, s.ptrMax - 1, dns.buf + i, dns.bufEnd - dns.buf - i, s.dst, s.dstlen,
            if s.srcEnd = 0 then src else s.srcEnd⟩
    else if s.dst ≠ [] ∧ ¬1 < s.dstlen then .stop ⟨dns, false, s.dst, src, s.srcEnd⟩
    else
      let dot := if s.dst = [] then [] else [46]
      let dstlen := s.dstlen - dot.length
      if ¬(n.toNat : Int) < dstlen then .stop ⟨dns, false, s.dst ++ dot, src, s.srcEnd⟩
      else
        let text := strncpyText dns.mem src n.toNat
        let dns := dns.load src (strncpyLen dns.mem src n.toNat)
        .move .label ⟨dns, s.ptrMax, src + n.toNat, srclen - n.toNat, s.dst ++ dot ++ text,
          dstlen - n.toNat, s.srcEnd⟩

/-- The loop from these variables on. -/
def NameCursor.loop (s : NameCursor) : DnsNameRead :=
  dnsUnpackNameLoop s.dns s.ptrMax s.src s.srclen s.dst s.dstlen s.srcEnd

/-- A round, and the loop from where it leads to. -/
theorem NameCursor.loop_eq (s : NameCursor) :
    s.loop = match nameRound s with
      | .stop r    => r
      | .move _ s' => s'.loop := by
  unfold loop
  rw [dnsUnpackNameLoop, nameRound]
  dsimp only
  split_ifs <;> rfl

/-- What a move does to what bounds the loop: a pointer uses up one of the pointers that are left and
writes nothing, and a label uses up source, and as much of the destination as it writes, which is no
more than 63 bytes behind a dot. -/
theorem nameRound_move {s s' : NameCursor} {b : NameMove} (h : nameRound s = .move b s') :
    (b = .pointer ∧ 1 < s.ptrMax ∧ s'.ptrMax = s.ptrMax - 1 ∧ s'.dst = s.dst ∧
        s'.dstlen = s.dstlen) ∨
      (b = .label ∧ s'.ptrMax = s.ptrMax ∧ 0 < s.srclen ∧ s'.srclen < s.srclen ∧
        s'.dst.length + s'.dstlen = s.dst.length + s.dstlen ∧ 0 < s'.dstlen ∧
        (PartsLe 63 s.dst → PartsLe 63 s'.dst)) := by
  unfold nameRound at h
  dsimp only at h
  split at h
  · cases h
  rename_i hsrc
  split at h
  · cases h
  split at h
  · -- A pointer.
    split at h
    · cases h
    rename_i hptr
    split at h
    · cases h
    · cases h
      exact Or.inl ⟨rfl, by omega, rfl, rfl, rfl⟩
  · -- A label.
    rename_i hlabel
    generalize hdot : (if s.dst = [] then ([] : List UInt8) else [46]) = dot at h
    split at h
    · cases h
    split at h
    · cases h
    · rename_i hroom
      cases h
      refine Or.inr ⟨rfl, rfl, by omega, by show s.srclen - 1 - _ < _; omega, ?_, ?_, ?_⟩
      · show ((s.dst ++ dot ++ strncpyText _ _ _).length : Int) + (s.dstlen - _ - _) = _
        rw [List.length_append, List.length_append, length_strncpyText]
        push_cast
        omega
      · show 0 < s.dstlen - _ - _
        omega
      · have hlt : (s.dns.mem s.src).toNat < 64 := by
          have hsmall := (not_congr (and_192_ne_zero_iff _)).mp hlabel
          rw [UInt8.not_le, UInt8.lt_iff_toNat_lt] at hsmall
          exact hsmall
        have htext : PartsLe 63 (strncpyText s.dns.mem (s.src + 1) (s.dns.mem s.src).toNat) :=
          partsLe_of_length (by rw [length_strncpyText]; omega)
        intro hparts
        show PartsLe 63 (s.dst ++ dot ++ strncpyText s.dns.mem (s.src + 1) (s.dns.mem s.src).toNat)
        rw [← hdot]
        split
        · rename_i hnil
          rw [hnil]
          exact htext
        · rw [List.append_assoc]
          exact hparts.append htext

/-- A loop that stops at a NUL has written nothing in its last round. -/
theorem nameRound_stop {s : NameCursor} {r : DnsNameRead} (h : nameRound s = .stop r)
    (hok : r.ok = true) : r.dst = s.dst := by
  unfold nameRound at h
  dsimp only at h
  split_ifs at h <;> cases h <;> first | rfl | cases hok

/-- What goes down in every round: the pointers that are left, and between two of them the source. -/
def NameCursor.measure (s : NameCursor) : Nat × Nat := (s.ptrMax.toNat, s.srclen.toNat)

/-- A round takes a pointer or leaves fewer bytes, so the measure falls. -/
theorem nameRound_down (s : NameCursor) (b : NameMove) (s' : NameCursor)
    (h : nameRound s = .move b s') :
    Prod.Lex (· < ·) (· < ·) s'.measure s.measure := by
  unfold NameCursor.measure
  rw [Prod.lex_iff]
  rcases nameRound_move h with ⟨-, hlt, heq, -, -⟩ | ⟨-, heq, hpos, hlt, -, -, -⟩
  · left
    omega
  · right
    exact ⟨by rw [heq], by omega⟩

section
variable {dns : Dns} {src srclen dstlen : Int} {r : DnsNameRead}
  (hloop : dnsUnpackNameLoop dns 100 src srclen [] dstlen 0 = r)
include hloop

theorem dnsUnpackName_ok (hok : r.ok = true) : dnsUnpackName dns src srclen dstlen =
    (r.dns, (r.dst.length : Int) + 1, r.dst ++ [0], if r.srcEnd = 0 then r.src else r.srcEnd) := by
  unfold dnsUnpackName
  rw [hloop]
  exact if_pos hok

theorem dnsUnpackName_failed (hok : r.ok = false) :
    dnsUnpackName dns src srclen dstlen = (r.dns, -1, r.dst, r.srcEnd) := by
  unfold dnsUnpackName
  rw [hloop]
  exact if_neg (by rw [hok]; exact Bool.false_ne_true)

end

/-- The rounds of the loop. -/
theorem exists_nameRounds (s : NameCursor) : ∃ moves r, Rounds nameRound s moves r ∧ s.loop = r := by
  obtain ⟨moves, r, hrounds⟩ := exists_rounds nameRound
    (InvImage.wf NameCursor.measure (WellFounded.prod_lex wellFounded_lt wellFounded_lt))
    nameRound_down s
  exact ⟨moves, r, hrounds, hrounds.eq_of_unfold (f := NameCursor.loop)
    (fun s r h => by rw [s.loop_eq, h]) (fun s b s' h => by rw [s.loop_eq, h])⟩

/-- The text and the room that is left are `dstlen` bytes, and the room is not empty. -/
theorem nameRounds_room {s : NameCursor} {moves : List NameMove} {r : DnsNameRead}
    (h : Rounds nameRound s moves r) (hroom : 0 < s.dstlen) (hok : r.ok = true) :
    (r.dst.length : Int) < s.dst.length + s.dstlen := by
  refine h.inv (Q := fun r => r.ok = true → (r.dst.length : Int) < s.dst.length + s.dstlen)
    (I := fun s' => s'.dst.length + s'.dstlen = s.dst.length + s.dstlen ∧ 0 < s'.dstlen)
    (fun s₁ b s₂ hs h => ?_) (fun s₁ r hs h hok => ?_) ⟨rfl, hroom⟩ hok
  · rcases nameRound_move h with ⟨-, -, -, hdst, hroom⟩ | ⟨-, -, -, -, htotal, hpos, -⟩
    · rw [hdst, hroom]
      exact hs
    · exact ⟨htotal.trans hs.1, hpos⟩
  · rw [nameRound_stop h hok]
    omega

/-- There are no more than 63 bytes between two dots. -/
theorem nameRounds_parts {s : NameCursor} {moves : List NameMove} {r : DnsNameRead}
    (h : Rounds nameRound s moves r) (hparts : PartsLe 63 s.dst) (hok : r.ok = true) :
    PartsLe 63 r.dst := by
  refine h.inv (Q := fun r => r.ok = true → PartsLe 63 r.dst) (I := fun s' => PartsLe 63 s'.dst)
    (fun s₁ b s₂ hs h => ?_) (fun s₁ r hs h hok => ?_) hparts hok
  · rcases nameRound_move h with ⟨-, -, -, hdst, -⟩ | ⟨-, -, -, -, -, -, hlabel⟩
    · rw [hdst]
      exact hs
    · exact hlabel hs
  · rw [nameRound_stop h hok]
    exact hs

/-- A text that has been read, as a C string. -/
structure TextRead (s : List UInt8) : Prop where
  noNul : (0 : UInt8) ∉ s
  short : s.length < dnsNameMax
  parts : PartsLe 63 s

/-- What `dns_unpack_name` reads. -/
theorem dnsUnpackName_textRead {dns : Dns} {src srclen : Int}
    (h : 0 < (dnsUnpackName dns src srclen dnsNameMax).2.1) :
    TextRead (cstr (dnsUnpackName dns src srclen dnsNameMax).2.2.1) := by
  obtain ⟨moves, r, hrounds, hloop⟩ := exists_nameRounds ⟨dns, 100, src, srclen, [], dnsNameMax, 0⟩
  cases hok : r.ok with
  | false =>
      rw [dnsUnpackName_failed hloop hok] at h
      exact absurd h (show ¬(0 : Int) < -1 by decide)
  | true =>
      rw [dnsUnpackName_ok hloop hok]
      have hroom := nameRounds_room hrounds (show (0 : Int) < dnsNameMax by decide) hok
      have hparts := nameRounds_parts hrounds (partsLe_of_length (Nat.zero_le _)) hok
      have hprefix : cstr (r.dst ++ [0]) <+: r.dst := by
        unfold cstr
        rw [List.takeWhile_append]
        split
        · rw [List.takeWhile_cons_of_neg (by decide), List.append_nil]
        · exact List.takeWhile_prefix _
      refine ⟨fun hzero => mem_cstr_ne hzero rfl, ?_, hparts.within hprefix.isInfix⟩
      have hle := hprefix.length_le
      simp only [List.length_nil] at hroom
      show (cstr (r.dst ++ [0])).length < dnsNameMax
      omega

/-- `dns_unpack_name` ends after finitely many rounds, of which at most 99 follow a pointer. When it
succeeds, it has written a text and its NUL to at most `dstlen` bytes, and returns their number. -/
theorem dnsUnpackName_ends (dns : Dns) (src srclen dstlen : Int) (hdstlen : 1 ≤ dstlen) :
    ∃ moves r, Rounds nameRound ⟨dns, 100, src, srclen, [], dstlen, 0⟩ moves r ∧
      dnsUnpackNameLoop dns 100 src srclen [] dstlen 0 = r ∧
      moves.count .pointer ≤ 99 ∧
      let (_, len, dst, _) := dnsUnpackName dns src srclen dstlen
      0 ≤ len → len = dst.length ∧ len ≤ dstlen ∧ ∃ text, dst = text ++ [0] := by
  obtain ⟨moves, r, hrounds, hloop⟩ := exists_nameRounds ⟨dns, 100, src, srclen, [], dstlen, 0⟩
  refine ⟨moves, r, hrounds, hloop, ?_, ?_⟩
  · refine hrounds.countP_le (· == .pointer) (fun s => (s.ptrMax - 1).toNat) fun s b s' h => ?_
    rcases nameRound_move h with ⟨rfl, hlt, heq, -, -⟩ | ⟨rfl, heq, -⟩
    · simp only [beq_self_eq_true, if_true]
      omega
    · rw [heq]
      exact Nat.le_refl _
  · have htext : r.ok = true → (r.dst.length : Int) < dstlen := fun hok => by
      simpa using nameRounds_room hrounds hdstlen hok
    cases hok : r.ok with
    | false =>
        rw [dnsUnpackName_failed hloop hok]
        exact fun hlen => absurd hlen (by decide)
    | true =>
        rw [dnsUnpackName_ok hloop hok]
        have hlt := htext hok
        refine fun _ => ⟨?_, ?_, r.dst, rfl⟩
        · show ((r.dst.length : Int) + 1) = ((r.dst ++ [0]).length : Int)
          rw [List.length_append]
          rfl
        · show ((r.dst.length : Int) + 1) ≤ dstlen
          omega

/-- A name of one label behind a pointer, and the message that it is in. -/
def pointedName : Dns :=
  (dnsInit (fun i => ([192, 2, 1, 97, 0] : List UInt8).getD i.toNat 0) 0 5).1

theorem dnsUnpackName_ends_pointedName :
    ∃ moves r, Rounds nameRound ⟨pointedName, 100, 0, 5, [], 2, 0⟩ moves r ∧
      dnsUnpackNameLoop pointedName 100 0 5 [] 2 0 = r ∧
      moves.count .pointer ≤ 99 ∧
      let (_, len, dst, _) := dnsUnpackName pointedName 0 5 2
      0 ≤ len → len = dst.length ∧ len ≤ 2 ∧ ∃ text, dst = text ++ [0] :=
  dnsUnpackName_ends pointedName 0 5 2 (by decide)

end Bklib
