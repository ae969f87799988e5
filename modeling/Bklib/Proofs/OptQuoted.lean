import Bklib.Lib.Span
import Bklib.Proofs.Opt

/-!
# `Bklib.Proofs.OptQuoted`: a quoted string is decoded again

The encoder writes `\0` for a NUL, so that the quoted text can be NUL-terminated. The decoder has no
rule for `\0` and takes it as the digit. All other bytes come back, wherever the decoded bytes go: in
front of the text, over it, or behind it.

* `optQuotedEnc_eq`: the text that is written for a string.
* `optQuotedDec_quoted`: what the decoder makes of that text.
* `optQuotedDec_optQuotedEnc_iff`: a string comes back if and only if it has no NUL.
-/

set_option autoImplicit false

namespace Bklib

open Lib

/-- The text of a string in quotes. -/
def optQuoted (s : List UInt8) : List UInt8 := 34 :: s.flatMap (optEncChar .c) ++ [34]

/-- What the decoder makes of an encoded character. -/
def optBackChar (ch : UInt8) : UInt8 := if ch = 0 then 48 else ch

/-- A character is escaped by one that stands for it, or written as it is. -/
theorem optEncChar_back (ch : UInt8) :
    (∃ e, optEncChar .c ch = [92, e] ∧ optUnescape e = optBackChar ch) ∨
      (optEncChar .c ch = [ch] ∧ ch ≠ 0 ∧ ch ≠ 34 ∧ ch ≠ 92 ∧ optBackChar ch = ch) := by
  by_cases h0 : ch = 0
  · subst h0
    exact Or.inl ⟨48, by decide, by decide⟩
  · have hback : optBackChar ch = ch := if_neg h0
    rw [hback]
    rcases optEncChar_cases h0 with ⟨e, he, hun⟩ | ⟨hplain, hquote, hslash⟩
    · exact Or.inl ⟨e, he, hun⟩
    · exact Or.inr ⟨hplain, h0, hquote, hslash, rfl⟩

/-- With room for the text, the encoder writes it. `more` is what stands behind the string. -/
theorem optQuotedEnc_eq (s more : List UInt8) {dstlen : Int}
    (hroom : (optQuoted s).length + 2 < dstlen) :
    optQuotedEnc (some (s ++ more)) s.length dstlen = .ok (optQuoted s) := by
  have hlen : (optQuoted s).length = (34 :: s.flatMap (optEncChar .c)).length + 1 := by
    rw [optQuoted, List.length_append, List.length_singleton]
  have hloop : optEncLoop .c (dstlen - 3) [34] s = 34 :: s.flatMap (optEncChar .c) :=
    optEncLoop_eq (by simp only [List.singleton_append]; omega)
  have hfit : ((34 :: s.flatMap (optEncChar .c)).length : Int) < dstlen - 3 := by omega
  have hpos : ¬(s.length : Int) < 0 := by omega
  simp only [optQuotedEnc, optQuotedEncStyle, optQuote, Option.getD_some, reduceCtorEq, if_false,
    if_neg hpos, Int.toNat_natCast, List.take_left, hloop, if_pos hfit]
  rfl

/-! ### The decoder, anywhere -/

/-- The decoder has written `out` from `start` on, and reads on at `line`, which ends at a NUL. The
place it writes at is not in what it has still to read. -/
structure OptInto (start size : Nat) (instr : Bool) (out line : List UInt8) (s : OptDec) : Prop where
  size_eq  : s.buf.length = size
  dst_eq   : s.dst = start + out.length
  written  : Span s.buf start out
  text     : Span s.buf s.src (line ++ [0])
  apart    : s.dst ≤ s.src ∨ s.src + line.length < s.dst
  instr_eq : s.instr = instr
  done_eq  : s.done = false
  ok       : s.fault = false

namespace OptInto

variable {start size : Nat} {stop : Int} {instr : Bool} {out line : List UInt8} {s : OptDec}
  {ch : UInt8}

theorem cur_cons (h : OptInto start size instr out (ch :: line) s) : s.cur = ch := by
  rw [OptDec.cur, List.getD_eq_getElem?_getD, h.text.head, Option.getD_some]

theorem cur_nil (h : OptInto start size instr out [] s) : s.cur = 0 := by
  rw [OptDec.cur, List.getD_eq_getElem?_getD, h.text.head, Option.getD_some]

/-- The loop goes on in front of a character, while there is room for one. -/
theorem stopped_eq_false (h : OptInto start size instr out (ch :: line) s) (hch : ch ≠ 0)
    (hroom : (start + out.length : Int) < stop) : optDecStopped stop s = false := by
  have hdst := h.dst_eq
  simp only [optDecStopped, h.cur_cons, h.done_eq, Bool.or_eq_false_iff, Bool.not_eq_false',
    decide_eq_true_eq, beq_eq_false_iff_ne, Bool.false_and, and_true]
  exact ⟨hch, by omega⟩

/-- Reading on, without a character written. -/
theorem skip (h : OptInto start size instr out (ch :: line) s) :
    OptInto start size instr out line (s.skip 1) := by
  have hlt := h.text.le_length
  have hapart := h.apart
  rw [List.length_cons] at hlt hapart
  refine ⟨h.size_eq, h.dst_eq, h.written, h.text.tail, ?_, h.instr_eq, h.done_eq, ?_⟩
  · show s.dst ≤ s.src + 1 ∨ s.src + 1 + line.length < s.dst
    omega
  · simp only [OptDec.skip, h.ok, Bool.false_or, decide_eq_false_iff_not]
    omega

/-- A character is written while one is read. -/
theorem put_skip (h : OptInto start size instr out (ch :: line) s) (hsize : s.dst < size)
    (ch' : UInt8) : OptInto start size instr (out ++ [ch']) line ((s.put ch').skip 1) := by
  have hlt := h.text.le_length
  have hapart := h.apart
  rw [List.length_cons] at hlt hapart
  refine ⟨?_, ?_, ?_, ?_, ?_, h.instr_eq, h.done_eq, ?_⟩
  · show (s.buf.set s.dst ch').length = size
    rw [List.length_set, h.size_eq]
  · show s.dst + 1 = _
    rw [h.dst_eq, List.length_append, List.length_singleton, Nat.add_assoc]
  · show Span (s.buf.set s.dst ch') start (out ++ [ch'])
    rw [h.dst_eq]
    exact h.written.snoc (by rw [← h.dst_eq, h.size_eq]; exact hsize) ch'
  · -- what is written lies in front of what is still to be read, or behind its end
    show Span (s.buf.set s.dst ch') (s.src + 1) (line ++ [0])
    have hout : s.dst < s.src + 1 ∨ s.src + 1 + (line ++ [0]).length ≤ s.dst := by
      rw [List.length_append, List.length_singleton]
      omega
    exact h.text.tail.set hout ch'
  · show s.dst + 1 ≤ s.src + 1 ∨ s.src + 1 + line.length < s.dst + 1
    omega
  · have hdst : s.dst < s.buf.length := by rwa [h.size_eq]
    simp only [OptDec.skip, OptDec.put, OptDec.store, List.length_set, h.ok, Bool.false_or,
      Bool.or_eq_false_iff, decide_eq_false_iff_not]
    omega

/-- An encoded character inside of a string. -/
theorem instr_char (h : OptInto start size true out (optEncChar .c ch ++ line) s)
    (hroom : (start + out.length : Int) < stop) (hsize : start + out.length < size) :
    optDecStopped stop s = false ∧
      OptInto start size true (out ++ [optBackChar ch]) line (optDecRound false s) := by
  have hround : optDecRound false s = optDecInstr false s := by
    rw [optDecRound, h.instr_eq, if_pos rfl]
  rw [hround]
  rcases optEncChar_back ch with ⟨e, he, hun⟩ | ⟨hplain, hnul, hquote, hslash, hback⟩
  · rw [he] at h
    have hnext : OptInto start size true out (e :: line) (s.skip 1) := h.skip
    refine ⟨h.stopped_eq_false (by decide) hroom, ?_⟩
    rw [optDecInstr, h.cur_cons, if_neg (by decide), if_pos (by decide)]
    simp only [hnext.cur_cons, hun]
    exact hnext.put_skip (by rw [hnext.dst_eq]; exact hsize) _
  · rw [hplain] at h
    refine ⟨h.stopped_eq_false hnul hroom, ?_⟩
    rw [optDecInstr, h.cur_cons, if_neg hquote, if_neg (by simp [hslash]), hback]
    exact h.put_skip (by rw [h.dst_eq]; exact hsize) ch

/-- A string up to its closing quote. -/
theorem reaches_string {w : List UInt8} (hroom : (start + out.length + w.length : Int) ≤ stop)
    (hsize : start + out.length + w.length < size)
    (h : OptInto start size true out (w.flatMap (optEncChar .c) ++ line) s) :
    ∃ t, Reaches (optDecRound false) (optDecStopped stop) s t ∧
      OptInto start size true (out ++ w.map optBackChar) line t := by
  induction w generalizing out s with
  | nil => exact ⟨s, Reaches.refl s, by simpa using h⟩
  | cons ch w ih =>
      rw [List.flatMap_cons, List.append_assoc] at h
      rw [List.length_cons] at hroom hsize
      obtain ⟨hgo, hnext⟩ := h.instr_char (show (start + out.length : Int) < stop by omega) (by omega)
      obtain ⟨t, hreach, ht⟩ := ih (by rw [List.length_append, List.length_singleton]; omega)
        (by rw [List.length_append, List.length_singleton]; omega) hnext
      exact ⟨t, hreach.cons hgo, by simpa using ht⟩

/-- The opening quote. -/
theorem open_quote (h : OptInto start size false out (34 :: line) s) :
    OptInto start size true out line (optDecRound false s) := by
  rw [optDecRound, h.instr_eq, if_neg (by simp), optDecPlain, h.cur_cons, if_neg (by decide),
    if_pos rfl]
  have hs : OptInto start size true out (34 :: line) { s with instr := true } :=
    { h with instr_eq := rfl }
  exact hs.skip

/-- The closing quote. -/
theorem close_quote (h : OptInto start size true out (34 :: line) s) :
    OptInto start size false out line (optDecRound false s) := by
  rw [optDecRound, h.instr_eq, if_pos rfl, optDecInstr, h.cur_cons, if_pos rfl]
  have hs : OptInto start size false out (34 :: line) { s with instr := false } :=
    { h with instr_eq := rfl }
  exact hs.skip

/-- The loop gets to a stop with all of the string written. Without room for a character behind the
string, the closing quote is not read. -/
theorem reaches_stop {w : List UInt8} (hroom : (start + w.length : Int) ≤ stop)
    (hsize : start + w.length < size) (h : OptInto start size false [] (optQuoted w) s) :
    ∃ t instr line, Reaches (optDecRound false) (optDecStopped stop) s t ∧
      optDecStopped stop t = true ∧ OptInto start size instr (w.map optBackChar) line t := by
  by_cases hstart : (start : Int) < stop
  · rw [optQuoted, List.cons_append] at h
    have hempty : (start + ([] : List UInt8).length : Int) < stop := by simpa using hstart
    have hgo := h.stopped_eq_false (by decide) hempty
    have hroom' : (start + ([] : List UInt8).length + w.length : Int) ≤ stop := by simpa using hroom
    obtain ⟨t, hreach, ht⟩ := h.open_quote.reaches_string hroom' (by simpa using hsize)
    have hopen := hreach.cons hgo
    have hdst := ht.dst_eq
    rw [List.nil_append] at ht hdst
    rw [List.length_map] at hdst
    by_cases hlast : (t.dst : Int) < stop
    · -- there is room behind, and the closing quote is read
      have hbehind : (start + (w.map optBackChar).length : Int) < stop := by
        rw [List.length_map]
        omega
      have hclose := ht.stopped_eq_false (by decide) hbehind
      have hend := ht.close_quote
      refine ⟨_, _, _, hopen.trans ((Reaches.refl _).cons hclose), ?_, hend⟩
      simp [optDecStopped, hend.cur_nil]
    · refine ⟨t, _, _, hopen, ?_, ht⟩
      simp [optDecStopped, hlast]
  · -- no room but for the terminator
    have hnil : w = [] := List.length_eq_zero_iff.mp (by omega)
    have hdst := h.dst_eq
    rw [List.length_nil, Nat.add_zero] at hdst
    refine ⟨s, _, _, Reaches.refl s, ?_, by rw [hnil]; exact h⟩
    simp [optDecStopped, hdst, hstart]

end OptInto

/-! ### The round trip -/

/-- A quoted text in a buffer, and a place for `n` bytes and a terminator that does not meet the text
or lies in front of where it is read. -/
structure QuotedIn (text buf : List UInt8) (src dst n : Nat) (len : Int) : Prop where
  span  : Span buf src (text ++ [0])
  apart : dst ≤ src ∨ src + text.length < dst
  fits  : n < len
  room  : dst + len ≤ buf.length

/-- A call has decoded `w`: it made no access outside, its result is the length of `w`, and `w` stands
at `dst` with a terminator. -/
structure DecodesTo (w : List UInt8) (dst : Nat) (r : OptDec × Int) : Prop where
  ok      : r.1.fault = false
  ret     : r.2 = w.length
  written : Span r.1.buf dst (w ++ [0])

/-- The decoder starts inside its buffer. -/
theorem optInto_start {s buf : List UInt8} {src dst : Nat} {len : Int}
    (h : QuotedIn (optQuoted s) buf src dst s.length len) :
    OptInto dst buf.length false [] (optQuoted s) (optDecStart buf src dst) := by
  have hspan := h.span
  have hlt := hspan.le_length
  rw [optQuoted, List.cons_append, List.cons_append] at hspan
  have hspn : OptDec.spn ⟨buf, src, dst, false, false, decide (buf.length ≤ src)⟩ = 0 := by
    have hdrop : buf.drop src = 34 :: buf.drop (src + 1) := by
      obtain ⟨hsrc, hget⟩ := List.getElem?_eq_some_iff.mp hspan.head
      rw [List.drop_eq_getElem_cons hsrc, hget]
    rw [OptDec.spn, hdrop, List.takeWhile_cons_of_neg (by decide)]
    rfl
  have hstart : optDecStart buf src dst = ⟨buf, src, dst, false, false, false⟩ := by
    simp only [optDecStart, hspn, OptDec.skip, Nat.add_zero, Bool.or_self, OptDec.mk.injEq, true_and,
      decide_eq_false_iff_not]
    omega
  rw [hstart]
  exact ⟨rfl, rfl, Span.nil _ _, h.span, h.apart, rfl, rfl, rfl⟩

/-- What the decoder makes of a quoted string. -/
theorem optQuotedDec_quoted {s buf : List UInt8} {src dst : Nat} {len : Int}
    (h : QuotedIn (optQuoted s) buf src dst s.length len) :
    DecodesTo (s.map optBackChar) dst (optQuotedDec buf src dst len false) := by
  have hfits := h.fits
  have hroom := h.room
  obtain ⟨t, instr, line, hreach, hstop, ht⟩ :=
    (optInto_start h).reaches_stop (show (dst + s.length : Int) ≤ dst + len - 1 by omega) (by omega)
  have hscan : scan (optDecRound false) (optDecStopped (dst + len - 1)) buf.length
      (optDecStart buf src dst) = t :=
    hreach.scan_eq hstop (optDec_ends _ _ (Nat.le_refl _))
  have hdst := ht.dst_eq
  have hsize := ht.size_eq
  rw [List.length_map] at hdst
  -- the string ends inside of the destination, so that its length is returned
  have hcall : optQuotedDec buf src dst len false = (t.store 0, (t.dst : Int) - dst) := by
    simp only [optQuotedDec, hscan]
    exact if_pos (by omega)
  rw [hcall]
  constructor
  · simp only [OptDec.store, ht.ok, Bool.false_or, decide_eq_false_iff_not]
    omega
  · show (t.dst : Int) - dst = (s.map optBackChar).length
    rw [List.length_map]
    omega
  · show Span (t.buf.set t.dst 0) dst _
    rw [ht.dst_eq]
    exact ht.written.snoc (by rw [List.length_map]; omega) 0

/-- A text comes back as it was unless it holds a zero. -/
theorem map_optBackChar_eq_iff (s : List UInt8) : s.map optBackChar = s ↔ 0 ∉ s := by
  have hchar (ch : UInt8) : optBackChar ch = ch ↔ ch ≠ 0 := by
    unfold optBackChar
    split
    next h0 => simp [h0]
    next h0 => simp [h0]
  calc s.map optBackChar = s ↔ s.map optBackChar = s.map id := by rw [List.map_id]
    _ ↔ ∀ ch ∈ s, ch ≠ 0 := by
        rw [List.map_inj_left]
        exact forall₂_congr fun ch _ => hchar ch
    _ ↔ 0 ∉ s := ⟨fun h h0 => h 0 h0 rfl, fun h ch hch h0 => h (h0 ▸ hch)⟩

/-- Of every string the encoder makes a text, and the decoder makes the string of that text if and
only if there is no NUL in it. -/
theorem optQuotedDec_optQuotedEnc_iff (s more : List UInt8) {dstlen : Int}
    (hroom : (optQuoted s).length + 2 < dstlen) :
    ∃ text, optQuotedEnc (some (s ++ more)) s.length dstlen = .ok text ∧
      ∀ (buf : List UInt8) (src dst : Nat) (len : Int), QuotedIn text buf src dst s.length len →
        (DecodesTo s dst (optQuotedDec buf src dst len false) ↔ 0 ∉ s) := by
  refine ⟨optQuoted s, optQuotedEnc_eq s more hroom, ?_⟩
  intro buf src dst len h
  have hdec := optQuotedDec_quoted h
  rw [← map_optBackChar_eq_iff]
  constructor
  · intro hs
    have hback := hdec.written.append_left.take_drop
    have hself := hs.written.append_left.take_drop
    rw [List.length_map] at hback
    exact hback.symm.trans hself
  · intro hback
    rwa [hback] at hdec

/-- A string with all kinds of escapes, decoded over its text. -/
theorem optQuotedDec_escapes :
    ∃ text, optQuotedEnc (some (bytes "a\n\"\\")) 4 20 = .ok text ∧
      DecodesTo (bytes "a\n\"\\") 0 (optQuotedDec (text ++ [0]) 0 0 10 false) := by
  obtain ⟨text, henc, hdec⟩ :=
    optQuotedDec_optQuotedEnc_iff (bytes "a\n\"\\") []
      (show ((optQuoted (bytes "a\n\"\\")).length : Int) + 2 < 20 by decide)
  have htext : text = bytes "\"a\\n\\\"\\\\\"" :=
    Except.ok.inj (henc.symm.trans (by decide))
  refine ⟨text, henc, (hdec _ 0 0 10 ?_).mpr (by decide)⟩
  rw [htext]
  exact ⟨Span.of_drop [] (by decide), Or.inl (Nat.le_refl 0), by decide, by decide⟩

/-- A NUL comes back as a digit. -/
theorem optQuotedDec_nul :
    optQuotedEnc (some [0]) 1 20 = .ok (bytes "\"\\0\"") ∧
    QuotedIn (bytes "\"\\0\"") (bytes "\"\\0\"" ++ [0]) 0 0 1 5 ∧
    ¬DecodesTo [0] 0 (optQuotedDec (bytes "\"\\0\"" ++ [0]) 0 0 5 false) := by
  refine ⟨by decide, ⟨Span.of_drop [] (by decide), Or.inl (Nat.le_refl 0), by decide,
    by decide⟩, fun h => ?_⟩
  exact absurd h.written.head (by decide)

end Bklib
