import Bklib.Proofs.Opt

/-!
# `Bklib.Proofs.OptInside`: splitting a command line in place

`optSpell` says of the text alone what the decoder makes of a word: how many bytes it writes, and what
it leaves. It reads nothing of a text that ends in a backslash, in an open string. As long as the decoder
writes behind what it has read, the text that is left is as it was, so that the buffer can be forgotten
(`optQuotedDec_spell`).

`OptSplits` puts the words of a line together. Every word is written with a NUL, and no blank need stand
behind the last one: the NUL of the last word, or the one after it, may be written behind the
terminator. `optStr2argv_inside_iff` says when `opt_str2argv` stays inside of the string and of `argv`.
-/

set_option autoImplicit false

namespace Bklib

open Lib

/-! ### Words of a text -/

/-- A text without the blanks in front. -/
def optTrim (t : List UInt8) : List UInt8 := t.dropWhile (· ∈ optWhitespace)

/-- What the decoder makes of a text, with room for some bytes: how many it writes, and what it leaves.
There is nothing behind a backslash that ends the text. -/
def optSpell : Bool → Nat → List UInt8 → Option (Nat × List UInt8)
  | _,     0,        t       => some (0, t)
  | _,     _ + 1,    []      => some (0, [])
  | false, room + 1, ch :: t =>
      if ch ∈ optWhitespace then some (0, optTrim (ch :: t))
      else if ch = 34 then optSpell true (room + 1) t
      else (optSpell false room t).map fun r => (r.1 + 1, r.2)
  | true,  room + 1, ch :: t =>
      if ch = 34 then optSpell false (room + 1) t
      else if ch = 92 then
        match t with
        | []     => none
        | _ :: t => (optSpell true room t).map fun r => (r.1 + 1, r.2)
      else (optSpell true room t).map fun r => (r.1 + 1, r.2)

theorem optSpell_close (room : Nat) (t : List UInt8) :
    optSpell true (room + 1) (34 :: t) = optSpell false (room + 1) t := by
  rw [optSpell.eq_def]
  rfl

theorem optSpell_string {ch : UInt8} (hquote : ch ≠ 34) (hslash : ch ≠ 92) (room : Nat)
    (t : List UInt8) :
    optSpell true (room + 1) (ch :: t) = (optSpell true room t).map fun r => (r.1 + 1, r.2) := by
  rw [optSpell.eq_def]
  exact (if_neg hquote).trans (if_neg hslash)

/-- What is left is the end of the text. -/
theorem optSpell_suffix {instr : Bool} {room n : Nat} {t rest : List UInt8}
    (h : optSpell instr room t = some (n, rest)) : rest <:+ t := by
  induction instr, room, t using optSpell.induct generalizing n with
  | case1 instr t =>
      rw [optSpell, Option.some.injEq, Prod.mk.injEq] at h
      rw [← h.2]
  | case2 instr room =>
      rw [optSpell, Option.some.injEq, Prod.mk.injEq] at h
      rw [← h.2]
  | case3 room ch t hblank =>
      rw [optSpell, if_pos hblank, Option.some.injEq, Prod.mk.injEq] at h
      rw [← h.2]
      -- blanks behind a word are dropped
      exact List.dropWhile_suffix _
  | case4 room t hblank ih =>
      rw [optSpell, if_neg hblank, if_pos rfl] at h
      exact (ih h).trans (List.suffix_cons _ _)
  | case5 room ch t hblank hquote ih =>
      rw [optSpell, if_neg hblank, if_neg hquote] at h
      obtain ⟨r, hr, heq⟩ := Option.map_eq_some_iff.mp h
      obtain rfl := (Prod.mk.inj heq).2
      exact (ih hr).trans (List.suffix_cons _ _)
  | case6 room t ih =>
      rw [optSpell_close] at h
      exact (ih h).trans (List.suffix_cons _ _)
  | case7 room hquote =>
      -- nothing is behind the backslash
      rw [optSpell, if_neg (by decide), if_pos rfl] at h
      exact absurd h (by simp)
  | case8 room ch t hquote ih =>
      rw [optSpell, if_neg (by decide), if_pos rfl] at h
      obtain ⟨r, hr, heq⟩ := Option.map_eq_some_iff.mp h
      obtain rfl := (Prod.mk.inj heq).2
      exact (ih hr).trans ((List.suffix_cons _ _).trans (List.suffix_cons _ _))
  | case9 room ch t hquote hslash ih =>
      rw [optSpell_string hquote hslash] at h
      obtain ⟨r, hr, heq⟩ := Option.map_eq_some_iff.mp h
      obtain rfl := (Prod.mk.inj heq).2
      exact (ih hr).trans (List.suffix_cons _ _)

/-! ### The decoder on a text -/

theorem optDecRound_fault (noslash : Bool) {d : OptDec} (h : d.fault = true) :
    (optDecRound noslash d).fault = true := by
  unfold optDecRound optDecInstr optDecPlain OptDec.put OptDec.store OptDec.skip
  split_ifs <;> simp [h]

theorem optDecRound_instr {d : OptDec} (h : d.instr = true) :
    optDecRound false d = optDecInstr false d := if_pos h

theorem optDecRound_plain {d : OptDec} (h : d.instr = false) : optDecRound false d = optDecPlain d :=
  if_neg (by simp [h])

/-- The decoder has come to the end of its loop: it has written `n` bytes, and `rest` is left. -/
structure OptSpelt (stop : Int) (d : OptDec) (n : Nat) (rest : List UInt8) (e : OptDec) : Prop where
  reaches : Reaches (optDecRound false) (optDecStopped stop) d e
  ends    : optDecStopped stop e = true
  reads   : OptReads [] e.instr e.done rest e
  dst_eq  : e.dst = d.dst + n
  room    : (e.dst : Int) ≤ stop

/-- The decoder does what the text says: it comes to its end, or it reads behind the terminator. -/
structure OptSpells (stop : Int) (d : OptDec) (r : Option (Nat × List UInt8)) : Prop where
  ends  : ∀ n rest, r = some (n, rest) → ∃ e, OptSpelt stop d n rest e
  fault : r = none → ∃ e, Reaches (optDecRound false) (optDecStopped stop) d e ∧ e.fault = true

section Spell

variable {t : List UInt8} {stop : Int} {d d' : OptDec} {ch : UInt8}

/-- The decoder has stopped. -/
theorem OptSpells.of_stopped {instr done : Bool} {rest : List UInt8} (h : OptReads [] instr done rest d)
    (hstop : optDecStopped stop d = true) (hroom : (d.dst : Int) ≤ stop) :
    OptSpells stop d (some (0, rest)) where
  ends  := fun n rest' hr => by
    obtain ⟨rfl, rfl⟩ := Prod.mk.inj (Option.some.inj hr)
    exact ⟨d, Reaches.refl d, hstop, by rw [h.instr_eq, h.done_eq]; exact h, rfl, hroom⟩
  fault := fun hr => absurd hr (by simp)

/-- A round without a byte written. -/
theorem OptSpells.skip {r : Option (Nat × List UInt8)} (h : OptSpells stop d' r)
    (hgo : optDecStopped stop d = false) (hround : optDecRound false d = d') (hdst : d'.dst = d.dst) :
    OptSpells stop d r := by
  subst hround
  refine ⟨fun n rest hr => ?_, fun hr => ?_⟩
  · obtain ⟨e, he⟩ := h.ends n rest hr
    exact ⟨e, he.reaches.cons hgo, he.ends, he.reads, by rw [he.dst_eq, hdst], he.room⟩
  · obtain ⟨e, hreach, hfault⟩ := h.fault hr
    exact ⟨e, hreach.cons hgo, hfault⟩

/-- A round that writes a byte. -/
theorem OptSpells.put {r : Option (Nat × List UInt8)} (h : OptSpells stop d' r)
    (hgo : optDecStopped stop d = false) (hround : optDecRound false d = d')
    (hdst : d'.dst = d.dst + 1) : OptSpells stop d (r.map fun r => (r.1 + 1, r.2)) := by
  subst hround
  refine ⟨fun n rest hr => ?_, fun hr => ?_⟩
  · obtain ⟨r', hr', heq⟩ := Option.map_eq_some_iff.mp hr
    obtain ⟨rfl, rfl⟩ := Prod.mk.inj heq
    obtain ⟨e, he⟩ := h.ends r'.1 r'.2 hr'
    refine ⟨e, he.reaches.cons hgo, he.ends, he.reads, ?_, he.room⟩
    rw [he.dst_eq, hdst]
    omega
  · obtain ⟨e, hreach, hfault⟩ := h.fault (Option.map_eq_none_iff.mp hr)
    exact ⟨e, hreach.cons hgo, hfault⟩

/-- From a text on, the decoder does what the text says. -/
theorem optDec_spells (instr : Bool) (room : Nat) (t : List UInt8) :
    ∀ d : OptDec, OptReads [] instr false t d → 0 ∉ t → stop - d.dst = room →
      OptSpells stop d (optSpell instr room t) := by
  induction instr, room, t using optSpell.induct with
  | case1 instr t =>
      intro d h _ hroom
      rw [optSpell]
      exact .of_stopped h (by simp [optDecStopped, show ¬(d.dst : Int) < stop by omega]) (by omega)
  | case2 instr room =>
      intro d h _ hroom
      rw [optSpell]
      exact .of_stopped h (by simp [optDecStopped, h.cur_nil]) (by omega)
  | case3 room ch t hblank =>
      intro d h h0 hroom
      have hgo : optDecStopped stop d = false :=
        h.stopped_eq_false (fun hch => h0 (by simp [hch])) (by omega)
      have hround : optDecRound false d = { d.skip d.spn with done := true } := by
        rw [optDecRound_plain h.instr_eq, optDecPlain, h.cur_cons, if_pos hblank]
      have hnext : OptReads [] false true (optTrim (ch :: t)) { d.skip d.spn with done := true } :=
        { h.skip_spn with done_eq := rfl }
      have hstop : optDecStopped stop { d.skip d.spn with done := true } = true := by
        have hinstr : (d.skip d.spn).instr = false := h.instr_eq
        simp [optDecStopped, hinstr]
      rw [optSpell, if_pos hblank]
      have hle : (d.dst : Int) ≤ stop := by omega
      exact (OptSpells.of_stopped hnext hstop hle).skip hgo hround rfl
  | case4 room t hblank ih =>
      intro d h h0 hroom
      have hgo : optDecStopped stop d = false := h.stopped_eq_false (by decide) (by omega)
      have hround : optDecRound false d = { d with instr := true }.skip 1 := by
        rw [optDecRound_plain h.instr_eq, optDecPlain, h.cur_cons, if_neg hblank, if_pos rfl]
      have hopen : OptReads [] true false (34 :: t) { d with instr := true } :=
        { h with instr_eq := rfl }
      have hnext : OptReads [] true false t ({ d with instr := true }.skip 1) := hopen.skip [34]
      rw [optSpell, if_neg hblank, if_pos rfl]
      exact (ih _ hnext (fun hmem => h0 (List.mem_cons_of_mem _ hmem)) hroom).skip hgo hround rfl
  | case5 room ch t hblank hquote ih =>
      intro d h h0 hroom
      have hgo : optDecStopped stop d = false :=
        h.stopped_eq_false (fun hch => h0 (by simp [hch])) (by omega)
      have hround : optDecRound false d = (d.put ch).skip 1 := by
        rw [optDecRound_plain h.instr_eq, optDecPlain, h.cur_cons, if_neg hblank, if_neg hquote]
      have hdst : ((d.put ch).skip 1).dst = d.dst + 1 := rfl
      have hnext : OptReads [] false false t ((d.put ch).skip 1) := h.put_skip
      rw [optSpell, if_neg hblank, if_neg hquote]
      exact (ih _ hnext (fun hmem => h0 (List.mem_cons_of_mem _ hmem)) (by omega)).put hgo hround hdst
  | case6 room t ih =>
      intro d h h0 hroom
      have hgo : optDecStopped stop d = false := h.stopped_eq_false (by decide) (by omega)
      have hround : optDecRound false d = { d with instr := false }.skip 1 := by
        rw [optDecRound_instr h.instr_eq, optDecInstr, h.cur_cons, if_pos rfl]
      have hclose : OptReads [] false false (34 :: t) { d with instr := false } :=
        { h with instr_eq := rfl }
      have hnext : OptReads [] false false t ({ d with instr := false }.skip 1) := hclose.skip [34]
      rw [optSpell_close]
      exact (ih _ hnext (fun hmem => h0 (List.mem_cons_of_mem _ hmem)) hroom).skip hgo hround rfl
  | case7 room hquote =>
      -- the character that is unescaped is the terminator, and the next one is behind it
      intro d h h0 hroom
      have hgo : optDecStopped stop d = false := h.stopped_eq_false (by decide) (by omega)
      have hsrc := h.src_eq
      have hround : (optDecRound false d).fault = true := by
        rw [optDecRound_instr h.instr_eq, optDecInstr, h.cur_cons, if_neg (by decide),
          if_pos (by decide)]
        simp only [OptDec.skip, OptDec.put, OptDec.store, List.length_set, Bool.or_eq_true,
          decide_eq_true_eq]
        simp only [List.length_singleton, List.length_nil] at hsrc
        right
        omega
      rw [optSpell, if_neg (by decide), if_pos rfl]
      exact ⟨fun n rest hr => absurd hr (by simp), fun _ => ⟨_, (Reaches.refl _).cons hgo, hround⟩⟩
  | case8 room ch t hquote ih =>
      intro d h h0 hroom
      have hgo : optDecStopped stop d = false := h.stopped_eq_false (by decide) (by omega)
      have hslash : OptReads [] true false (ch :: t) (d.skip 1) := h.skip [92]
      have hround : optDecRound false d = ((d.skip 1).put (optUnescape ch)).skip 1 := by
        rw [optDecRound_instr h.instr_eq, optDecInstr, h.cur_cons, if_neg (by decide),
          if_pos (by decide)]
        simp only [hslash.cur_cons]
      have hdst : (((d.skip 1).put (optUnescape ch)).skip 1).dst = d.dst + 1 := rfl
      have hnext : OptReads [] true false t (((d.skip 1).put (optUnescape ch)).skip 1) :=
        hslash.put_skip
      have hmem : 0 ∉ t := fun hmem => h0 (List.mem_cons_of_mem _ (List.mem_cons_of_mem _ hmem))
      rw [optSpell, if_neg (by decide), if_pos rfl]
      exact (ih _ hnext hmem (by omega)).put hgo hround hdst
  | case9 room ch t hquote hslash ih =>
      intro d h h0 hroom
      have hgo : optDecStopped stop d = false :=
        h.stopped_eq_false (fun hch => h0 (by simp [hch])) (by omega)
      have hround : optDecRound false d = (d.put ch).skip 1 := by
        rw [optDecRound_instr h.instr_eq, optDecInstr, h.cur_cons, if_neg hquote,
          if_neg (by simp [hslash])]
      have hdst : ((d.put ch).skip 1).dst = d.dst + 1 := rfl
      have hnext : OptReads [] true false t ((d.put ch).skip 1) := h.put_skip
      rw [optSpell_string hquote hslash]
      exact (ih _ hnext (fun hmem => h0 (List.mem_cons_of_mem _ hmem)) (by omega)).put hgo hround hdst

end Spell

/-! ### A call -/

section Call

variable {buf t rest : List UInt8} {src dst n : Nat} {len : Int}

/-- The decoder before its first round. -/
theorem optReads_start (htext : buf.drop src = t ++ [0]) (hle : dst ≤ src) :
    OptReads [] false false (optTrim t) (optDecStart buf src dst) := by
  have hlen := congrArg List.length htext
  rw [List.length_drop, List.length_append, List.length_singleton] at hlen
  have h : OptReads [] false false t ⟨buf, src, dst, false, false, decide (buf.length ≤ src)⟩ :=
    ⟨hle, htext, rfl, rfl, decide_eq_false (by omega)⟩
  exact h.skip_spn

/-- Without room for the terminator, nothing is read but blanks. -/
theorem optQuotedDec_noRoom (hlen : len ≤ 0) :
    optQuotedDec buf src dst len false = (optDecStart buf src dst, -1) := by
  have hdst : (optDecStart buf src dst).dst = dst := rfl
  have hstop : optDecStopped (dst + len - 1) (optDecStart buf src dst) = true := by
    simp [optDecStopped, hdst, show ¬(dst : Int) < dst + len - 1 by omega]
  simp only [optQuotedDec, scan_of_stopped hstop, hdst]
  exact if_neg (by omega)

/-- A call on a text spells it into what the room takes. -/
theorem optSpells_call (htext : buf.drop src = t ++ [0]) (hnul : 0 ∉ t) (hle : dst ≤ src)
    (hlen : 0 < len) :
    OptSpells (dst + len - 1) (optDecStart buf src dst)
      (optSpell false (len - 1).toNat (optTrim t)) := by
  have hdst : (optDecStart buf src dst).dst = dst := rfl
  refine optDec_spells _ _ _ _ (optReads_start htext hle) (fun h0 => ?_) (by omega)
  exact hnul ((List.dropWhile_sublist _).subset h0)

/-- A call that decodes a word. -/
theorem optQuotedDec_spell (htext : buf.drop src = t ++ [0]) (hnul : 0 ∉ t) (hle : dst ≤ src)
    (hlen : 0 < len) (hspell : optSpell false (len - 1).toNat (optTrim t) = some (n, rest)) :
    ∃ e : OptDec, optQuotedDec buf src dst len false = (e.store 0, (n : Int)) ∧
      OptReads [] e.instr e.done rest e ∧ e.dst = dst + n ∧ e.buf.length = buf.length := by
  obtain ⟨e, he⟩ := (optSpells_call htext hnul hle hlen).ends n rest hspell
  have hscan : scan (optDecRound false) (optDecStopped (dst + len - 1)) buf.length
      (optDecStart buf src dst) = e :=
    he.reaches.scan_eq he.ends (optDec_ends _ _ (Nat.le_refl _))
  have hsize : e.buf.length = buf.length := by
    have hstart : (optDecStart buf src dst).buf.length = buf.length := rfl
    rw [← hscan]
    exact scan_preserves (P := fun s => s.buf.length = buf.length)
      (fun s _ hs => (length_optDecRound false s).trans hs) _ hstart
  have hdst : e.dst = dst + n := he.dst_eq
  refine ⟨e, ?_, he.reads, hdst, hsize⟩
  simp only [optQuotedDec, hscan]
  rw [if_pos he.room, hdst, Prod.mk.injEq]
  exact ⟨rfl, by omega⟩

/-- A call that reads behind the terminator. -/
theorem optQuotedDec_fault (htext : buf.drop src = t ++ [0]) (hnul : 0 ∉ t) (hle : dst ≤ src)
    (hlen : 0 < len) (hspell : optSpell false (len - 1).toNat (optTrim t) = none) :
    (optQuotedDec buf src dst len false).1.fault = true := by
  obtain ⟨e, ⟨k, hk⟩, hfault⟩ := (optSpells_call htext hnul hle hlen).fault hspell
  have hscan : (scan (optDecRound false) (optDecStopped (dst + len - 1)) buf.length
      (optDecStart buf src dst)).fault = true := by
    -- the loop ends behind the fault, or it is where the fault is
    have hends : optDecStopped (dst + len - 1) (scan (optDecRound false)
        (optDecStopped (dst + len - 1)) buf.length (optDecStart buf src dst)) = true :=
      optDec_ends _ _ (Nat.le_refl _)
    rcases Nat.le_total k buf.length with hkl | hlk
    · obtain ⟨j, hj⟩ := Nat.exists_eq_add_of_le hkl
      rw [hj, scan_add, hk]
      exact scan_preserves (P := fun d : OptDec => d.fault = true)
        (fun d _ hd => optDecRound_fault false hd) j hfault
    · rw [← scan_of_le hends hlk, hk]
      exact hfault
  simp only [optQuotedDec]
  split
  · rw [OptDec.store, hscan, Bool.true_or]
  · exact hscan

end Call

/-! ### Lines -/

/-- The `int` that a call is given for what is left of the line, with its terminator. -/
def optLen (t : List UInt8) : Int := natToInt32 (t.length + 1)

/-- The results of the calls for a line, from a text on, when `gap` bytes lie between what is written
and what is read. -/
inductive OptSplits : Nat → List UInt8 → List Int → Prop
  | nil {gap : Nat} : OptSplits gap [] []
  /-- A word, and the text that is left is still there. -/
  | word {gap n : Nat} {t rest : List UInt8} {rs : List Int} :
      t ≠ [] → 0 < optLen t → optSpell false (optLen t - 1).toNat (optTrim t) = some (n, rest) →
      n < gap + (t.length - rest.length) →
      OptSplits (gap + (t.length - rest.length) - (n + 1)) rest rs → OptSplits gap t ((n : Int) :: rs)
  /-- A word whose NUL ends the line. -/
  | last {gap n : Nat} {t rest : List UInt8} :
      t ≠ [] → 0 < optLen t → optSpell false (optLen t - 1).toNat (optTrim t) = some (n, rest) →
      gap + (t.length - rest.length) ≤ n → OptSplits gap t [(n : Int)]
  /-- A length that is no `int`: blanks are skipped. -/
  | noRoom {gap : Nat} {t : List UInt8} {rs : List Int} :
      t ≠ [] → optLen t ≤ 0 → OptSplits (gap + (t.length - (optTrim t).length)) (optTrim t) rs →
      OptSplits gap t (-1 :: rs)

/-- `opt_str2argv` reads on at a text. -/
structure OptLineAt (size : Nat) (t : List UInt8) (s : OptArgv) : Prop where
  size_eq : s.buf.length = size
  text    : s.buf.drop s.str = t ++ [0]
  nul     : 0 ∉ t
  le      : s.dst ≤ s.str
  ok      : s.fault = false

section Line

variable {size argn n : Nat} {t rest : List UInt8} {s : OptArgv} {ch : UInt8}

namespace OptLineAt

theorem str_eq (h : OptLineAt size t s) : s.str + t.length + 1 = size := by
  have hlen := congrArg List.length h.text
  rw [List.length_drop, List.length_append, List.length_singleton, h.size_eq] at hlen
  omega

theorem len_eq (h : OptLineAt size t s) : natToInt32 (size - s.str) = optLen t := by
  have hstr := h.str_eq
  rw [optLen, show size - s.str = t.length + 1 by omega]

theorem stopped_nil (h : OptLineAt size [] s) : optArgvStopped size s = true := by
  have hcur : s.buf.getD s.str 0 = 0 := by
    rw [List.getD_eq_getElem?_getD, ← Nat.add_zero s.str, ← List.getElem?_drop, h.text]
    rfl
  simp only [optArgvStopped, hcur, beq_self_eq_true, Bool.true_or]

/-- A line with text left is not stopped. -/
theorem goes (h : OptLineAt size t s) (ht : t ≠ []) : optArgvStopped size s = false := by
  have hstr := h.str_eq
  obtain ⟨ch, r, rfl⟩ := List.exists_cons_of_ne_nil ht
  have hch : ch ≠ 0 := fun h0 => h.nul (by rw [h0]; exact List.mem_cons_self ..)
  have hcur : s.buf.getD s.str 0 = ch := by
    rw [List.getD_eq_getElem?_getD, ← Nat.add_zero s.str, ← List.getElem?_drop, h.text]
    rfl
  have hlt : s.str < size := by omega
  simp only [optArgvStopped, hcur, beq_eq_false_iff_ne.mpr hch, decide_eq_true hlt, Bool.not_true,
    Bool.or_self]

end OptLineAt

/-- A round that has no entry of `argv` left. -/
theorem optArgvRound_full (hargn : argn ≤ s.argv.length) : (optArgvRound argn size s).fault = true := by
  simp [optArgvRound, hargn]

theorem optArgvRound_fault (h : s.fault = true) : (optArgvRound argn size s).fault = true := by
  simp [optArgvRound, h]

theorem optArgvRound_argv : (optArgvRound argn size s).argv.length = s.argv.length + 1 := by
  simp [optArgvRound]

/-- A round without room for a terminator. -/
theorem OptLineAt.round_noRoom (h : OptLineAt size t s) (hlen : optLen t ≤ 0)
    (hargn : s.argv.length < argn) :
    OptLineAt size (optTrim t) (optArgvRound argn size s) ∧ (optArgvRound argn size s).dst = s.dst := by
  have hstart := optReads_start h.text h.le
  have hround : optArgvRound argn size s =
      { buf := s.buf, str := (optDecStart s.buf s.str s.dst).src, dst := s.dst
        argv := s.argv ++ [s.dst], fault := false } := by
    simp only [optArgvRound, h.len_eq, optQuotedDec_noRoom hlen, h.ok, hstart.ok,
      decide_eq_false (Nat.not_le.mpr hargn), Bool.or_self, OptArgv.mk.injEq, true_and, and_true]
    exact ⟨rfl, by omega⟩
  rw [hround]
  refine ⟨⟨h.size_eq, hstart.text, fun h0 => ?_, hstart.le, rfl⟩, rfl⟩
  exact h.nul ((List.dropWhile_sublist _).subset h0)

/-- A round that decodes a word: where the text that is left has not been written to, the line goes on
there, and otherwise it ends. -/
theorem OptLineAt.round_word (h : OptLineAt size t s) (hlen : 0 < optLen t)
    (hspell : optSpell false (optLen t - 1).toNat (optTrim t) = some (n, rest))
    (hargn : s.argv.length < argn) :
    (optArgvRound argn size s).dst = s.dst + n + 1 ∧ (optArgvRound argn size s).fault = false ∧
    s.dst + n + rest.length + 1 ≤ size ∧
    (s.dst + n + rest.length + 1 < size → OptLineAt size rest (optArgvRound argn size s)) ∧
    (s.dst + n + rest.length + 1 = size → optArgvStopped size (optArgvRound argn size s) = true) := by
  obtain ⟨e, hcall, hreads, hdst, hsize⟩ := optQuotedDec_spell h.text h.nul h.le hlen hspell
  have hsrc := hreads.src_eq
  have hle := hreads.le
  rw [hsize, h.size_eq, List.length_nil, Nat.add_zero] at hsrc
  have hlt : e.dst < e.buf.length := by
    rw [hsize, h.size_eq]
    omega
  have hround : optArgvRound argn size s =
      { buf := e.buf.set e.dst 0, str := e.src, dst := s.dst + n + 1
        argv := s.argv ++ [s.dst], fault := false } := by
    simp only [optArgvRound, h.len_eq, hcall, h.ok, decide_eq_false (Nat.not_le.mpr hargn),
      OptDec.store, hreads.ok, decide_eq_false (Nat.not_le.mpr hlt), Bool.or_self, OptArgv.mk.injEq,
      true_and, and_true]
    omega
  rw [hround]
  refine ⟨rfl, rfl, by omega, fun hbehind => ?_, fun hend => ?_⟩
  · refine ⟨?_, ?_, ?_, ?_, rfl⟩
    · show (e.buf.set e.dst 0).length = size
      rw [List.length_set, hsize, h.size_eq]
    · show (e.buf.set e.dst 0).drop e.src = rest ++ [0]
      rw [List.drop_set_of_lt (by omega), hreads.text]
    · exact fun h0 => h.nul (((optSpell_suffix hspell).trans (List.dropWhile_suffix _)).subset h0)
    · show s.dst + n + 1 ≤ e.src
      omega
  · -- the terminator of the word is what is read next
    have hsame : e.dst = e.src := by omega
    have hcur : (e.buf.set e.dst 0).getD e.src 0 = 0 := by
      rw [← hsame, List.getD_eq_getElem?_getD, List.getElem?_set_self hlt, Option.getD_some]
    simp only [optArgvStopped, hcur, beq_self_eq_true, Bool.true_or]

/-- A round that reads behind the terminator. -/
theorem OptLineAt.round_fault (h : OptLineAt size t s) (hlen : 0 < optLen t)
    (hspell : optSpell false (optLen t - 1).toNat (optTrim t) = none) :
    (optArgvRound argn size s).fault = true := by
  have hcall := optQuotedDec_fault h.text h.nul h.le hlen hspell
  simp [optArgvRound, h.len_eq, hcall]

theorem optTrim_length_le (t : List UInt8) : (optTrim t).length ≤ t.length :=
  (List.dropWhile_sublist _).length_le

/-- A line that splits into words, with an entry of `argv` for each of them, is split by the loop. -/
theorem optArgv_run {gap : Nat} {rs : List Int} (hsplits : OptSplits gap t rs) :
    ∀ s : OptArgv, OptLineAt size t s → s.dst + gap = s.str → s.argv.length + rs.length ≤ argn →
      optArgvStopped size (scan (optArgvRound argn size) (optArgvStopped size) rs.length s) = true ∧
      (scan (optArgvRound argn size) (optArgvStopped size) rs.length s).fault = false ∧
      ((scan (optArgvRound argn size) (optArgvStopped size) rs.length s).dst : Int) =
        s.dst + (rs.map (· + 1)).sum := by
  induction hsplits with
  | nil =>
      intro s h _ _
      exact ⟨h.stopped_nil, h.ok, by simp⟩
  | @word gap n t rest rs ht hlen hspell hbehind _ ih =>
      intro s h hgap hargn
      rw [List.length_cons] at hargn ⊢
      obtain ⟨hdst, -, -, hnext, -⟩ := h.round_word hlen hspell (show s.argv.length < argn by omega)
      have hstr := h.str_eq
      have hrest := (optSpell_suffix hspell).length_le
      have htrim := optTrim_length_le t
      have hline := hnext (by omega)
      have hstr' := hline.str_eq
      obtain ⟨hstop, hok, hsum⟩ := ih _ hline (by omega) (by rw [optArgvRound_argv]; omega)
      rw [scan_succ _ (h.goes ht)]
      refine ⟨hstop, hok, ?_⟩
      rw [hsum, hdst, List.map_cons, List.sum_cons]
      omega
  | @last gap n t rest ht hlen hspell hend =>
      intro s h hgap hargn
      rw [List.length_singleton] at hargn ⊢
      obtain ⟨hdst, hok, hle, -, hstop⟩ :=
        h.round_word hlen hspell (show s.argv.length < argn by omega)
      have hstr := h.str_eq
      have hrest := (optSpell_suffix hspell).length_le
      have htrim := optTrim_length_le t
      -- the word ends behind the text, and the loop with it
      rw [scan_succ _ (h.goes ht), scan_zero]
      refine ⟨hstop (by omega), hok, ?_⟩
      rw [hdst, List.map_cons, List.map_nil, List.sum_cons, List.sum_nil]
      omega
  | @noRoom gap t rs ht hlen _ ih =>
      intro s h hgap hargn
      rw [List.length_cons] at hargn ⊢
      -- without room, the word is -1 long, and `dst` stays
      obtain ⟨hline, hdst⟩ := h.round_noRoom hlen (show s.argv.length < argn by omega)
      have hstr := h.str_eq
      have hstr' := hline.str_eq
      have htrim := optTrim_length_le t
      obtain ⟨hstop, hok, hsum⟩ := ih _ hline (by omega) (by rw [optArgvRound_argv]; omega)
      rw [scan_succ _ (h.goes ht)]
      refine ⟨hstop, hok, ?_⟩
      rw [hsum, hdst, List.map_cons, List.sum_cons]
      omega

/-- Where no round of the loop goes wrong, the line splits into words. Every round takes an entry of
`argv`, so that there are no more of them than entries left. -/
theorem optSplits_of_run (m : Nat) :
    ∀ {t : List UInt8} {s : OptArgv} {gap : Nat}, OptLineAt size t s → s.dst + gap = s.str →
      s.argv.length + m = argn →
      (∀ k, (scan (optArgvRound argn size) (optArgvStopped size) k s).fault = false) →
      ∃ rs, OptSplits gap t rs ∧ rs.length ≤ m := by
  induction m with
  | zero =>
      intro t s gap h _ hargn hok
      by_cases ht : t = []
      · subst ht
        exact ⟨[], .nil, Nat.le_refl 0⟩
      · -- with `argv` full, the next entry is written behind it
        have hfault := hok 1
        rw [scan_succ 0 (h.goes ht), scan_zero, optArgvRound_full (by omega)] at hfault
        exact absurd hfault (by decide)
  | succ m ih =>
      intro t s gap h hgap hargn hok
      by_cases ht : t = []
      · subst ht
        exact ⟨[], .nil, Nat.zero_le _⟩
      have hrest (k : Nat) : (scan (optArgvRound argn size) (optArgvStopped size) k
          (optArgvRound argn size s)).fault = false := by
        rw [← scan_succ k (h.goes ht)]
        exact hok (k + 1)
      have hstr := h.str_eq
      have htrim := optTrim_length_le t
      have hargv : (optArgvRound argn size s).argv.length + m = argn := by
        rw [optArgvRound_argv]
        omega
      by_cases hlen : 0 < optLen t
      · cases hspell : optSpell false (optLen t - 1).toNat (optTrim t) with
        | none =>
            have hfault : (optArgvRound argn size s).fault = true := h.round_fault hlen hspell
            exact absurd (hfault.symm.trans (hrest 0)) (by decide)
        | some r =>
            obtain ⟨n, rest⟩ := r
            have hsuffix := (optSpell_suffix hspell).length_le
            obtain ⟨hdst, -, hle, hnext, -⟩ :=
              h.round_word hlen hspell (show s.argv.length < argn by omega)
            -- `dst` stays behind what is read, or the word was the last one
            by_cases hbehind : n < gap + (t.length - rest.length)
            · have hline := hnext (by omega)
              have hstr' := hline.str_eq
              have hgap' : (optArgvRound argn size s).dst + (gap + (t.length - rest.length) - (n + 1)) =
                  (optArgvRound argn size s).str := by omega
              obtain ⟨rs, hsplits, hrs⟩ := ih hline hgap' hargv hrest
              exact ⟨(n : Int) :: rs, .word ht hlen hspell hbehind hsplits, Nat.succ_le_succ hrs⟩
            · exact ⟨[(n : Int)], .last ht hlen hspell (by omega), Nat.succ_le_succ (Nat.zero_le m)⟩
      · obtain ⟨hline, hdst⟩ := h.round_noRoom (Int.not_lt.mp hlen) (show s.argv.length < argn by omega)
        have hstr' := hline.str_eq
        have hgap' : (optArgvRound argn size s).dst + (gap + (t.length - (optTrim t).length)) =
            (optArgvRound argn size s).str := by omega
        obtain ⟨rs, hsplits, hrs⟩ := ih hline hgap' hargv hrest
        exact ⟨-1 :: rs, .noRoom ht (Int.not_lt.mp hlen) hsplits, Nat.succ_le_succ hrs⟩

end Line

/-! ### Every string -/

/-- `opt_str2argv` of a string, before its loop. -/
def optArgvStart (s : List UInt8) : OptArgv := ⟨s ++ [0], 0, 0, [], false⟩

theorem optLineAt_start {s : List UInt8} (hnul : 0 ∉ s) :
    OptLineAt (s.length + 1) s (optArgvStart s) :=
  ⟨List.length_append, rfl, hnul, Nat.le_refl 0, rfl⟩

/-- The loop of `opt_str2argv` for a string, after some rounds. -/
def optArgvAfter (s : List UInt8) (argn n : Nat) : OptArgv :=
  scan (optArgvRound argn (s.length + 1)) (optArgvStopped (s.length + 1)) n (optArgvStart s)

/-- `opt_str2argv` stays inside of the string and of `argv`: in every round, and with the terminator
that it writes behind its loop. -/
structure OptSplitInside (s : List UInt8) (argn : Nat) : Prop where
  rounds : ∀ n, (optArgvAfter s argn n).fault = false
  last   : ∀ n, optArgvStopped (s.length + 1) (optArgvAfter s argn n) = true →
    (optArgvAfter s argn n).dst ≤ s.length

/-- In every round, and with its last terminator, `opt_str2argv` stays inside of the string and of
`argv`, if and only if the string splits into words, there is an entry for each of them, and they have
room in the string with a terminator behind each. -/
theorem optStr2argv_inside_iff {s : List UInt8} (hnul : 0 ∉ s) (argn : Nat) :
    OptSplitInside s argn ↔
      ∃ rs, OptSplits 0 s rs ∧ rs.length ≤ argn ∧ (rs.map (· + 1)).sum ≤ (s.length : Int) := by
  have hstart := optLineAt_start hnul
  have hgap : (optArgvStart s).dst + 0 = (optArgvStart s).str := rfl
  have hargv : (optArgvStart s).argv.length = 0 := rfl
  have hdst : (optArgvStart s).dst = 0 := rfl
  constructor
  · intro h
    obtain ⟨rs, hsplits, hrs⟩ := optSplits_of_run argn hstart hgap (Nat.zero_add _) h.rounds
    obtain ⟨hstop, -, hsum⟩ := optArgv_run hsplits _ hstart hgap
      (show (optArgvStart s).argv.length + rs.length ≤ argn by omega)
    have hlast := h.last rs.length hstop
    refine ⟨rs, hsplits, hrs, ?_⟩
    rw [optArgvAfter] at hlast
    omega
  · rintro ⟨rs, hsplits, hrs, hroom⟩
    obtain ⟨hstop, hok, hsum⟩ := optArgv_run hsplits _ hstart hgap
      (show (optArgvStart s).argv.length + rs.length ≤ argn by omega)
    -- the loop is at its end after a round for each word, and a fault would still be there
    have hend (n : Nat) (hn : optArgvStopped (s.length + 1) (optArgvAfter s argn n) = true) :
        optArgvAfter s argn n = optArgvAfter s argn rs.length := by
      rcases Nat.le_total n rs.length with hle | hle
      · exact (scan_of_le hn hle).symm
      · exact scan_of_le hstop hle
    refine ⟨fun n => ?_, fun n hn => ?_⟩
    · by_contra hfault
      rw [Bool.not_eq_false] at hfault
      rcases Nat.le_total n rs.length with hle | hle
      · obtain ⟨k, hk⟩ := Nat.exists_eq_add_of_le hle
        have hkeep : (optArgvAfter s argn rs.length).fault = true := by
          rw [optArgvAfter, hk, scan_add]
          exact scan_preserves (P := fun t : OptArgv => t.fault = true)
            (fun t _ ht => optArgvRound_fault ht) k hfault
        exact Bool.false_ne_true (hok.symm.trans hkeep)
      · have hsame : optArgvAfter s argn n = optArgvAfter s argn rs.length := scan_of_le hstop hle
        rw [hsame] at hfault
        exact Bool.false_ne_true (hok.symm.trans hfault)
    · rw [hend n hn, optArgvAfter]
      omega

/-- A round of the decoder goes forward. -/
theorem optDecRound_dst_le (d : OptDec) : d.dst ≤ (optDecRound false d).dst := by
  unfold optDecRound optDecInstr optDecPlain
  split_ifs
  · exact Nat.le_refl d.dst
  · exact Nat.le_succ d.dst
  · exact Nat.le_succ d.dst
  · exact Nat.le_refl d.dst
  · exact Nat.le_refl d.dst
  · exact Nat.le_succ d.dst

/-- What is written grows with the rounds. -/
theorem optArgvRound_dst_le (argn size : Nat) (s : OptArgv) :
    s.dst ≤ (optArgvRound argn size s).dst := by
  have hret : -1 ≤ (optQuotedDec s.buf s.str s.dst (natToInt32 (size - s.str)) false).2 := by
    have hle : s.dst ≤ (scan (optDecRound false)
        (optDecStopped (s.dst + natToInt32 (size - s.str) - 1)) s.buf.length
        (optDecStart s.buf s.str s.dst)).dst :=
      scan_preserves (P := fun d : OptDec => s.dst ≤ d.dst)
        (fun d _ hd => Nat.le_trans hd (optDecRound_dst_le d)) _ (Nat.le_refl s.dst)
    unfold optQuotedDec
    dsimp only
    split
    · dsimp only
      omega
    · exact Int.le_refl _
  unfold optArgvRound
  dsimp only
  omega

/-- `opt_str2argv` has no fault then. -/
theorem OptSplitInside.optStr2argv_ok {s : List UInt8} {argn : Nat} (hnul : 0 ∉ s)
    (h : OptSplitInside s argn) : (optStr2argv (s ++ [0]) argn).fault = false := by
  have hgap : (optArgvStart s).dst + 0 = (optArgvStart s).str := rfl
  obtain ⟨rs, hsplits, hrs⟩ :=
    optSplits_of_run argn (optLineAt_start hnul) hgap (Nat.zero_add _) h.rounds
  obtain ⟨hstop, -, -⟩ := optArgv_run hsplits _ (optLineAt_start hnul) hgap
    (show (optArgvStart s).argv.length + rs.length ≤ argn from (Nat.zero_add _).trans_le hrs)
  have hok := h.rounds (s ++ [0]).length
  -- what is written by then is written at the end of the loop
  have hgrow : (optArgvAfter s argn (s ++ [0]).length).dst ≤
      (optArgvAfter s argn (rs.length + (s ++ [0]).length)).dst := by
    rw [Nat.add_comm, optArgvAfter, optArgvAfter, scan_add]
    generalize scan (optArgvRound argn (s.length + 1)) (optArgvStopped (s.length + 1))
      (s ++ [0]).length (optArgvStart s) = t
    exact scan_preserves (P := fun u : OptArgv => t.dst ≤ u.dst)
      (fun u _ hu => Nat.le_trans hu (optArgvRound_dst_le _ _ u)) _ (Nat.le_refl _)
  have hend : optArgvAfter s argn (rs.length + (s ++ [0]).length) = optArgvAfter s argn rs.length :=
    scan_of_le hstop (Nat.le_add_right _ _)
  have hlast := h.last rs.length hstop
  have hcstr : cstr (s ++ [0]) = s := cstr_append_nul hnul []
  have hnil : (s ++ [0] == []) = false := by simp
  have hloop : scan (optArgvRound argn (s.length + 1)) (optArgvStopped (s.length + 1))
      (s ++ [0]).length ⟨s ++ [0], 0, 0, [], false⟩ = optArgvAfter s argn (s ++ [0]).length := rfl
  have hsize : (optArgvAfter s argn (s ++ [0]).length).buf.length = s.length + 1 :=
    scan_preserves (P := fun u : OptArgv => u.buf.length = s.length + 1)
      (fun u _ hu => (length_optQuotedDec _ _ _ _ _).trans hu) _ List.length_append
  rw [hend] at hgrow
  simp only [optStr2argv, hcstr, hnil, hloop, hok, Bool.false_or, decide_eq_false_iff_not, hsize]
  omega

/-- Two words and a blank behind them. -/
theorem optStr2argv_inside_words : OptSplitInside (bytes "a \"b\" ") 2 := by
  have hfirst : optSpell false (optLen (bytes "a \"b\" ") - 1).toNat (optTrim (bytes "a \"b\" ")) =
      some (1, bytes "\"b\" ") := by decide
  have hsecond : optSpell false (optLen (bytes "\"b\" ") - 1).toNat (optTrim (bytes "\"b\" ")) =
      some (1, []) := by decide
  have hsplits : OptSplits 0 (bytes "a \"b\" ") [1, 1] :=
    .word (by decide) (by decide) hfirst (by decide)
      (.word (by decide) (by decide) hsecond (by decide) .nil)
  exact (optStr2argv_inside_iff (by decide) 2).mpr ⟨[1, 1], hsplits, by decide, by decide⟩

/-- A word without a blank behind it, a word too many, and a backslash at the end. -/
theorem optStr2argv_outside :
    ¬OptSplitInside (bytes "a") 2 ∧ ¬OptSplitInside (bytes "a b ") 1 ∧
      ¬OptSplitInside (bytes "\"\\") 1 := by
  refine ⟨fun h => ?_, fun h => ?_, fun h => ?_⟩
  · exact absurd (h.last 1 (by decide)) (by decide)
  · exact absurd (h.rounds 2) (by decide)
  · exact absurd (h.rounds 1) (by decide)

end Bklib
