import Bklib.Model.Opt

/-!
# `Bklib.Proofs.Opt`: argument lines come back

`OptAt stop behind instr done out line s` says where the decoder stands: it has written `out` from the
start of the buffer, and reads on at `line`, which ends at a NUL. There is one lemma for each kind of
round (`OptAt.instr_char`, `OptAt.plain_char`, `OptAt.open_quote`, `OptAt.close_quote`,
`OptAt.blank`); together they decode a word (`optQuotedDec_word`). The line that `optCat` writes for
a list is `optWords` of it, and what `optStr2argv` makes of such a line is the list without its empty
strings (`optStr2argv_optWords`).
-/

set_option autoImplicit false

namespace Bklib

open Lib

/-! ## What is encoded -/

theorem mem_optWhitespace {ch : UInt8} :
    ch ∈ optWhitespace ↔ ch = 32 ∨ ch = 9 ∨ ch = 13 ∨ ch = 10 := by
  have h : optWhitespace = [32, 9, 13, 10] := by decide
  simp [h]

/-- Quoted are the blanks, the backslash and the quote. -/
theorem mem_optQuotedChars {ch : UInt8} :
    ch ∈ optQuotedChars ↔ ch ∈ optWhitespace ∨ ch = 92 ∨ ch = 34 := by
  have h : optQuotedChars = [32, 10, 13, 9, 92, 34] := by decide
  rw [mem_optWhitespace, h]
  simp only [List.mem_cons, List.not_mem_nil, or_false]
  tauto

/-- An argument as it stands on the line. -/
def optWord (w : List UInt8) : List UInt8 :=
  if optNeedsQuote (some w) then 34 :: w.flatMap (optEncChar .c) ++ [34] else w

/-- The line after an argument. -/
def optTail (args : List (List UInt8)) : List UInt8 := args.flatMap (fun w => 32 :: optWord w) ++ [10]

/-- The line of a list of arguments. Nothing separates the first nonempty one from those before. -/
def optWords : List (List UInt8) → List UInt8
  | []        => [10]
  | [] :: args => optWords args
  | w :: args => optWord w ++ optTail args

/-- A character is escaped by one that the decoder maps back to it, or written as it is. -/
theorem optEncChar_cases {ch : UInt8} (hch : ch ≠ 0) :
    (∃ e, optEncChar .c ch = [92, e] ∧ optUnescape e = ch) ∨
      (optEncChar .c ch = [ch] ∧ ch ≠ 34 ∧ ch ≠ 92) := by
  unfold optEncChar
  by_cases h10 : ch = 10
  · exact Or.inl ⟨110, by rw [if_pos h10]; decide, h10.symm⟩
  by_cases h13 : ch = 13
  · exact Or.inl ⟨114, by rw [if_neg h10, if_pos h13]; decide, h13.symm⟩
  by_cases h9 : ch = 9
  · exact Or.inl ⟨116, by rw [if_neg h10, if_neg h13, if_pos h9]; decide, h9.symm⟩
  rw [if_neg h10, if_neg h13, if_neg h9, if_neg hch]
  by_cases h92 : ch = 92
  · exact Or.inl ⟨92, by rw [if_pos h92]; decide, h92.symm⟩
  rw [if_neg h92]
  by_cases h34 : ch = 34
  · exact Or.inl ⟨ch, if_pos h34, by rw [h34]; decide⟩
  · exact Or.inr ⟨if_neg h34, h34, h92⟩

theorem length_optEncChar_le (ch : UInt8) : (optEncChar .c ch).length ≤ 2 := by
  unfold optEncChar
  split_ifs <;> simp [bytes]

/-- Encoding doubles a word at most. -/
theorem length_flatMap_optEncChar_le (w : List UInt8) :
    (w.flatMap (optEncChar .c)).length ≤ 2 * w.length := by
  induction w with
  | nil => simp
  | cons ch w ih =>
      have hch := length_optEncChar_le ch
      rw [List.flatMap_cons, List.length_append, List.length_cons]
      omega

/-- A word takes twice its length at most, and its quotes. -/
theorem length_optWord_le (w : List UInt8) : (optWord w).length ≤ 2 * w.length + 2 := by
  have h := length_flatMap_optEncChar_le w
  unfold optWord
  split
  · simp only [List.cons_append, List.length_cons, List.length_append, List.length_nil]
    omega
  · omega

/-- With room for everything, the loop of the encoder encodes everything. -/
theorem optEncLoop_eq {stop : Int} {out src : List UInt8}
    (h : ((out ++ src.flatMap (optEncChar .c)).length : Int) < stop) :
    optEncLoop .c stop out src = out ++ src.flatMap (optEncChar .c) := by
  induction src generalizing out with
  | nil => simp [optEncLoop]
  | cons ch src ih =>
      have hout : (out.length : Int) < stop := by
        rw [List.length_append] at h
        omega
      rw [optEncLoop, if_pos hout, ih (by simpa using h)]
      simp

/-- An argument that has room is written as its word. -/
theorem optCatArg_str {w : List UInt8} (hnul : 0 ∉ w) (nout : Int)
    (hroom : 2 * w.length + 6 ≤ nout) (hint : nout < 2 ^ 31) :
    optCatArg nout (.str w) = .ok (optWord w) := by
  have henc := length_flatMap_optEncChar_le w
  simp only [optCatArg, cstr_eq_self hnul]
  cases hq : optNeedsQuote (some w) with
  | false =>
      rw [if_neg (by simp), List.take_of_length_le (by omega), optWord, hq, if_neg (by simp)]
  | true =>
      have hlen : natToInt32 w.length = w.length := natToInt32_eq_self (by omega)
      have hloop : optEncLoop .c (nout - 3) [34] w = [34] ++ w.flatMap (optEncChar .c) :=
        optEncLoop_eq (by simp only [List.length_append, List.length_cons, List.length_nil]; omega)
      have hfit : ((34 :: w.flatMap (optEncChar .c)).length : Int) < nout - 3 := by
        simp only [List.length_cons]
        omega
      simp only [if_true, optQuotedEnc, optQuotedEncStyle, optQuote, Option.getD_some, reduceCtorEq,
        if_false, Int.reduceLT, Int.reduceNeg, cstr_eq_self hnul, hlen, Int.toNat_natCast,
        List.take_length, hloop, List.cons_append, List.nil_append, if_pos hfit]
      rw [optWord, hq, if_pos rfl]
      rfl

/-- Room for a list of arguments on a line. -/
def optRoom (args : List (List UInt8)) : Nat := (args.map fun w => 2 * w.length + 6).sum + 2

theorem optRoom_cons (w : List UInt8) (args : List (List UInt8)) :
    optRoom (w :: args) = 2 * w.length + 6 + optRoom args := by
  simp [optRoom, Nat.add_assoc]

theorem two_le_optRoom (args : List (List UInt8)) : 2 ≤ optRoom args := Nat.le_add_left 2 _

/-- One argument on the line, with room for the rest. -/
theorem optCatLoop_cons {w : List UInt8} (hnul : 0 ∉ w) {args : List (List UInt8)} {nout : Int}
    (hroom : optRoom (w :: args) ≤ nout) (hint : nout < 2 ^ 31) (out : List UInt8) :
    ∃ nout' : Int, optRoom args ≤ nout' ∧ nout' < 2 ^ 31 ∧
      optCatLoop ((w :: args).map .str) out nout
        = optCatLoop (args.map .str) (out ++ (if out = [] then [] else [32]) ++ optWord w) nout' := by
  have hlen := length_optWord_le w
  have hrest := two_le_optRoom args
  have hblank : (if out = [] then [] else [(32 : UInt8)]).length ≤ 1 := by split <;> simp
  rw [optRoom_cons] at hroom
  generalize hb : (if out = [] then [] else [(32 : UInt8)]) = blank at hblank ⊢
  have hw := optCatArg_str hnul (nout - blank.length) (by omega) (by omega)
  refine ⟨nout - blank.length - (optWord w).length, by omega, by omega, ?_⟩
  have hlt : ¬nout < 2 := by omega
  simp only [List.map_cons, optCatLoop, if_neg hlt, hb, hw]

/-- The loop of `opt_cat` once something stands on the line. -/
theorem optCatLoop_tail {args : List (List UInt8)} (hnul : ∀ w ∈ args, 0 ∉ w) {out : List UInt8}
    (hout : out ≠ []) {nout : Int} (hroom : optRoom args ≤ nout) (hint : nout < 2 ^ 31) :
    ∃ nout' : Int, 2 ≤ nout' ∧ optCatLoop (args.map .str) out nout
      = some (out ++ args.flatMap (fun w => 32 :: optWord w), nout') := by
  induction args generalizing out nout with
  | nil => exact ⟨nout, hroom, by simp [optCatLoop]⟩
  | cons w args ih =>
      obtain ⟨nout', hroom', hint', hstep⟩ := optCatLoop_cons (hnul w (by simp)) hroom hint out
      rw [if_neg hout] at hstep
      obtain ⟨n, hn, hrest⟩ := ih (fun v hv => hnul v (List.mem_cons_of_mem _ hv))
        (List.append_ne_nil_of_left_ne_nil (List.append_ne_nil_of_left_ne_nil hout _) _)
        hroom' hint'
      exact ⟨n, hn, by rw [hstep, hrest]; simp⟩

theorem optWord_ne_nil {w : List UInt8} (h : w ≠ []) : optWord w ≠ [] := by
  unfold optWord
  split <;> simp [h]

/-- The line that `opt_cat` makes of a list, in a buffer with room for it. -/
theorem optCat_eq {args : List (List UInt8)} (hnul : ∀ w ∈ args, 0 ∉ w) {len : Int}
    (hroom : optRoom args ≤ len) (hint : len < 2 ^ 31) :
    optCat len (args.map .str) = some (optWords args) := by
  suffices h : ∃ n : Int, 2 ≤ n ∧ ∃ out, optCatLoop (args.map .str) [] len = some (out, n) ∧
      out ++ [10] = optWords args by
    obtain ⟨n, hn, out, hloop, hline⟩ := h
    rw [optCat, hloop]
    exact (if_neg (by omega)).trans (congrArg some hline)
  induction args generalizing len with
  | nil => exact ⟨len, hroom, [], rfl, rfl⟩
  | cons w args ih =>
      have hnul' : ∀ v ∈ args, 0 ∉ v := fun v hv => hnul v (List.mem_cons_of_mem _ hv)
      obtain ⟨nout, hroom', hint', hstep⟩ := optCatLoop_cons (hnul w (by simp)) hroom hint []
      cases w with
      | nil =>
          -- nothing is written, so the next argument is the first one again
          obtain ⟨n, hn, out, hloop, hline⟩ := ih hnul' hroom' hint'
          exact ⟨n, hn, out, by rw [hstep]; exact hloop, hline⟩
      | cons ch w =>
          obtain ⟨n, hn, hloop⟩ := optCatLoop_tail hnul' (optWord_ne_nil (w := ch :: w) (by simp))
            hroom' hint'
          refine ⟨n, hn, _, hstep.trans hloop, ?_⟩
          simp [optWords, optTail]

/-! ## What is decoded -/

/-- The text from the next character on, where there is one. -/
theorem OptDec.drop_of_cur {s : OptDec} (h : s.cur ≠ 0) :
    s.src < s.buf.length ∧ s.buf.drop s.src = s.cur :: s.buf.drop (s.src + 1) := by
  have hlt : s.src < s.buf.length := by
    by_contra hge
    refine h ?_
    rw [OptDec.cur, List.getD_eq_getElem?_getD, List.getElem?_eq_none (by omega)]
    rfl
  refine ⟨hlt, ?_⟩
  rw [List.drop_eq_getElem_cons hlt, OptDec.cur, List.getD_eq_getElem?_getD,
    List.getElem?_eq_getElem hlt, Option.getD_some]

theorem OptDec.spn_pos {s : OptDec} (h : s.cur ∈ optWhitespace) : 0 < s.spn := by
  have h0 : s.cur ≠ 0 := fun h0 => absurd (h0 ▸ h) (by decide)
  rw [OptDec.spn, (OptDec.drop_of_cur h0).2, List.takeWhile_cons_of_pos (by simpa using h)]
  exact Nat.succ_pos _

/-- The decoder reads on at `line`, which ends at a NUL with `behind` after it, and does not write
there. -/
structure OptReads (behind : List UInt8) (instr done : Bool) (line : List UInt8) (s : OptDec) :
    Prop where
  le       : s.dst ≤ s.src
  text     : s.buf.drop s.src = line ++ 0 :: behind
  instr_eq : s.instr = instr
  done_eq  : s.done = done
  ok       : s.fault = false

namespace OptReads

variable {stop : Int} {instr done : Bool} {behind line : List UInt8} {s : OptDec} {ch : UInt8}

theorem cur_cons (h : OptReads behind instr done (ch :: line) s) : s.cur = ch := by
  rw [OptDec.cur, List.getD_eq_getElem?_getD, ← Nat.add_zero s.src, ← List.getElem?_drop, h.text]
  rfl

theorem cur_nil (h : OptReads behind instr done [] s) : s.cur = 0 := by
  rw [OptDec.cur, List.getD_eq_getElem?_getD, ← Nat.add_zero s.src, ← List.getElem?_drop, h.text]
  rfl

theorem src_eq (h : OptReads behind instr done line s) :
    s.src + line.length + 1 + behind.length = s.buf.length := by
  have hlen := congrArg List.length h.text
  simp only [List.length_drop, List.length_append, List.length_cons] at hlen
  omega

/-- The loop goes on in front of a character, while there is room. -/
theorem stopped_eq_false (h : OptReads behind instr false (ch :: line) s) (hch : ch ≠ 0)
    (hroom : (s.dst : Int) < stop) : optDecStopped stop s = false := by
  simp [optDecStopped, h.cur_cons, h.done_eq, hch, hroom]

/-- Reading on, without a character written. -/
theorem skip (ws : List UInt8) (h : OptReads behind instr done (ws ++ line) s) :
    OptReads behind instr done line (s.skip ws.length) := by
  have hsrc := h.src_eq
  rw [List.length_append] at hsrc
  refine ⟨Nat.le_add_right_of_le h.le, ?_, h.instr_eq, h.done_eq, ?_⟩
  · show s.buf.drop (s.src + ws.length) = _
    rw [← List.drop_drop, h.text, List.append_assoc, List.drop_left]
  · simp only [OptDec.skip, h.ok, Bool.false_or, decide_eq_false_iff_not]
    omega

/-- A character is written while one is read. -/
theorem put_skip {ch' : UInt8} (h : OptReads behind instr done (ch' :: line) s) :
    OptReads behind instr done line ((s.put ch).skip 1) := by
  have hsrc := h.src_eq
  have hle := h.le
  rw [List.length_cons] at hsrc
  refine ⟨Nat.succ_le_succ hle, ?_, h.instr_eq, h.done_eq, ?_⟩
  · show (s.buf.set s.dst ch).drop (s.src + 1) = _
    rw [List.drop_set_of_lt (by omega), ← List.drop_drop, h.text]
    rfl
  · simp only [OptDec.skip, OptDec.put, OptDec.store, List.length_set, h.ok, Bool.false_or,
      Bool.or_eq_false_iff, decide_eq_false_iff_not]
    omega

/-- `strspn` ends at the latest at the terminator. -/
theorem spn_eq (h : OptReads behind instr done line s) :
    s.spn = (line.takeWhile (· ∈ optWhitespace)).length := by
  rw [OptDec.spn, h.text, List.takeWhile_append]
  split
  · next hall =>
      have h0 : (0 : UInt8) ∉ optWhitespace := by decide
      rw [List.takeWhile_cons_of_neg (by simpa using h0), List.append_nil]
      exact hall.symm
  · rfl

theorem skip_spn (h : OptReads behind instr done line s) :
    OptReads behind instr done (line.dropWhile (· ∈ optWhitespace)) (s.skip s.spn) := by
  rw [h.spn_eq]
  apply skip
  rwa [List.takeWhile_append_dropWhile]

end OptReads

/-- The decoder has written `out` from the start of the buffer and reads on at `line`, which ends at
a NUL with `behind` after it. -/
structure OptAt (stop : Int) (behind : List UInt8) (instr done : Bool) (out line : List UInt8)
    (s : OptDec) : Prop where
  dst_eq   : s.dst = out.length
  le       : s.dst ≤ s.src
  written  : s.buf.take s.dst = out
  text     : s.buf.drop s.src = line ++ 0 :: behind
  room     : s.dst + line.length ≤ stop
  instr_eq : s.instr = instr
  done_eq  : s.done = done
  strict   : done = true → s.dst < s.src
  ok       : s.fault = false

namespace OptAt

variable {stop : Int} {instr done : Bool} {behind out line : List UInt8} {s : OptDec}

theorem reads (h : OptAt stop behind instr done out line s) : OptReads behind instr done line s :=
  ⟨h.le, h.text, h.instr_eq, h.done_eq, h.ok⟩

theorem cur_cons {ch : UInt8} (h : OptAt stop behind instr done out (ch :: line) s) : s.cur = ch :=
  h.reads.cur_cons

theorem src_lt (h : OptAt stop behind instr done out line s) : s.src + line.length < s.buf.length := by
  have hsrc := h.reads.src_eq
  omega

/-- The loop goes on in front of a character. -/
theorem stopped_eq_false {ch : UInt8} (h : OptAt stop behind instr false out (ch :: line) s)
    (hch : ch ≠ 0) : optDecStopped stop s = false := by
  have hroom := h.room
  rw [List.length_cons] at hroom
  exact h.reads.stopped_eq_false hch (by omega)

/-- Reading on, without a character written. -/
theorem skip (ws : List UInt8) (h : OptAt stop behind instr done out (ws ++ line) s) :
    OptAt stop behind instr done out line (s.skip ws.length) := by
  have hnext := h.reads.skip
  have hroom := h.room
  rw [List.length_append] at hroom
  refine ⟨h.dst_eq, hnext.le, h.written, hnext.text, ?_, h.instr_eq, h.done_eq,
    fun hd => Nat.lt_add_right _ (h.strict hd), hnext.ok⟩
  show (s.dst : Int) + _ ≤ _
  omega

/-- A character is written while one is read. -/
theorem put_skip {ch ch' : UInt8} (h : OptAt stop behind instr done out (ch' :: line) s) :
    OptAt stop behind instr done (out ++ [ch]) line ((s.put ch).skip 1) := by
  have hnext : OptReads behind instr done line ((s.put ch).skip 1) := h.reads.put_skip
  have hlt := h.src_lt
  have hroom := h.room
  have hle := h.le
  rw [List.length_cons] at hlt hroom
  refine ⟨?_, hnext.le, ?_, hnext.text, ?_, h.instr_eq, h.done_eq, ?_, hnext.ok⟩
  · show s.dst + 1 = _
    simp [h.dst_eq]
  · show (s.buf.set s.dst ch).take (s.dst + 1) = _
    obtain ⟨old, hget⟩ : ∃ old, s.buf[s.dst]? = some old :=
      ⟨_, List.getElem?_eq_getElem (show s.dst < s.buf.length by omega)⟩
    rw [List.take_set, List.take_add_one, h.written, hget, h.dst_eq]
    simp
  · show ((s.dst + 1 : Nat) : Int) + _ ≤ _
    omega
  · exact fun hd => Nat.succ_lt_succ (h.strict hd)

/-! ### Rounds -/

section Rounds

variable {ch : UInt8}

/-- An encoded character inside of a string. -/
theorem instr_char (h : OptAt stop behind true false out (optEncChar .c ch ++ line) s) (hch : ch ≠ 0) :
    optDecStopped stop s = false ∧
      OptAt stop behind true false (out ++ [ch]) line (optDecRound false s) := by
  have hround : optDecRound false s = optDecInstr false s := by rw [optDecRound, h.instr_eq, if_pos rfl]
  rw [hround]
  rcases optEncChar_cases hch with ⟨e, he, hun⟩ | ⟨hplain, hquote, hslash⟩
  · rw [he] at h
    have hnext : OptAt stop behind true false out (e :: line) (s.skip 1) := skip [92] h
    refine ⟨h.stopped_eq_false (by decide), ?_⟩
    rw [optDecInstr, h.cur_cons, if_neg (by decide), if_pos (by decide)]
    simp only [hnext.cur_cons, hun]
    exact hnext.put_skip
  · rw [hplain] at h
    refine ⟨h.stopped_eq_false hch, ?_⟩
    rw [optDecInstr, h.cur_cons, if_neg hquote, if_neg (by simp [hslash])]
    exact h.put_skip

/-- The closing quote. -/
theorem close_quote (h : OptAt stop behind true false out (34 :: line) s) :
    optDecStopped stop s = false ∧ OptAt stop behind false false out line (optDecRound false s) := by
  refine ⟨h.stopped_eq_false (by decide), ?_⟩
  rw [optDecRound, h.instr_eq, if_pos rfl, optDecInstr, h.cur_cons, if_pos rfl]
  have hs : OptAt stop behind false false out (34 :: line) { s with instr := false } :=
    { h with instr_eq := rfl }
  exact skip [34] hs

/-- A character outside of strings that needs no quote. -/
theorem plain_char (h : OptAt stop behind false false out (ch :: line) s) (hch : ch ≠ 0)
    (hquote : ch ∉ optQuotedChars) :
    optDecStopped stop s = false ∧
      OptAt stop behind false false (out ++ [ch]) line (optDecRound false s) := by
  rw [mem_optQuotedChars] at hquote
  refine ⟨h.stopped_eq_false hch, ?_⟩
  rw [optDecRound, h.instr_eq, if_neg (by simp), optDecPlain, h.cur_cons,
    if_neg (by tauto), if_neg (by tauto)]
  exact h.put_skip

/-- The opening quote. -/
theorem open_quote (h : OptAt stop behind false false out (34 :: line) s) :
    optDecStopped stop s = false ∧ OptAt stop behind true false out line (optDecRound false s) := by
  refine ⟨h.stopped_eq_false (by decide), ?_⟩
  rw [optDecRound, h.instr_eq, if_neg (by simp), optDecPlain, h.cur_cons, if_neg (by decide),
    if_pos rfl]
  have hs : OptAt stop behind true false out (34 :: line) { s with instr := true } :=
    { h with instr_eq := rfl }
  exact skip [34] hs

theorem skip_spn (h : OptAt stop behind instr done out line s) :
    OptAt stop behind instr done out (line.dropWhile (· ∈ optWhitespace)) (s.skip s.spn) := by
  rw [h.reads.spn_eq]
  apply skip
  rwa [List.takeWhile_append_dropWhile]

/-- The blanks behind a word. -/
theorem blank (h : OptAt stop behind false false out (ch :: line) s) (hch : ch ∈ optWhitespace) :
    optDecStopped stop s = false ∧
      OptAt stop behind false true out ((ch :: line).dropWhile (· ∈ optWhitespace))
        (optDecRound false s) := by
  have h0 : ch ≠ 0 := fun h0 => absurd (h0 ▸ hch) (by decide)
  refine ⟨h.stopped_eq_false h0, ?_⟩
  rw [optDecRound, h.instr_eq, if_neg (by simp), optDecPlain, h.cur_cons, if_pos hch]
  have hpos : 0 < s.spn := OptDec.spn_pos (by rwa [h.cur_cons])
  have hs := h.skip_spn
  exact { hs with done_eq := rfl, strict := fun _ =>
    Nat.lt_of_le_of_lt h.le (Nat.lt_add_of_pos_right hpos) }

end Rounds

/-! ### Words -/

/-- The characters of a quoted word are decoded one by one. -/
theorem reaches_string {w : List UInt8} (hw : 0 ∉ w) :
    ∀ {out s}, OptAt stop behind true false out (w.flatMap (optEncChar .c) ++ line) s →
      ∃ t, Reaches (optDecRound false) (optDecStopped stop) s t ∧
        OptAt stop behind true false (out ++ w) line t := by
  induction w with
  | nil => exact fun {out s} h => ⟨s, Reaches.refl s, by simpa using h⟩
  | cons ch w ih =>
      intro out s h
      rw [List.flatMap_cons, List.append_assoc] at h
      obtain ⟨hgo, hnext⟩ := h.instr_char fun h0 => hw (by simp [h0])
      obtain ⟨t, hreach, ht⟩ := ih (fun h0 => hw (List.mem_cons_of_mem _ h0)) hnext
      exact ⟨t, hreach.cons hgo, by simpa using ht⟩

/-- The characters of a word without quotes are copied one by one. -/
theorem reaches_plain {w : List UInt8} (hw : 0 ∉ w) (hquote : ∀ ch ∈ w, ch ∉ optQuotedChars) :
    ∀ {out s}, OptAt stop behind false false out (w ++ line) s →
      ∃ t, Reaches (optDecRound false) (optDecStopped stop) s t ∧
        OptAt stop behind false false (out ++ w) line t := by
  induction w with
  | nil => exact fun {out s} h => ⟨s, Reaches.refl s, by simpa using h⟩
  | cons ch w ih =>
      intro out s h
      obtain ⟨hgo, hnext⟩ := h.plain_char (fun h0 => hw (by simp [h0])) (hquote ch (by simp))
      obtain ⟨t, hreach, ht⟩ := ih (fun h0 => hw (List.mem_cons_of_mem _ h0))
        (fun c hc => hquote c (List.mem_cons_of_mem _ hc)) hnext
      exact ⟨t, hreach.cons hgo, by simpa using ht⟩

/-- An argument is decoded to itself. -/
theorem reaches_word {w : List UInt8} (hw : 0 ∉ w)
    (h : OptAt stop behind false false out (optWord w ++ line) s) :
    ∃ t, Reaches (optDecRound false) (optDecStopped stop) s t ∧
      OptAt stop behind false false (out ++ w) line t := by
  unfold optWord at h
  cases hq : optNeedsQuote (some w) with
  | true =>
      rw [hq, if_pos rfl] at h
      simp only [List.cons_append, List.append_assoc] at h
      obtain ⟨hopen, hs⟩ := h.open_quote
      obtain ⟨t, hreach, ht⟩ := reaches_string hw hs
      obtain ⟨hclose, hend⟩ := ht.close_quote
      exact ⟨_, (hreach.trans ((Reaches.refl _).cons hclose)).cons hopen, hend⟩
  | false =>
      rw [hq, if_neg (by simp)] at h
      refine reaches_plain hw (fun ch hch hmem => ?_) h
      have hneeds : optNeedsQuote (some w) = true :=
        List.any_eq_true.mpr ⟨ch, hch, by simpa using hmem⟩
      rw [hq] at hneeds
      exact absurd hneeds (by simp)

end OptAt

/-! ### A call -/

@[simp] theorem length_optDecRound (noslash : Bool) (s : OptDec) :
    (optDecRound noslash s).buf.length = s.buf.length := by
  unfold optDecRound optDecInstr optDecPlain OptDec.put OptDec.store OptDec.skip
  split_ifs <;> simp

/-- Every round takes a character at least, which is why the loop ends. -/
theorem optDecRound_src_lt (noslash : Bool) (s : OptDec) :
    s.src < (optDecRound noslash s).src := by
  unfold optDecRound optDecInstr optDecPlain
  split_ifs with _ _ _ hblank
  · exact Nat.lt_succ_self _
  · exact Nat.lt_add_of_pos_right (n := s.src) Nat.two_pos
  · exact Nat.lt_succ_self _
  · exact Nat.lt_add_of_pos_right (OptDec.spn_pos hblank)
  · exact Nat.lt_succ_self _
  · exact Nat.lt_succ_self _

/-- The loop has ended, for every buffer. -/
theorem optDec_ends (stop : Int) (noslash : Bool) {s : OptDec} {n : Nat} (hn : s.buf.length ≤ n) :
    optDecStopped stop (scan (optDecRound noslash) (optDecStopped stop) n s) = true := by
  refine scan_stops (fun s => s.buf.length - s.src) (fun s hgo => ?_) (n := n) (by omega)
  have hcur : s.cur ≠ 0 := fun h0 => by simp [optDecStopped, h0] at hgo
  have hlt := (OptDec.drop_of_cur hcur).1
  have hsrc := optDecRound_src_lt noslash s
  rw [length_optDecRound]
  omega

/-- Decoding writes over the buffer and leaves its length. -/
@[simp] theorem length_optQuotedDec (buf : List UInt8) (src dst : Nat) (len : Int) (noslash : Bool) :
    (optQuotedDec buf src dst len noslash).1.buf.length = buf.length := by
  have h : ∀ stop : Int, (scan (optDecRound noslash) (optDecStopped stop) buf.length
      (optDecStart buf src dst)).buf.length = buf.length := fun stop =>
    scan_preserves (P := fun s => s.buf.length = buf.length)
      (fun s _ hs => (length_optDecRound noslash s).trans hs) _ rfl
  simp only [optQuotedDec]
  split
  · exact (List.length_set).trans (h _)
  · exact h _

/-- How `opt_quoted_dec` leaves the buffer when it has decoded `w`, and `line` is left to read. -/
structure OptDecoded (behind out w line : List UInt8) (r : OptDec × Int) : Prop where
  ret     : r.2 = w.length
  written : r.1.buf.take (out ++ w ++ [0]).length = out ++ w ++ [0]
  le      : (out ++ w ++ [0]).length ≤ r.1.src
  text    : r.1.buf.drop r.1.src = line ++ 0 :: behind
  ok      : r.1.fault = false

section Call

variable {buf behind out w line : List UInt8} {src : Nat}

/-- The decoder starts behind the white space. -/
theorem optAt_start (hout : buf.take out.length = out) (hle : out.length ≤ src)
    (htext : buf.drop src = line ++ 0 :: behind) :
    OptAt (out.length + line.length) behind false false out (line.dropWhile (· ∈ optWhitespace))
      (optDecStart buf src out.length) := by
  have hlt : src < buf.length := by
    have hlen := congrArg List.length htext
    simp only [List.length_drop, List.length_append, List.length_cons] at hlen
    omega
  have h : OptAt (out.length + line.length) behind false false out line
      ⟨buf, src, out.length, false, false, decide (buf.length ≤ src)⟩ :=
    ⟨rfl, hle, hout, htext, Int.le_refl _, rfl, rfl, fun h => absurd h (by simp), by simpa using hlt⟩
  exact h.skip_spn

/-- A call whose loop gets to its end with `w` written. -/
theorem optDecoded_of_reaches (line : List UInt8) (done : Bool) {line' : List UInt8} {t : OptDec}
    (hreach : Reaches (optDecRound false) (optDecStopped (out.length + line.length))
      (optDecStart buf src out.length) t)
    (ht : OptAt (out.length + line.length) behind false done (out ++ w) line' t)
    (hstop : optDecStopped (out.length + line.length) t = true) (hlt : t.dst < t.src) :
    OptDecoded behind out w line' (optQuotedDec buf src out.length (line.length + 1) false) := by
  have hscan : scan (optDecRound false) (optDecStopped (out.length + line.length)) buf.length
      (optDecStart buf src out.length) = t :=
    hreach.scan_eq hstop (optDec_ends _ _ (Nat.le_refl _))
  have hroom := ht.room
  have hdst := ht.dst_eq
  have hsrc := ht.src_lt
  have hcall : optQuotedDec buf src out.length (line.length + 1) false
      = (t.store 0, (t.dst : Int) - out.length) := by
    simp only [optQuotedDec, show (out.length : Int) + (line.length + 1) - 1
      = out.length + line.length by omega, hscan]
    exact if_pos (by omega)
  rw [List.length_append] at hdst
  rw [hcall]
  constructor
  · show (t.dst : Int) - out.length = w.length
    omega
  · -- the terminator takes the place of a byte that has been read
    obtain ⟨old, hget⟩ : ∃ old, t.buf[t.dst]? = some old :=
      ⟨_, List.getElem?_eq_getElem (show t.dst < t.buf.length by omega)⟩
    show (t.buf.set t.dst 0).take _ = _
    rw [List.length_append, ← ht.dst_eq, List.take_set, List.length_singleton, List.take_add_one,
      ht.written, hget, ht.dst_eq]
    simp
  · show (out ++ w ++ [0]).length ≤ t.src
    rw [List.length_append, List.length_append, List.length_singleton]
    omega
  · show (t.buf.set t.dst 0).drop t.src = _
    rw [List.drop_set_of_lt hlt, ht.text]
  · simp only [OptDec.store, ht.ok, Bool.false_or, decide_eq_false_iff_not]
    omega

/-- The word that a nonempty argument starts with is no blank. -/
theorem dropWhile_optWord (hne : w ≠ []) (line : List UInt8) :
    (optWord w ++ line).dropWhile (· ∈ optWhitespace) = optWord w ++ line := by
  cases w with
  | nil => exact absurd rfl hne
  | cons ch w =>
      unfold optWord
      cases hq : optNeedsQuote (some (ch :: w)) with
      | true =>
          have h34 : (34 : UInt8) ∉ optWhitespace := by decide
          rw [if_pos rfl, List.cons_append, List.cons_append,
            List.dropWhile_cons_of_neg (by simpa using h34)]
      | false =>
          have hch : ch ∉ optWhitespace := by
            intro hmem
            have hneeds : optNeedsQuote (some (ch :: w)) = true :=
              List.any_eq_true.mpr ⟨ch, by simp, by simpa using mem_optQuotedChars.mpr (Or.inl hmem)⟩
            rw [hq] at hneeds
            exact absurd hneeds (by simp)
          rw [if_neg (by simp), List.cons_append, List.dropWhile_cons_of_neg (by simpa using hch)]

theorem optTail_eq_cons (args : List (List UInt8)) :
    ∃ ch rest, ch ∈ optWhitespace ∧ optTail args = ch :: rest := by
  cases args with
  | nil => exact ⟨10, [], by decide, rfl⟩
  | cons w args => exact ⟨32, _, by decide, rfl⟩

/-- A call at an argument decodes it, and skips the blanks behind. -/
theorem optQuotedDec_word (hw : 0 ∉ w) (hne : w ≠ []) {args : List (List UInt8)}
    (hout : buf.take out.length = out) (hle : out.length ≤ src)
    (hline : line = optWord w ++ optTail args) (htext : buf.drop src = line ++ 0 :: behind) :
    OptDecoded behind out w ((optTail args).dropWhile (· ∈ optWhitespace))
      (optQuotedDec buf src out.length (line.length + 1) false) := by
  have hstart := optAt_start hout hle htext
  rw [hline, dropWhile_optWord hne, ← hline] at hstart
  obtain ⟨ch, rest, hch, htail⟩ := optTail_eq_cons args
  rw [hline, htail] at hstart
  obtain ⟨t, hreach, ht⟩ := OptAt.reaches_word hw hstart
  obtain ⟨hgo, hend⟩ := ht.blank hch
  rw [← htail, ← hline] at hend hreach
  refine optDecoded_of_reaches _ _ (hreach.trans ((Reaches.refl _).cons ?_)) hend ?_ (hend.strict rfl)
  · rwa [← htail, ← hline] at hgo
  · simp [optDecStopped, hend.done_eq, hend.instr_eq]

/-- A call at the end of the line decodes the empty string. -/
theorem optQuotedDec_blank (hout : buf.take out.length = out) (hle : out.length ≤ src)
    (htext : buf.drop src = [10] ++ 0 :: behind) :
    OptDecoded behind out [] [] (optQuotedDec buf src out.length 2 false) := by
  have hstart := optAt_start hout hle htext
  have hskip : ([10] : List UInt8).dropWhile (· ∈ optWhitespace) = [] := by decide
  have hspn : OptDec.spn ⟨buf, src, out.length, false, false, decide (buf.length ≤ src)⟩ = 1 := by
    rw [OptDec.spn, htext]
    rfl
  have hlt : (optDecStart buf src out.length).dst < (optDecStart buf src out.length).src := by
    simp only [optDecStart, hspn, OptDec.skip]
    omega
  have hstop : optDecStopped (out.length + ([10] : List UInt8).length)
      (optDecStart buf src out.length) = true := by
    rw [hskip] at hstart
    simp [optDecStopped, hstart.reads.cur_nil]
  refine optDecoded_of_reaches [10] false (Reaches.refl _) ?_ hstop hlt
  rwa [hskip, ← List.append_nil out, List.length_append, List.length_nil, Nat.add_zero] at hstart

end Call

/-! ## `opt_str2argv` -/

/-- `opt_str2argv` has split off `words`, which are in `out`, and reads on at `line`. -/
structure OptArgvAt (behind : List UInt8) (stop : Nat) (words : List (List UInt8))
    (out line : List UInt8) (s : OptArgv) : Prop where
  dst_eq  : s.dst = out.length
  le      : s.dst ≤ s.str
  written : s.buf.take s.dst = out
  text    : s.buf.drop s.str = line ++ 0 :: behind
  stop_eq : s.buf.length = stop + behind.length
  strings : ∀ x, (s.argv.map fun p => cstr ((out ++ x).drop p)) = words
  count   : words.length ≤ out.length
  ok      : s.fault = false

namespace OptArgvAt

variable {behind out line w line' : List UInt8} {stop argn : Nat} {words : List (List UInt8)}
  {s : OptArgv}

theorem length_argv (h : OptArgvAt behind stop words out line s) : s.argv.length = words.length := by
  rw [← h.strings [], List.length_map]

theorem stop_eq' (h : OptArgvAt behind stop words out line s) : s.str + line.length + 1 = stop := by
  have hlen := congrArg List.length h.text
  have hstop := h.stop_eq
  simp only [List.length_drop, List.length_append, List.length_cons] at hlen
  omega

/-- A round, by what its call decodes. -/
theorem round (h : OptArgvAt behind stop words out line s) (hw : 0 ∉ w) (hargn : words.length < argn)
    (hint : stop < 2 ^ 31)
    (hdec : OptDecoded behind out w line'
      (optQuotedDec s.buf s.str out.length (line.length + 1) false)) :
    OptArgvAt behind stop (words ++ [w]) (out ++ w ++ [0]) line' (optArgvRound argn stop s) := by
  have hlen : natToInt32 (stop - s.str) = line.length + 1 := by
    have hstop := h.stop_eq'
    rw [show stop - s.str = line.length + 1 by omega, natToInt32_eq_self (by omega)]
    rfl
  have hdst : (out.length + (w.length : Int) + 1).toNat = (out ++ w ++ [0]).length := by
    simp only [List.length_append, List.length_singleton]
    omega
  have hround : optArgvRound argn stop s =
      { buf := (optQuotedDec s.buf s.str out.length (line.length + 1) false).1.buf
        str := (optQuotedDec s.buf s.str out.length (line.length + 1) false).1.src
        dst := (out ++ w ++ [0]).length, argv := s.argv ++ [out.length], fault := false } := by
    simp only [optArgvRound, h.dst_eq, hlen, hdec.ret, hdst, h.ok, hdec.ok, h.length_argv,
      Bool.false_or, Bool.or_false, OptArgv.mk.injEq, true_and, decide_eq_false_iff_not]
    omega
  rw [hround]
  refine ⟨rfl, hdec.le, hdec.written, hdec.text, ?_, fun x => ?_, ?_, rfl⟩
  · show (optQuotedDec s.buf s.str out.length (line.length + 1) false).1.buf.length = _
    rw [length_optQuotedDec, h.stop_eq]
  · -- the new word starts behind the terminator of the last one
    have hprev := h.strings (w ++ ([0] ++ x))
    have hlast : cstr ((out ++ (w ++ ([0] ++ x))).drop out.length) = w := by
      rw [List.drop_left, cstr_append_nul hw]
    simp only [List.append_assoc, List.map_append, List.map_cons, List.map_nil, hprev, hlast]
  · have hcount := h.count
    simp only [List.length_append, List.length_singleton]
    omega

/-- At its end the splitter stops. -/
theorem stopped_nil (h : OptArgvAt behind stop words out [] s) : optArgvStopped stop s = true := by
  have htext := h.text
  have hcur : s.buf.getD s.str 0 = 0 := by
    rw [List.getD_eq_getElem?_getD, ← Nat.add_zero s.str, ← List.getElem?_drop, htext]
    rfl
  rw [optArgvStopped, hcur]
  rfl

/-- The loop over the words goes on while there is a character. -/
theorem stopped_cons {ch : UInt8} (h : OptArgvAt behind stop words out (ch :: line) s)
    (hch : ch ≠ 0) : optArgvStopped stop s = false := by
  have htext := h.text
  have hstop := h.stop_eq'
  have hcur : s.buf.getD s.str 0 = ch := by
    rw [List.getD_eq_getElem?_getD, ← Nat.add_zero s.str, ← List.getElem?_drop, htext]
    rfl
  rw [List.length_cons] at hstop
  simp only [optArgvStopped, hcur, Bool.or_eq_false_iff, beq_eq_false_iff_ne, Bool.not_eq_false',
    decide_eq_true_eq]
  exact ⟨hch, by omega⟩

/-- The last terminator changes none of the strings. -/
theorem strings_eq (h : OptArgvAt behind stop words out [] s) :
    OptArgv.strings { s with
      buf := s.buf.set s.dst 0, fault := s.fault || decide (s.buf.length ≤ s.dst) } = some words := by
  have hlt : s.dst < s.buf.length := by
    have hle := h.le
    have hsize := h.stop_eq
    have hstop := h.stop_eq'
    omega
  have hset : s.buf.set s.dst 0 = out ++ (s.buf.set s.dst 0).drop s.dst := by
    conv_lhs => rw [← List.take_append_drop s.dst (s.buf.set s.dst 0)]
    rw [List.take_set_of_le (Nat.le_refl _), h.written]
  simp only [OptArgv.strings, h.ok, Bool.false_or, decide_eq_true_eq]
  rw [if_neg (by omega), hset, h.strings]

end OptArgvAt

/-- A word is written as one character at least. -/
theorem optWord_head {w : List UInt8} (hw : 0 ∉ w) (hne : w ≠ []) :
    ∃ ch rest, ch ≠ 0 ∧ optWord w = ch :: rest := by
  cases w with
  | nil => exact absurd rfl hne
  | cons ch w =>
      unfold optWord
      split
      · exact ⟨34, _, by decide, rfl⟩
      · exact ⟨ch, w, fun h0 => hw (by simp [h0]), rfl⟩

/-- The arguments that are not empty. -/
def optKept (args : List (List UInt8)) : List (List UInt8) := args.filter (· ≠ [])

theorem optKept_cons {w : List UInt8} (hne : w ≠ []) (args : List (List UInt8)) :
    optKept (w :: args) = w :: optKept args := by simp [optKept, hne]

/-- Blanks in front of a word are passed by. -/
theorem optTail_cons (w : List UInt8) (args : List (List UInt8)) :
    (optTail (w :: args)).dropWhile (· ∈ optWhitespace)
      = (optWord w ++ optTail args).dropWhile (· ∈ optWhitespace) := by
  rw [optTail, List.flatMap_cons, List.append_assoc, List.cons_append,
    List.dropWhile_cons_of_pos (by decide)]
  rfl

/-- The rounds behind a word split off the arguments that are left, without the empty ones. -/
theorem optArgv_tail {behind : List UInt8} {stop argn : Nat} (hint : stop < 2 ^ 31)
    {args : List (List UInt8)} (hnul : ∀ w ∈ args, 0 ∉ w) :
    ∀ {words out s}, (words ++ optKept args).length ≤ argn →
      OptArgvAt behind stop words out ((optTail args).dropWhile (· ∈ optWhitespace)) s →
      ∃ out', OptArgvAt behind stop (words ++ optKept args) out' []
        (scan (optArgvRound argn stop) (optArgvStopped stop) (optKept args).length s) := by
  induction args with
  | nil =>
      intro words out s _ h
      have hskip : (optTail []).dropWhile (· ∈ optWhitespace) = [] := by decide
      rw [hskip] at h
      exact ⟨out, by simpa [optKept] using h⟩
  | cons w args ih =>
      intro words out s hargn h
      have hnul' : ∀ v ∈ args, 0 ∉ v := fun v hv => hnul v (List.mem_cons_of_mem _ hv)
      rw [optTail_cons] at h
      by_cases hne : w = []
      · -- an empty argument is written as a blank, which is skipped
        subst hne
        exact ih hnul' hargn h
      · have hkept := optKept_cons hne args
        have hw := hnul w (by simp)
        rw [hkept, List.length_append, List.length_cons] at hargn
        rw [dropWhile_optWord hne] at h
        -- the word starts with another character than the NUL, so that there is a round
        obtain ⟨ch, rest, hch, hword⟩ := optWord_head hw hne
        have hgo : optArgvStopped stop s = false := by
          rw [hword, List.cons_append] at h
          exact h.stopped_cons hch
        have hdec := optQuotedDec_word hw hne (h.dst_eq ▸ h.written) (h.dst_eq ▸ h.le) rfl h.text
        have hargc : words.length < argn := by omega
        have hround := h.round hw hargc hint hdec
        obtain ⟨out', hend⟩ :=
          ih hnul' (by simp only [List.length_append, List.length_singleton]; omega)
          hround
        refine ⟨out', ?_⟩
        rw [hkept, List.length_cons, scan_succ _ hgo]
        simpa using hend

/-- What comes back: a blank line is one empty argument. -/
def optBack (args : List (List UInt8)) : List (List UInt8) :=
  if optKept args = [] then [[]] else optKept args

/-- Where all arguments are empty there is a newline only. -/
theorem optWords_of_kept_nil {args : List (List UInt8)} (h : optKept args = []) :
    optWords args = [10] := by
  induction args with
  | nil => rfl
  | cons w args ih =>
      by_cases hne : w = []
      · subst hne
        exact ih h
      · rw [optKept_cons hne] at h
        exact absurd h (by simp)

/-- The line starts with the first argument that is not empty. -/
theorem optWords_of_kept {args : List (List UInt8)} (h : optKept args ≠ []) :
    optWords args = (optTail args).dropWhile (· ∈ optWhitespace) := by
  induction args with
  | nil => exact absurd rfl h
  | cons w args ih =>
      rw [optTail_cons]
      by_cases hne : w = []
      · subst hne
        exact ih h
      · rw [dropWhile_optWord hne]
        cases w with
        | nil => exact absurd rfl hne
        | cons ch w => rfl

/-- An encoded character has no NUL. -/
theorem optEncChar_nul (ch : UInt8) : 0 ∉ optEncChar .c ch := by
  by_cases h0 : ch = 0
  · subst h0
    decide
  · rcases optEncChar_cases h0 with ⟨e, he, hun⟩ | ⟨hplain, -, -⟩
    · rw [he]
      intro hmem
      have he0 : e = 0 := by simpa [eq_comm] using hmem
      rw [he0] at hun
      exact h0 (hun.symm.trans (by decide))
    · rw [hplain]
      simpa [eq_comm] using h0

/-- Neither has an encoded word. -/
theorem optWord_nul {w : List UInt8} (hw : 0 ∉ w) : 0 ∉ optWord w := by
  unfold optWord
  split
  · intro hmem
    simp only [List.cons_append, List.mem_cons, List.mem_append, List.mem_flatMap,
      List.not_mem_nil, or_false] at hmem
    rcases hmem with h | ⟨ch, -, h⟩ | h
    · exact absurd h (by decide)
    · exact optEncChar_nul ch h
    · exact absurd h (by decide)
  · exact hw

/-- Words with no zero are joined to a text with none. -/
theorem optTail_nul {args : List (List UInt8)} (hnul : ∀ w ∈ args, 0 ∉ w) : 0 ∉ optTail args := by
  intro hmem
  simp only [optTail, List.mem_append, List.mem_flatMap, List.mem_cons, List.not_mem_nil,
    or_false] at hmem
  rcases hmem with ⟨w, hw, h | h⟩ | h
  · exact absurd h (by decide)
  · exact optWord_nul (hnul w hw) h
  · exact absurd h (by decide)

/-- A line of words with no zero has none. -/
theorem optWords_nul {args : List (List UInt8)} (hnul : ∀ w ∈ args, 0 ∉ w) : 0 ∉ optWords args := by
  by_cases h : optKept args = []
  · rw [optWords_of_kept_nil h]
    decide
  · rw [optWords_of_kept h]
    exact fun hmem => optTail_nul hnul ((List.dropWhile_sublist _).subset hmem)

/-- What `opt_str2argv` makes of the line of a list. -/
theorem optStr2argv_optWords {args : List (List UInt8)} (hnul : ∀ w ∈ args, 0 ∉ w)
    (hint : (optWords args).length + 1 < 2 ^ 31) {argn : Nat} (hargn : (optBack args).length ≤ argn)
    (behind : List UInt8) :
    (optStr2argv (optWords args ++ 0 :: behind) argn).strings = some (optBack args) := by
  have hstop : (cstr (optWords args ++ 0 :: behind)).length = (optWords args).length :=
    congrArg _ (cstr_append_nul (optWords_nul hnul) behind)
  have hbuf : (optWords args ++ 0 :: behind == []) = false := by simp
  have hstart : OptArgvAt behind ((optWords args).length + 1) [] [] (optWords args)
      ⟨optWords args ++ 0 :: behind, 0, 0, [], false⟩ :=
    ⟨rfl, Nat.le_refl _, rfl, rfl, by simp [Nat.add_assoc, Nat.add_comm 1], fun _ => rfl,
      Nat.le_refl _, rfl⟩
  obtain ⟨out, h⟩ : ∃ out, OptArgvAt behind ((optWords args).length + 1) (optBack args) out []
      (scan (optArgvRound argn ((optWords args).length + 1))
        (optArgvStopped ((optWords args).length + 1)) (optBack args).length
        ⟨optWords args ++ 0 :: behind, 0, 0, [], false⟩) := by
    unfold optBack at hargn ⊢
    by_cases hkept : optKept args = []
    · -- only blanks: one round, which decodes nothing
      rw [if_pos hkept] at hargn ⊢
      have hten := optWords_of_kept_nil hkept
      rw [hten] at hstart hint ⊢
      have hround := hstart.round (by simp) hargn hint
        (optQuotedDec_blank rfl (Nat.le_refl _) rfl)
      refine ⟨[0], ?_⟩
      have hgo := hstart.stopped_cons (by decide)
      show OptArgvAt _ _ _ _ _ (scan _ _ (0 + 1) _)
      rw [scan_succ 0 hgo]
      exact hround
    · rw [if_neg hkept] at hargn ⊢
      have hline := optWords_of_kept hkept
      rw [hline] at hstart hint ⊢
      exact optArgv_tail hint hnul hargn hstart
  have hcount : (optBack args).length ≤ (optWords args ++ 0 :: behind).length := by
    have hle := h.le
    have hstop' := h.stop_eq'
    have hdst := h.dst_eq
    have hcount := h.count
    rw [List.length_append, List.length_cons]
    omega
  rw [optStr2argv, hstop, hbuf, scan_of_le h.stopped_nil hcount]
  exact h.strings_eq

/-! ## The round trip -/

/-- The list that comes back is the list that went out. -/
theorem optBack_eq_iff {args : List (List UInt8)} :
    optBack args = args ↔ (args ≠ [] ∧ [] ∉ args) ∨ args = [[]] := by
  have hkept : optKept args = args ↔ [] ∉ args := by
    rw [optKept, List.filter_eq_self]
    constructor
    · exact fun h hmem => by simpa using h [] hmem
    · exact fun h w hw => by simpa using fun h0 : w = [] => h (h0 ▸ hw)
  unfold optBack
  split
  · next hnil =>
      constructor
      · exact fun h => Or.inr h.symm
      · rintro (⟨hne, hmem⟩ | h)
        · exact absurd ((hkept.mpr hmem).symm.trans hnil) hne
        · exact h.symm
  · next hne =>
      rw [hkept]
      constructor
      · intro hmem
        refine Or.inl ⟨fun h0 => hne ?_, hmem⟩
        rw [h0]
        rfl
      · rintro (⟨-, hmem⟩ | h)
        · exact hmem
        · exact absurd (by rw [h]; rfl) hne

/-- What is behind the first word fits. -/
theorem length_optTail_lt (args : List (List UInt8)) : (optTail args).length < optRoom args := by
  induction args with
  | nil => decide
  | cons w args ih =>
      have hword := length_optWord_le w
      have htail : (optTail (w :: args)).length = (optWord w).length + 1 + (optTail args).length := by
        simp only [optTail, List.flatMap_cons, List.append_assoc, List.length_append,
          List.length_cons]
      rw [htail, optRoom_cons]
      omega

/-- The line fits in its room. -/
theorem length_optWords_lt (args : List (List UInt8)) : (optWords args).length < optRoom args := by
  by_cases h : optKept args = []
  · rw [optWords_of_kept_nil h]
    exact two_le_optRoom args
  · rw [optWords_of_kept h]
    exact Nat.lt_of_le_of_lt (List.dropWhile_sublist _).length_le (length_optTail_lt args)

/-- A line with anything on it has a first argument. -/
theorem optStr2argv_ne_nil {ch : UInt8} (hch : ch ≠ 0) (line : List UInt8) (argn : Nat) :
    (optStr2argv (ch :: line) argn).strings ≠ some [] := by
  have hstop : (cstr (ch :: line)).length = (cstr line).length + 1 :=
    congrArg List.length (List.takeWhile_cons_of_pos (by simpa using hch))
  have hgo : optArgvStopped ((cstr (ch :: line)).length + 1)
      ⟨ch :: line, 0, 0, [], ch :: line == []⟩ = false := by
    simp [optArgvStopped, hch, hstop]
  have hargv : (optStr2argv (ch :: line) argn).argv ≠ [] := by
    rw [optStr2argv, List.length_cons, scan_succ _ hgo]
    exact scan_preserves (P := fun s : OptArgv => s.argv ≠ [])
      (fun s _ _ => List.append_ne_nil_of_right_ne_nil s.argv (List.cons_ne_nil s.dst [])) _
      (List.cons_ne_nil 0 [])
  intro h
  unfold OptArgv.strings at h
  split at h
  · exact absurd h (by simp)
  · exact hargv (List.map_eq_nil_iff.mp (Option.some.inj h))

/-- Lists of arguments survive quoting exactly when none is empty, or the only one is. -/
theorem optStr2argv_optCat_iff {args : List (List UInt8)} (hnul : ∀ w ∈ args, 0 ∉ w) {len : Int}
    (hroom : optRoom args ≤ len) (hint : len < 2 ^ 31) {argn : Nat} (hargn : args.length ≤ argn)
    (behind : List UInt8) :
    (∃ line, optCat len (args.map .str) = some line ∧
      (optStr2argv (line ++ 0 :: behind) argn).strings = some args) ↔
      (args ≠ [] ∧ [] ∉ args) ∨ args = [[]] := by
  rw [optCat_eq hnul hroom hint, ← optBack_eq_iff]
  simp only [Option.some.injEq, exists_eq_left']
  by_cases hne : args = []
  · subst hne
    constructor
    · exact fun h => absurd h (optStr2argv_ne_nil (by decide) _ argn)
    · exact fun h => absurd h (by decide)
  · have hback : (optBack args).length ≤ argn := by
      -- no more comes back than went out
      have hpos := List.length_pos_iff.mpr hne
      have hkept : (optKept args).length ≤ args.length := List.length_filter_le _ _
      unfold optBack
      split
      · rw [List.length_singleton]
        omega
      · omega
    have hlen := length_optWords_lt args
    rw [optStr2argv_optWords hnul (by omega) hback, Option.some.injEq]

/-- `"a"`, a quote, an escape and blanks on one line. -/
theorem optStr2argv_optCat_mixed :
    ∃ line, optCat 100 ([bytes "a", bytes "b \\\"c\n"].map .str) = some line ∧
      (optStr2argv (line ++ 0 :: []) 2).strings = some [bytes "a", bytes "b \\\"c\n"] :=
  have hnul : ∀ w ∈ [bytes "a", bytes "b \\\"c\n"], 0 ∉ w := by decide
  (optStr2argv_optCat_iff hnul (by decide) (by decide) (by decide) []).mpr (by decide)

/-- An empty argument behind another one is lost. -/
theorem optStr2argv_optCat_empty :
    ¬∀ (args : List (List UInt8)), (∀ w ∈ args, 0 ∉ w) → ∀ len : Int, optRoom args ≤ len →
      len < 2 ^ 31 → ∀ argn, args.length ≤ argn → ∀ behind,
      ∃ line, optCat len (args.map .str) = some line ∧
        (optStr2argv (line ++ 0 :: behind) argn).strings = some args := by
  intro h
  obtain ⟨line, hcat, hstrings⟩ :=
    h [bytes "a", []] (by decide) 100 (by decide) (by decide) 2 (by decide) []
  have hline : line = bytes "a \n" := Option.some.inj (hcat.symm.trans (by decide))
  rw [hline] at hstrings
  exact absurd hstrings (by decide)

end Bklib
