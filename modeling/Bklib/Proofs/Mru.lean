import Bklib.Lib.Recent
import Bklib.Model.Cfg
import Bklib.Proofs.Snprintf

/-!
# `Bklib.Proofs.Mru`: the list of most recently used values

`mru_exact` says of calls of `mru` that pass the list on that it has the latest `max` of the values, in
lines. The invariant is the result itself: what `mru` makes of the lines of such a list is what
`take_recent_cons` says a use makes of the first entries.
-/

set_option autoImplicit false

namespace Bklib

open Lib

/-- The lines of a text. -/
def linesText (lines : List (List UInt8)) : List UInt8 := lines.flatMap (· ++ [10])

/-- The latest `max` of the values that the calls have used, each in its latest spelling, latest first. -/
def mruLines (max : Int) (calls : List MruCall) : List (List UInt8) :=
  (recent strcasecmpEq (calls.map (·.val)).reverse).take max.toNat

/-- A value that `mru` keeps in a line: it is not empty, has neither newline nor NUL, and fits into
`srcbuf`. -/
structure MruValue (val : List UInt8) : Prop where
  ne      : val ≠ []
  newline : 10 ∉ val
  nul     : 0 ∉ val
  short   : val.length < 4096

section

theorem strcasecmpEq_iff {s t : List UInt8} :
    strcasecmpEq s t = true ↔ s.map tolower = t.map tolower := decide_eq_true_iff

theorem strcasecmpEq_symm (s t : List UInt8) (h : strcasecmpEq s t = true) :
    strcasecmpEq t s = true :=
  strcasecmpEq_iff.mpr (strcasecmpEq_iff.mp h).symm

theorem strcasecmpEq_trans (s t u : List UInt8) (h : strcasecmpEq s t = true)
    (h' : strcasecmpEq t u = true) : strcasecmpEq s u = true :=
  strcasecmpEq_iff.mpr ((strcasecmpEq_iff.mp h).trans (strcasecmpEq_iff.mp h'))

end

section Text

variable {lines : List (List UInt8)} {line : List UInt8}

theorem linesText_cons (line : List UInt8) (lines : List (List UInt8)) :
    linesText (line :: lines) = line ++ [10] ++ linesText lines := List.flatMap_cons

theorem linesText_ne (line : List UInt8) (lines : List (List UInt8)) : linesText (line :: lines) ≠ [] := by
  rw [linesText_cons]
  simp

/-- A text of values holds no zero. -/
theorem nul_notMem_linesText (h : ∀ line ∈ lines, MruValue line) : 0 ∉ linesText lines := by
  intro h0
  -- a NUL is in a line or is a newline
  obtain ⟨line, hline, hmem⟩ := List.mem_flatMap.mp h0
  rcases List.mem_append.mp hmem with hmem | hmem
  · exact (h line hline).nul hmem
  · exact absurd hmem (by decide)

/-- The first line of a text, and what is behind it. -/
theorem takeWhile_linesText (h : 10 ∉ line) (lines : List (List UInt8)) :
    (linesText (line :: lines)).takeWhile (· ≠ 10) = line ∧
      nextLine (linesText (line :: lines)) = linesText lines := by
  have hline : ∀ c ∈ line, decide (c ≠ (10 : UInt8)) = true := by
    intro c hc
    rw [decide_eq_true_iff]
    rintro rfl
    exact h hc
  rw [linesText_cons, List.append_assoc, List.singleton_append]
  constructor
  · rw [List.takeWhile_append_of_pos hline, List.takeWhile_cons_of_neg (by decide), List.append_nil]
  · rw [nextLine, List.dropWhile_append_of_pos hline, List.dropWhile_cons_of_neg (by decide)]
    rfl

end Text

/-! ## One call -/

section Call

variable {val text : List UInt8} {max count size : Int} {lines : List (List UInt8)} {dst : SnBuf}

/-- A line that stays. -/
theorem mruLoop_line {line : List UInt8} (hline : MruValue line) (hcount : count < max) :
    mruLoop val max (linesText (line :: lines)) count dst =
      if strcasecmpEq val line = true then mruLoop val max (linesText lines) count dst
      else mruLoop val max (linesText lines) (count + 1) (dst.add (line ++ [10])) := by
  obtain ⟨hfirst, hnext⟩ := takeWhile_linesText hline.newline lines
  have hshort := hline.short
  rw [mruLoop, dif_neg (linesText_ne line lines), if_neg (by omega)]
  simp only [hfirst, hnext]
  rw [if_neg (by omega)]
  simp only [hline.ne, false_or]

theorem mruLoop_full (hcount : max ≤ count) (src : List UInt8) :
    mruLoop val max src count dst = some dst := by
  rw [mruLoop, if_pos hcount]
  split <;> rfl

/-- The loop appends the first lines that are not the value. -/
theorem mruLoop_spec (hsize : size < 2 ^ 31) (hlines : ∀ line ∈ lines, MruValue line) :
    ∀ (count : Int) (text : List UInt8) (dst : SnBuf), dst.Holds 0 size text →
      ∀ added : List (List UInt8),
        added = (lines.filter fun line => !strcasecmpEq val line).take (max - count).toNat →
        ((text ++ linesText added).length : Int) < size →
      ∃ dst', mruLoop val max (linesText lines) count dst = some dst' ∧
        dst'.Holds 0 size (text ++ linesText added) := by
  induction lines with
  | nil =>
      intro count text dst hdst added hadded _
      refine ⟨dst, ?_, ?_⟩
      · rw [mruLoop, dif_pos (show linesText [] = [] from rfl)]
      · rw [hadded, List.filter_nil, List.take_nil]
        simpa [linesText] using hdst
  | cons line lines ih =>
      intro count text dst hdst added hadded hroom
      have hline := hlines line List.mem_cons_self
      have hrest := ih fun l hl => hlines l (List.mem_cons_of_mem line hl)
      by_cases hcount : max ≤ count
      · -- no more lines are taken
        have hzero : (max - count).toNat = 0 := by omega
        refine ⟨dst, mruLoop_full hcount _, ?_⟩
        rw [hadded, hzero, List.take_zero]
        simpa [linesText] using hdst
      · rw [mruLoop_line hline (Int.not_le.mp hcount)]
        by_cases hsame : strcasecmpEq val line = true
        · -- the old place of the value
          rw [List.filter_cons_of_neg (by simp [hsame])] at hadded
          rw [if_pos hsame]
          exact hrest count text dst hdst added hadded hroom
        · rw [List.filter_cons_of_pos (by simp [hsame]),
            show (max - count).toNat = (max - (count + 1)).toNat + 1 by omega, List.take_succ_cons]
            at hadded
          subst hadded
          -- a line that stays, with a newline behind it
          rw [linesText_cons, ← List.append_assoc] at hroom ⊢
          rw [if_neg hsame]
          have hfit : text.length + (line ++ [10]).length < size := by
            rw [List.length_append, List.length_append] at hroom
            omega
          exact hrest (count + 1) _ _ (hdst.toFilled.add hfit hsize) _ rfl hroom

/-- What `mru` makes of the lines of a list. -/
theorem mru_spec (hmax : 1 ≤ max) (hsize : size < 2 ^ 31) (hval : MruValue val)
    (hlines : ∀ line ∈ lines, MruValue line) (dstbuf : Int → UInt8) {result : List (List UInt8)}
    (hresult : result =
      val :: (lines.filter fun line => !strcasecmpEq val line).take (max.toNat - 1))
    (hroom : ((linesText result).length : Int) < size) :
    ∃ mem, mru (linesText lines) val dstbuf size max = some mem ∧
      cstr (readAt mem 0 size.toNat) = linesText result := by
  subst hresult
  rw [show max.toNat - 1 = (max - 1).toNat by omega] at hroom ⊢
  rw [linesText_cons] at hroom ⊢
  -- the value goes in front, and the loop starts to count at 1
  have hstart : (⟨dstbuf, 0, size, []⟩ : SnBuf).Filled 0 size [] := by
    constructor
    · rfl
    · exact (Int.sub_zero size).symm
    · rfl
  have hfit : (([] : List UInt8).length : Int) + (val ++ [10]).length < size := by
    rw [List.length_append] at hroom
    rw [List.length_nil]
    omega
  obtain ⟨dst', hloop, hdst'⟩ :=
    mruLoop_spec hsize hlines 1 _ _ (hstart.add hfit hsize) _ rfl hroom
  have hnul : 0 ∉ val ++ [10] ++
      linesText ((lines.filter fun line => !strcasecmpEq val line).take (max - 1).toNat) := by
    intro h0
    rcases List.mem_append.mp h0 with hfirst | hrest
    · rcases List.mem_append.mp hfirst with hmem | hmem
      · exact hval.nul hmem
      · exact absurd hmem (by decide)
    · refine nul_notMem_linesText (fun line hline => ?_) hrest
      exact hlines line (List.mem_of_mem_filter (List.mem_of_mem_take hline))
  refine ⟨dst'.mem, ?_, hdst'.cstr_eq hnul hroom⟩
  rw [mru, hloop]
  rfl

end Call

/-! ## Runs -/

/-- Every call has room for its result and the NUL. -/
def MruRoom (max : Int) (calls : List MruCall) : Prop :=
  ∀ n, (h : n < calls.length) →
    ((linesText (mruLines max (calls.take (n + 1)))).length : Int) < calls[n].dstlen ∧
      calls[n].dstlen < 2 ^ 31

/-- Room for a sequence of calls is room for each of its starts, and for the last call. -/
theorem MruRoom.append_singleton {max : Int} {pre : List MruCall} {call : MruCall}
    (h : MruRoom max (pre ++ [call])) :
    MruRoom max pre ∧ ((linesText (mruLines max (pre ++ [call]))).length : Int) < call.dstlen ∧
      call.dstlen < 2 ^ 31 := by
  constructor
  · intro n hn
    have hcall := h n (by rw [List.length_append]; omega)
    rw [List.take_append_of_le_length hn, List.getElem_append_left hn] at hcall
    exact hcall
  · have hcall := h pre.length (by simp)
    rw [List.take_of_length_le (by simp), List.getElem_append_right (Nat.le_refl _)] at hcall
    simpa using hcall

/-- What one more call makes of the list. -/
theorem mruLines_concat {max : Int} (hmax : 1 ≤ max) (pre : List MruCall) (call : MruCall) :
    mruLines max (pre ++ [call]) = call.val ::
      ((mruLines max pre).filter fun line => !strcasecmpEq call.val line).take (max.toNat - 1) := by
  obtain ⟨n, hn⟩ : ∃ n, max.toNat = n + 1 := ⟨max.toNat - 1, by omega⟩
  rw [mruLines, mruLines, List.map_append, List.reverse_append, hn]
  exact take_recent_cons strcasecmpEq_symm strcasecmpEq_trans _ _ n

/-- The most recently used list is exact: behind any calls that start from the empty string and pass
the list on, it is the lines of the distinct values, latest first, cut to `max`. -/
theorem mru_exact {max : Int} (hmax : 1 ≤ max) {calls : List MruCall}
    (hvals : ∀ call ∈ calls, MruValue call.val) (hroom : MruRoom max calls) :
    mruCalls max calls = some (linesText (mruLines max calls)) := by
  induction calls using List.reverseRecOn with
  | nil => simp [mruCalls, mruLines, recent, linesText]
  | append_singleton pre call ih =>
      obtain ⟨hroom', hfit, hsize⟩ := hroom.append_singleton
      have hpre := ih (fun c hc => hvals c (List.mem_append_left _ hc)) hroom'
      have hval := hvals call (List.mem_append_right pre List.mem_cons_self)
      -- what stands in the list has been used
      have hlines : ∀ line ∈ mruLines max pre, MruValue line := by
        intro line hline
        have huse := mem_of_mem_recent (List.mem_of_mem_take hline)
        obtain ⟨c, hc, rfl⟩ := List.mem_map.mp (List.mem_reverse.mp huse)
        exact hvals c (List.mem_append_left _ hc)
      -- what this call makes of the list that the others have left
      obtain ⟨mem, hmru, hmem⟩ :=
        mru_spec hmax hsize hval hlines call.dstbuf (mruLines_concat hmax pre call) hfit
      rw [mruCalls] at hpre ⊢
      rw [List.foldlM_append, hpre]
      simp [hmru, hmem]

/-- Two values, and the first one again in capitals. -/
def mruSample : List MruCall :=
  [⟨bytes "a", fun _ => 0, 8⟩, ⟨bytes "b", fun _ => 0, 8⟩, ⟨bytes "A", fun _ => 0, 8⟩]

theorem mru_exact_sample : mruCalls 2 mruSample = some (linesText (mruLines 2 mruSample)) := by
  refine mru_exact (by decide) (fun call hcall => ?_) (by unfold MruRoom; decide)
  simp only [mruSample, List.mem_cons, List.not_mem_nil, or_false] at hcall
  rcases hcall with rfl | rfl | rfl <;>
    exact ⟨by decide, by decide, by decide, by decide⟩

end Bklib
