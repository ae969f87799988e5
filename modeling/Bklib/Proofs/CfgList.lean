import Bklib.Proofs.Mru

/-!
# `Bklib.Proofs.CfgList`: packed lists that are read back

`cfgList_readBack_iff` says when `cfg_list_next` reads a list of `cfg_list_pack` back. The room for the
NUL is taken off before the string is copied, and another byte is taken off for the NUL itself, so a
string that leaves no byte over is not terminated, and a longer one is cut; both are returned. The last
byte of the buffer is never stored to, and a string that fits exactly is complete if it was 0.
-/

set_option autoImplicit false

namespace Bklib

open Lib

/-- What one call of `cfg_list_next` should do with the string `s`: return it with its NUL if both fit,
and nothing otherwise. No byte outside of the buffer changes. -/
structure NextRight (len : Int) (s : List UInt8) (mem : Int → UInt8) (r : CfgListNext) : Prop where
  fits    : s.length + 1 ≤ len → r.ret = true ∧ readAt r.mem 0 (s.length + 1) = s ++ [0]
  long    : len < s.length + 1 → r.ret = false
  outside : ∀ a, a < 0 ∨ len ≤ a → r.mem a = mem a

/-- Calls of `cfg_list_next` read the strings of a list, one after the other, and then its end. -/
def ListReadBack (len : Int) : List (List UInt8) → Option (List UInt8) → (Int → UInt8) → Prop
  | [],        q, mem =>
      (cfgListNext q mem len).ret = false ∧
        ∀ a, a < 0 ∨ len ≤ a → (cfgListNext q mem len).mem a = mem a
  | s :: strs, q, mem =>
      NextRight len s mem (cfgListNext q mem len) ∧
        ListReadBack len strs (cfgListNext q mem len).q (cfgListNext q mem len).mem

/-- A string of a list. -/
structure ListString (s : List UInt8) : Prop where
  ne      : s ≠ []
  newline : 10 ∉ s
  nul     : 0 ∉ s

section Next

variable {s : List UInt8} {mem : Int → UInt8} {len : Int}

/-- The loop copies what there is room for. -/
theorem cfgListCopy_spec (hnewline : 10 ∉ s) (hnul : 0 ∉ s) (rest : List UInt8) :
    ∀ (mem : Int → UInt8) (buf : Int) (room : Nat),
      cfgListCopy (s ++ 10 :: rest) mem buf room =
        (10 :: rest, writeAt mem buf (s.take room), buf + (s.take room).length,
          (room : Int) - (s.take room).length) := by
  induction s with
  | nil =>
      intro mem buf room
      have hnone : writeAt mem buf ([] : List UInt8) = mem := (writeAt_eq_self_iff mem buf []).mpr rfl
      rw [List.take_nil, hnone, List.nil_append, cfgListCopy, if_pos (Or.inr rfl)]
      simp
  | cons c s ih =>
      intro mem buf room
      have hc : ¬(c = 0 ∨ c = 10) := by
        rintro (rfl | rfl)
        · exact hnul List.mem_cons_self
        · exact hnewline List.mem_cons_self
      have hs := ih (fun h => hnewline (List.mem_cons_of_mem c h))
        fun h => hnul (List.mem_cons_of_mem c h)
      rw [List.cons_append, cfgListCopy, if_neg hc]
      cases room with
      | zero =>
          -- without room, characters are passed over
          rw [if_neg (by omega), hs mem buf 0, List.take_zero, List.take_zero]
      | succ room =>
          -- one character is stored, and the rest behind it
          have hwrite : writeAt mem buf (c :: s.take room) =
              writeAt (writeAt mem buf [c]) (buf + 1) (s.take room) :=
            writeAt_append mem buf [c] (s.take room)
          rw [if_pos (by omega), show ((room + 1 : Nat) : Int) - 1 = room by omega, hs,
            List.take_succ_cons, hwrite, List.length_cons]
          refine Prod.ext rfl (Prod.ext rfl (Prod.ext ?_ ?_))
          · show buf + 1 + _ = buf + _
            omega
          · show (room : Int) - _ = _ - _
            omega

/-- A call returns the buffer whatever fits. -/
theorem cfgListNext_spec (hs : ListString s) (hlen : 1 ≤ len) (rest : List UInt8) (mem : Int → UInt8) :
    cfgListNext (some (s ++ 10 :: rest)) mem len =
      ⟨some rest, if s.length + 2 ≤ len then writeAt mem 0 (s ++ [0])
        else writeAt mem 0 (s.take (len - 1).toNat), true⟩ := by
  have hhead : (s ++ 10 :: rest).headD 0 ≠ 0 := by
    cases s with
    | nil      => exact absurd rfl hs.ne
    | cons c s => exact fun h0 => hs.nul (h0 ▸ List.mem_cons_self)
  have hcopy := cfgListCopy_spec hs.newline hs.nul rest mem 0 (len - 1).toNat
  rw [Int.toNat_of_nonneg (by omega)] at hcopy
  have hten : ((10 :: rest).headD 0 : UInt8) ≠ 0 := by
    rw [List.headD_cons]
    decide
  have htake : (s.take (len - 1).toNat).length = min (len - 1).toNat s.length := List.length_take
  rw [cfgListNext, if_neg hhead, hcopy]
  simp only [if_pos hten, List.drop_succ_cons, List.drop_zero]
  by_cases hfits : s.length + 2 ≤ len
  · -- a byte is left for the NUL
    have hall : s.take (len - 1).toNat = s := List.take_of_length_le (by omega)
    have hnul : writeAt mem 0 (s ++ [0]) = writeAt (writeAt mem 0 s) (0 + s.length) [0] :=
      writeAt_append mem 0 s [0]
    rw [if_pos hfits, hall, if_pos (by omega), if_pos (by omega), hnul, decide_eq_true (by omega)]
  · -- no NUL is stored, and the buffer is returned nevertheless
    rw [if_neg hfits, if_neg (by omega), if_neg (by omega), decide_eq_true (by omega)]

/-- No call stores to the last byte or outside of the buffer. -/
theorem cfgListNext_outside (hs : ListString s) (hlen : 1 ≤ len) (rest : List UInt8) {a : Int}
    (ha : a < 0 ∨ len - 1 ≤ a) :
    (cfgListNext (some (s ++ 10 :: rest)) mem len).mem a = mem a := by
  rw [cfgListNext_spec hs hlen]
  show (if _ then _ else _ : Int → UInt8) a = mem a
  have htake : (s.take (len - 1).toNat).length = min (len - 1).toNat s.length := List.length_take
  split
  · next hfits =>
      have hlength : (s ++ [0]).length = s.length + 1 := List.length_append
      rcases ha with ha | ha
      · exact writeAt_of_lt mem _ ha
      · exact writeAt_of_ge mem _ (by omega)
  · rcases ha with ha | ha
    · exact writeAt_of_lt mem _ ha
    · exact writeAt_of_ge mem _ (by omega)

/-- A call does right by a string that leaves a byte over, and by one that fits exactly where the last
byte of the buffer is 0. -/
theorem nextRight_iff (hs : ListString s) (hlen : 1 ≤ len) (rest : List UInt8) (mem : Int → UInt8) :
    NextRight len s mem (cfgListNext (some (s ++ 10 :: rest)) mem len) ↔
      s.length + 2 ≤ len ∨ s.length + 1 = len ∧ mem (len - 1) = 0 := by
  have hret : (cfgListNext (some (s ++ 10 :: rest)) mem len).ret = true := by
    rw [cfgListNext_spec hs hlen]
  have houtside : ∀ a, a < 0 ∨ len ≤ a →
      (cfgListNext (some (s ++ 10 :: rest)) mem len).mem a = mem a :=
    fun a ha => cfgListNext_outside hs hlen rest (by omega)
  -- what stands behind the characters of a string that fits exactly
  have hlast : s.length + 1 = len →
      (cfgListNext (some (s ++ 10 :: rest)) mem len).mem s.length = mem (len - 1) := by
    intro hexact
    rw [cfgListNext_outside hs hlen rest (by omega)]
    exact congrArg mem (by omega)
  constructor
  · intro h
    by_cases hfits : s.length + 1 ≤ len
    · by_cases hover : s.length + 2 ≤ len
      · exact Or.inl hover
      · have hexact : s.length + 1 = len := by omega
        refine Or.inr ⟨hexact, ?_⟩
        -- the byte that should be the NUL is the last one of the buffer
        have hread := (h.fits hfits).2
        rw [readAt_add] at hread
        have hnul := (List.append_inj hread (length_readAt ..)).2
        rw [readAt_succ, Int.zero_add, hlast hexact] at hnul
        exact (List.cons.inj hnul).1
    · exact absurd (hret.symm.trans (h.long (by omega))) (by decide)
  · intro h
    refine ⟨fun _ => ⟨hret, ?_⟩, fun hlong => absurd hlong (by omega), houtside⟩
    rcases h with hover | ⟨hexact, hzero⟩
    · rw [cfgListNext_spec hs hlen]
      simp only [if_pos hover]
      have hread := readAt_writeAt mem 0 (s ++ [0])
      rwa [List.length_append] at hread
    · -- the characters are stored, and the 0 behind them was there before
      have hall : s.take (len - 1).toNat = s := List.take_of_length_le (by omega)
      have hchars : readAt (cfgListNext (some (s ++ 10 :: rest)) mem len).mem 0 s.length = s := by
        rw [cfgListNext_spec hs hlen]
        simp only [if_neg (show ¬(s.length + 2 ≤ len) by omega), hall]
        exact readAt_writeAt mem 0 s
      rw [readAt_add, hchars, readAt_succ, Int.zero_add, hlast hexact, hzero]
      rfl

end Next

/-! ## Runs -/

section Runs

variable {strs : List (List UInt8)} {len : Int}

/-- The strings of a text are read back exactly when each of them is. -/
theorem listReadBack_iff (hstrs : ∀ s ∈ strs, ListString s) (hlen : 1 ≤ len) (junk : List UInt8)
    (mem : Int → UInt8) :
    ListReadBack len strs (some (linesText strs ++ 0 :: junk)) mem ↔
      ∀ s ∈ strs, s.length + 2 ≤ len ∨ s.length + 1 = len ∧ mem (len - 1) = 0 := by
  induction strs generalizing mem with
  | nil =>
      refine iff_of_true ⟨rfl, fun _ _ => rfl⟩ fun s hs => ?_
      exact absurd hs List.not_mem_nil
  | cons s strs ih =>
      have hs := hstrs s List.mem_cons_self
      -- the first string ends at its newline, and the text of the others is behind it
      have htext : linesText (s :: strs) ++ 0 :: junk = s ++ 10 :: (linesText strs ++ 0 :: junk) := by
        rw [linesText_cons, List.append_assoc, List.append_assoc]
        rfl
      rw [ListReadBack, htext, nextRight_iff hs hlen]
      have hq : (cfgListNext (some (s ++ 10 :: (linesText strs ++ 0 :: junk))) mem len).q =
          some (linesText strs ++ 0 :: junk) := by
        rw [cfgListNext_spec hs hlen]
      rw [hq, ih fun s' hs' => hstrs s' (List.mem_cons_of_mem s hs'),
        cfgListNext_outside hs hlen _ (Or.inr (Int.le_refl _)), List.forall_mem_cons]

/-! ## Lists that `cfg_list_pack` packs -/

/-- Calls of `cfg_list_pack` for the strings of a list. -/
def cfgListPacks (b : SnBuf) (strs : List (List UInt8)) : SnBuf :=
  strs.foldl (fun b s => (cfgListPack b s).1) b

theorem cfgListPack_eq (b : SnBuf) (s : List UInt8) : (cfgListPack b s).1 = b.add (s ++ [10]) := by
  rw [cfgListPack]
  exact if_pos (by rw [List.length_append]; exact Nat.succ_pos _)

/-- Strings that fit are lines behind what is there. -/
theorem cfgListPacks_holds {n : Int} (hn : n < 2 ^ 31) (strs : List (List UInt8)) :
    ∀ {b : SnBuf} {text : List UInt8}, b.Holds 0 n text →
      ((text ++ linesText strs).length : Int) < n →
      (cfgListPacks b strs).Holds 0 n (text ++ linesText strs) := by
  induction strs with
  | nil =>
      intro b text h _
      rw [linesText, List.flatMap_nil, List.append_nil]
      exact h
  | cons s strs ih =>
      intro b text h hroom
      rw [linesText_cons, ← List.append_assoc] at hroom ⊢
      rw [cfgListPacks, List.foldl_cons, cfgListPack_eq]
      have hfit : text.length + (s ++ [10]).length < n := by
        rw [List.length_append, List.length_append] at hroom
        omega
      exact ih (h.toFilled.add hfit hn) hroom

/-- The buffer of a list with a string in it: the lines, and a NUL. -/
theorem readAt_cfgListPacks {n : Int} (hn : n < 2 ^ 31) (s : List UInt8) (strs : List (List UInt8))
    (hroom : ((linesText (s :: strs)).length : Int) < n) (mem : Int → UInt8) :
    ∃ junk, readAt (cfgListPacks ⟨mem, 0, n, []⟩ (s :: strs)).mem 0 n.toNat =
      linesText (s :: strs) ++ 0 :: junk := by
  have hstart : (⟨mem, 0, n, []⟩ : SnBuf).Filled 0 n [] := ⟨rfl, (Int.sub_zero n).symm, rfl⟩
  have hfit : (([] : List UInt8).length : Int) + (s ++ [10]).length < n := by
    rw [linesText_cons, List.length_append] at hroom
    rw [List.length_nil]
    omega
  -- the first call is what stores a NUL at all
  have hfirst := hstart.add hfit hn
  have hholds := cfgListPacks_holds hn strs hfirst (by rwa [List.nil_append, ← linesText_cons])
  rw [List.nil_append, ← linesText_cons] at hholds
  have hpacks : cfgListPacks ⟨mem, 0, n, []⟩ (s :: strs) =
      cfgListPacks ((⟨mem, 0, n, []⟩ : SnBuf).add (s ++ [10])) strs := by
    rw [cfgListPacks, List.foldl_cons, cfgListPack_eq]
    rfl
  rw [hpacks]
  obtain ⟨k, hk⟩ : ∃ k, n.toNat = (linesText (s :: strs)).length + (k + 1) :=
    ⟨n.toNat - (linesText (s :: strs)).length - 1, by omega⟩
  rw [hk, readAt_add, readAt_succ, hholds.chars, hholds.nul]
  exact ⟨_, rfl⟩

/-- The loop of `cfg_list_next` does not take more room than there is. -/
theorem cfgListCopy_len (p : List UInt8) :
    ∀ (mem : Int → UInt8) (buf len : Int), 0 ≤ len → 0 ≤ (cfgListCopy p mem buf len).2.2.2 := by
  induction p with
  | nil => exact fun _ _ _ h => h
  | cons c p ih =>
      intro mem buf len hlen
      rw [cfgListCopy]
      split
      · exact hlen
      · split
        · exact ih _ _ _ (by omega)
        · exact ih _ _ _ hlen

/-- The end of a list is where there is a NUL. -/
theorem cfgListNext_ret (p : List UInt8) (mem : Int → UInt8) (hlen : 1 ≤ len) :
    (cfgListNext (some p) mem len).ret = false ↔ p.headD 0 = 0 := by
  constructor
  · intro h
    by_contra hne
    have hroom := cfgListCopy_len p mem 0 (len - 1) (by omega)
    rw [cfgListNext, if_neg hne] at h
    generalize cfgListCopy p mem 0 (len - 1) = r at h hroom
    obtain ⟨p', mem', buf', len'⟩ := r
    have hneg : ¬0 ≤ if 0 < len' then len' - 1 else len' := of_decide_eq_false h
    have hroom' : 0 ≤ len' := hroom
    split at hneg <;> omega
  · intro h
    rw [cfgListNext, if_pos h]

end Runs

/-- A packed list is read back exactly when each string is at least two bytes shorter than the buffer,
or one byte shorter where the last byte of the buffer is 0 (and, for no string at all, where the list
starts with a NUL). -/
theorem cfgList_readBack_iff {strs : List (List UInt8)} (hstrs : ∀ s ∈ strs, ListString s) {n len : Int}
    (hroom : ((linesText strs).length : Int) < n) (hn : n < 2 ^ 31) (hlen : 1 ≤ len)
    (mem out : Int → UInt8) :
    ListReadBack len strs (some (readAt (cfgListPacks ⟨mem, 0, n, []⟩ strs).mem 0 n.toNat)) out ↔
      (strs = [] → mem 0 = 0) ∧
        ∀ s ∈ strs, s.length + 2 ≤ len ∨ s.length + 1 = len ∧ out (len - 1) = 0 := by
  cases strs with
  | nil =>
      -- nothing has been stored, so the buffer has what was in it
      obtain ⟨k, hk⟩ : ∃ k, n.toNat = k + 1 := ⟨n.toNat - 1, by
        have hpos : (0 : Int) < n := hroom
        omega⟩
      have hhead : (readAt (cfgListPacks ⟨mem, 0, n, []⟩ []).mem 0 n.toNat).headD 0 = mem 0 := by
        rw [hk, readAt_succ]
        rfl
      rw [ListReadBack, cfgListNext_ret _ out hlen, hhead]
      constructor
      · exact fun h => ⟨fun _ => h.1, fun s hs => absurd hs List.not_mem_nil⟩
      · intro h
        have hzero := h.1 rfl
        refine ⟨hzero, fun a _ => ?_⟩
        rw [cfgListNext, if_pos (hhead.trans hzero)]
  | cons s strs =>
      obtain ⟨junk, hjunk⟩ := readAt_cfgListPacks hn s strs hroom mem
      rw [hjunk, listReadBack_iff hstrs hlen]
      exact ⟨fun h => ⟨fun hnil => absurd hnil (List.cons_ne_nil s strs), h⟩, fun h => h.2⟩

/-- Two strings in a buffer of four bytes. -/
theorem cfgList_readBack_iff_two :
    ListReadBack 4 [bytes "ab", bytes "c"] (some (readAt (cfgListPacks ⟨fun _ => 1, 0, 8, []⟩
      [bytes "ab", bytes "c"]).mem 0 (8 : Int).toNat)) (fun _ => 1) ↔
      (([bytes "ab", bytes "c"] : List (List UInt8)) = [] → (1 : UInt8) = 0) ∧
        ∀ s ∈ [bytes "ab", bytes "c"],
          s.length + 2 ≤ (4 : Int) ∨ s.length + 1 = (4 : Int) ∧ (1 : UInt8) = 0 := by
  refine cfgList_readBack_iff (fun s hs => ?_) (by decide) (by decide) (by decide) _ _
  simp only [List.mem_cons, List.not_mem_nil, or_false] at hs
  rcases hs with rfl | rfl <;> exact ⟨by decide, by decide, by decide⟩

/-- A string of two characters in a buffer of two bytes comes back as its first one, and in one of three
bytes without a NUL. -/
theorem cfgList_not_readBack :
    ¬ListReadBack 2 [bytes "ab"] (some (readAt (cfgListPacks ⟨fun _ => 1, 0, 8, []⟩
      [bytes "ab"]).mem 0 (8 : Int).toNat)) (fun _ => 0) ∧
    ¬ListReadBack 3 [bytes "ab"] (some (readAt (cfgListPacks ⟨fun _ => 1, 0, 8, []⟩
      [bytes "ab"]).mem 0 (8 : Int).toNat)) (fun _ => 1) := by
  constructor
  · intro h
    exact absurd (h.1.long (by decide)) (by decide)
  · intro h
    exact absurd (h.1.fits (by decide)).2 (by decide)

end Bklib
