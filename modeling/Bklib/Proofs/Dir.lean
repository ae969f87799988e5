import Mathlib.Data.List.DropRight
import Mathlib.Data.List.GetD
import Bklib.Model.Dir

/-!
# `Bklib.Proofs.Dir`: the last component of a path

A path with a component in it is what stands before the last component, that component, and the
separators behind it (`PathParts`). `dir_basename` returns the component together with the separators,
so that it is right exactly for a path without any, and for none does it stay the same when
separators are appended (`dirBasename_iff`).
-/

set_option autoImplicit false

namespace Bklib

/-- The last component of a path that is not empty. -/
def lastComponent (path : List UInt8) : Option (List UInt8) :=
  ((path.splitOnP (· ∈ pathSep)).filter (· ≠ [])).getLast?

/-- What `dir_basename` should make of a path in a buffer of `len` bytes, and of the path with `seps`
behind it. -/
structure IsBasename (path seps : List UInt8) (len : Nat) : Prop where
  last  : lastComponent path = some (cstr (dirBasename path len))
  noSep : ∀ c ∈ cstr (dirBasename path len), c ∉ pathSep
  same  : cstr (dirBasename (path ++ seps) len) = cstr (dirBasename path len)

/-! ## The parts of a path -/

/-- A path as the text before its last component, the component, and the separators behind it. -/
structure PathParts (path pre comp seps : List UInt8) : Prop where
  split  : path = pre ++ comp ++ seps
  before : ∀ c, pre.getLast? = some c → c ∈ pathSep
  inside : ∀ c ∈ comp, c ∉ pathSep
  behind : ∀ c ∈ seps, c ∈ pathSep
  ne     : comp ≠ []

section Parts

variable {path pre comp seps more : List UInt8}

/-- Every path with a component has its parts. -/
theorem pathParts_exists (h : ∃ c ∈ path, c ∉ pathSep) :
    ∃ pre comp seps, PathParts path pre comp seps := by
  let sep : UInt8 → Bool := fun c => decide (c ∈ pathSep)
  let notSep : UInt8 → Bool := fun c => decide (c ∉ pathSep)
  let rest := path.rdropWhile sep
  -- `rest` is the path without the separators at its end
  have hrest : rest ≠ [] := by
    obtain ⟨c, hc, hnot⟩ := h
    intro hnil
    exact hnot (of_decide_eq_true (List.rdropWhile_eq_nil_iff.mp hnil c hc))
  refine ⟨rest.rdropWhile notSep, rest.rtakeWhile notSep, path.rtakeWhile sep, ?_⟩
  constructor
  · rw [List.rdropWhile_append_rtakeWhile, List.rdropWhile_append_rtakeWhile]
  · intro c hc
    have hne : rest.rdropWhile notSep ≠ [] := fun hnil => by simp [hnil] at hc
    have hnot := List.rdropWhile_last_not notSep rest hne
    rw [List.getLast?_eq_some_getLast hne] at hc
    rw [Option.some.inj hc] at hnot
    -- the text before the component ends where a separator has stopped the walk
    by_contra hsep
    exact hnot (decide_eq_true hsep)
  · exact fun c hc => of_decide_eq_true (List.mem_rtakeWhile_imp (p := notSep) hc)
  · exact fun c hc => of_decide_eq_true (List.mem_rtakeWhile_imp (p := sep) hc)
  · intro hnil
    -- the last character of `rest` is no separator
    have hlast := List.rdropWhile_last_not sep path hrest
    have hnot := List.rtakeWhile_eq_nil_iff.mp hnil hrest
    exact hnot (decide_eq_true fun hsep => hlast (decide_eq_true hsep))

/-- Separators behind a path leave its last component alone. -/
theorem PathParts.append (h : PathParts path pre comp seps) (hmore : ∀ c ∈ more, c ∈ pathSep) :
    PathParts (path ++ more) pre comp (seps ++ more) where
  split      := by rw [h.split, List.append_assoc (pre ++ comp)]
  before     := h.before
  inside     := h.inside
  behind c hc := (List.mem_append.mp hc).elim (h.behind c) (hmore c)
  ne         := h.ne

/-- Separators alone are no component. -/
theorem filter_splitOnP_seps (h : ∀ c ∈ seps, c ∈ pathSep) :
    (seps.splitOnP (· ∈ pathSep)).filter (· ≠ []) = [] := by
  induction seps with
  | nil => rfl
  | cons c seps ih =>
      have hc : decide (c ∈ pathSep) = true := decide_eq_true (h c List.mem_cons_self)
      have hsplit := List.splitOnP_append_cons (p := fun c => decide (c ∈ pathSep)) [] seps hc
      rw [List.nil_append] at hsplit
      rw [hsplit, List.splitOnP_nil, List.filter_append, ih fun d hd => h d (List.mem_cons_of_mem c hd)]
      rfl

/-- Behind the text before it, the last component is the only one. -/
theorem PathParts.filter_splitOnP (h : PathParts path pre comp seps) :
    ((comp ++ seps).splitOnP (· ∈ pathSep)).filter (· ≠ []) = [comp] := by
  have hinside : ∀ c ∈ comp, decide (c ∈ pathSep) = false :=
    fun c hc => decide_eq_false (h.inside c hc)
  have hcomp : [comp].filter (· ≠ []) = [comp] := by
    rw [List.filter_cons_of_pos (by simpa using h.ne), List.filter_nil]
  cases hseps : seps with
  | nil =>
      -- nothing behind the component, which is the only one of its text
      rw [List.append_nil, List.splitOnP_eq_singleton hinside, hcomp]
  | cons c rest =>
      have hbehind := h.behind
      rw [hseps] at hbehind
      rw [List.splitOnP_append_cons_of_forall_mem hinside c
        (decide_eq_true (hbehind c List.mem_cons_self)), ← List.singleton_append, List.filter_append,
        hcomp, filter_splitOnP_seps fun d hd => hbehind d (List.mem_cons_of_mem c hd),
        List.append_nil]

/-- The last component is the part the path was cut at. -/
theorem PathParts.lastComponent_eq (h : PathParts path pre comp seps) :
    lastComponent path = some comp := by
  rw [lastComponent, h.split, List.append_assoc]
  rcases List.eq_nil_or_concat pre with rfl | ⟨pre', c, rfl⟩
  · rw [List.nil_append, h.filter_splitOnP]
    rfl
  · -- the separator in front of the component ends the one before
    have hc : decide (c ∈ pathSep) = true :=
      decide_eq_true (h.before c (by rw [List.concat_eq_append, List.getLast?_concat]))
    rw [List.concat_eq_append, List.append_assoc, List.singleton_append,
      List.splitOnP_append_cons pre' (comp ++ seps) hc, List.filter_append, h.filter_splitOnP,
      List.getLast?_concat]

end Parts

/-! ## The pointer -/

section Pointer

variable {test : UInt8 → Bool} {path : List UInt8} {a b : Nat}

/-- Back over characters that pass the test, to one that does not or to the start. -/
theorem seekBack_eq (hab : a ≤ b) (hpass : ∀ i, a < i → i ≤ b → test (path.getD i 0) = true)
    (hstop : a = 0 ∨ test (path.getD a 0) = false) : seekBack test path b = a := by
  induction b, hab using Nat.le_induction with
  | base =>
      cases a with
      | zero   => rfl
      | succ a =>
          have hfail := hstop.resolve_left (Nat.succ_ne_zero a)
          rw [seekBack, hfail, if_neg Bool.false_ne_true]
  | succ b hab ih =>
      rw [seekBack, if_pos (hpass (b + 1) (Nat.lt_succ_of_le hab) (Nat.le_refl _))]
      exact ih fun i hlo hhi => hpass i hlo (Nat.le_succ_of_le hhi)

/-- In a C string, `strchr` finds the separators. -/
theorem strchrFinds_of_ne {c : UInt8} (h : c ≠ 0) :
    strchrFinds pathSep c = decide (c ∈ pathSep) := by
  simp [strchrFinds, h]

end Pointer

section Basename

variable {path pre comp seps : List UInt8}

/-- The characters of the component, by their place in the path. -/
theorem PathParts.getD_comp (h : PathParts path pre comp seps) (hnul : 0 ∉ path) {i : Nat}
    (hlo : pre.length ≤ i) (hhi : i < pre.length + comp.length) :
    strchrFinds pathSep (path.getD i 0) = false := by
  have hi : i - pre.length < comp.length := by omega
  have hget : path.getD i 0 = comp[i - pre.length] := by
    rw [List.getD_eq_getElem?_getD, h.split, List.append_assoc, List.getElem?_append_right hlo,
      List.getElem?_append_left hi, List.getElem?_eq_getElem hi, Option.getD_some]
  have hmem : comp[i - pre.length] ∈ path := by
    rw [h.split]
    simp
  rw [hget, strchrFinds_of_ne fun h0 => hnul (h0 ▸ hmem)]
  exact decide_eq_false (h.inside _ (List.getElem_mem hi))

/-- From the component on, there are separators only, up to and including the NUL. -/
theorem PathParts.getD_behind (h : PathParts path pre comp seps) {i : Nat}
    (hlo : pre.length + comp.length ≤ i) : strchrFinds pathSep (path.getD i 0) = true := by
  have hget : path.getD i 0 = seps.getD (i - (pre.length + comp.length)) 0 := by
    rw [List.getD_eq_getElem?_getD, List.getD_eq_getElem?_getD, h.split,
      List.getElem?_append_right (by rw [List.length_append]; exact hlo), List.length_append]
  rw [hget, strchrFinds]
  by_cases hi : i - (pre.length + comp.length) < seps.length
  · rw [List.getD_eq_getElem _ _ hi]
    simp [h.behind _ (List.getElem_mem hi)]
  · rw [List.getD_eq_default _ _ (Nat.le_of_not_lt hi)]
    simp

/-- Right before the component there is a separator, if there is anything. -/
theorem PathParts.getD_before (h : PathParts path pre comp seps) (hpos : 0 < pre.length) :
    strchrFinds pathSep (path.getD (pre.length - 1) 0) = true := by
  rcases List.eq_nil_or_concat pre with rfl | ⟨pre', c, rfl⟩
  · exact absurd hpos (Nat.lt_irrefl 0)
  · have hc := h.before c (by rw [List.concat_eq_append, List.getLast?_concat])
    have hget : path.getD ((pre'.concat c).length - 1) 0 = c := by
      rw [h.split]
      simp
    rw [hget, strchrFinds]
    simp [hc]

/-- The pointer ends up at the component. -/
theorem PathParts.dirBasename_eq (h : PathParts path pre comp seps) (hnul : 0 ∉ path) (len : Nat) :
    dirBasename path len = strncpy (comp ++ seps) len := by
  have hne := List.length_pos_iff.mpr h.ne
  have hlen : path.length = pre.length + comp.length + seps.length := by
    rw [h.split, List.length_append, List.length_append]
  -- the first loop stops at the last character of the component, the second one right in front of it
  have hskip : skipSeps path path.length = pre.length + comp.length - 1 :=
    seekBack_eq (by omega) (fun i hlo _ => h.getD_behind (by omega))
      (Or.inr (h.getD_comp hnul (by omega) (by omega)))
  have hseek : seekSep path (pre.length + comp.length - 1) = pre.length - 1 := by
    refine seekBack_eq (by omega) (fun i hlo hhi => ?_) ?_
    · rw [h.getD_comp hnul (by omega) (by omega)]
      rfl
    · by_cases hpos : 0 < pre.length
      · rw [h.getD_before hpos]
        exact Or.inr rfl
      · exact Or.inl (by omega)
  -- a separator in front is stepped over, and at the start of the path there is none
  have hp : (if strchrFinds pathSep (path.getD (pre.length - 1) 0) = true then pre.length - 1 + 1
      else pre.length - 1) = pre.length := by
    by_cases hpos : 0 < pre.length
    · rw [if_pos (h.getD_before hpos)]
      omega
    · rw [if_neg (by rw [h.getD_comp hnul (by omega) (by omega)]; exact Bool.false_ne_true)]
      omega
  have hdrop : path.drop pre.length = comp ++ seps := by
    rw [h.split, List.append_assoc, List.drop_left]
  rw [dirBasename, hskip, hseek]
  simp only [hp, hdrop]

/-- The result as a C string. -/
theorem PathParts.cstr_dirBasename (h : PathParts path pre comp seps) (hnul : 0 ∉ path) (len : Nat)
    (hlen : path.length < len) : cstr (dirBasename path len) = comp ++ seps := by
  have hle : (comp ++ seps).length ≤ path.length := by
    rw [h.split, List.append_assoc]
    exact (List.suffix_append pre (comp ++ seps)).length_le
  have hnul' : 0 ∉ comp ++ seps := by
    rw [h.split, List.append_assoc] at hnul
    exact fun h0 => hnul (List.mem_append_right pre h0)
  obtain ⟨n, hn⟩ : ∃ n, len - (comp ++ seps).length = n + 1 :=
    ⟨len - (comp ++ seps).length - 1, by omega⟩
  rw [h.dirBasename_eq hnul, strncpy, List.take_of_length_le (by omega), hn, List.replicate_succ]
  exact cstr_append_nul hnul' _

end Basename

/-- `dir_basename` returns the last component, whatever separators are appended, exactly when the path
does not end in a separator and none is appended. -/
theorem dirBasename_iff {path seps : List UInt8} {len : Nat} (hnul : 0 ∉ path)
    (hcomp : ∃ c ∈ path, c ∉ pathSep) (hseps : ∀ c ∈ seps, c ∈ pathSep)
    (hlen : path.length + seps.length < len) :
    IsBasename path seps len ↔ (∀ c, path.getLast? = some c → c ∉ pathSep) ∧ seps = [] := by
  obtain ⟨pre, comp, behind, hparts⟩ := pathParts_exists hcomp
  have hresult := hparts.cstr_dirBasename hnul len (by omega)
  have hnul' : 0 ∉ path ++ seps := by
    intro h0
    rcases List.mem_append.mp h0 with h0 | h0
    · exact hnul h0
    · exact absurd (hseps 0 h0) (by decide)
  have hresult' := (hparts.append hseps).cstr_dirBasename hnul' len
    (by rw [List.length_append]; exact hlen)
  constructor
  · intro h
    have hlast := h.last
    rw [hparts.lastComponent_eq, hresult, Option.some.injEq] at hlast
    -- what is returned is the component with the separators behind it
    have hbehind : behind = [] := List.append_right_eq_self.mp hlast.symm
    have hsame := h.same
    rw [hresult', hresult, List.append_cancel_left_eq, hbehind, List.nil_append] at hsame
    refine ⟨fun c hc => ?_, hsame⟩
    -- the last character is one of the component
    rw [hparts.split, hbehind, List.append_nil, List.getLast?_append_of_ne_nil _ hparts.ne] at hc
    exact hparts.inside c (List.mem_of_getLast? hc)
  · rintro ⟨hlast, rfl⟩
    have hbehind : behind = [] := by
      by_contra hne
      have hc := List.getLast?_eq_some_getLast hne
      have hpath : path.getLast? = some (behind.getLast hne) := by
        rw [hparts.split, List.getLast?_append_of_ne_nil _ hne]
        exact hc
      exact hlast _ hpath (hparts.behind _ (List.getLast_mem hne))
    rw [hbehind, List.append_nil] at hresult
    constructor
    · rw [hparts.lastComponent_eq, hresult]
    · rw [hresult]
      exact hparts.inside
    · rw [List.append_nil]

/-- A path with a separator in front of its last component, and none appended. -/
theorem dirBasename_iff_plain :
    IsBasename (bytes "a/b") [] 8 ↔ (∀ c, (bytes "a/b").getLast? = some c → c ∉ pathSep) ∧
      ([] : List UInt8) = [] :=
  dirBasename_iff (by decide) ⟨97, by decide, by decide +kernel⟩ (by decide +kernel)
    (by decide)

/-- A separator at the end becomes part of the result. -/
theorem dirBasename_trailing :
    ¬IsBasename (bytes "a/b/") [] 8 ∧ ¬IsBasename (bytes "a/b") (bytes "/") 8 :=
  ⟨fun h => absurd h.last (by decide), fun h => absurd h.same (by decide)⟩

end Bklib
