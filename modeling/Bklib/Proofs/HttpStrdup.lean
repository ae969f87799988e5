import Mathlib.Data.List.GetD
import Mathlib.Data.List.TakeWhile
import Mathlib.Order.Basic
import Bklib.Model.Http

/-!
# `Bklib.Proofs.HttpStrdup`: what `http_strdup` keeps

`http_strdup` copies a token without the space around it, without carriage returns, and up to the
first NUL. A token of one character is lost altogether. `httpStrdup_append_eq_some_iff` says exactly
which strings come back as they went in, also when the token goes on with the end of its line.
-/

set_option autoImplicit false

namespace Bklib

/-! ## The loop over trailing space -/

/-- Trimming goes back only. -/
theorem httpTrim_le (str : List UInt8) (p : Nat) : httpTrim str p ≤ p := by
  induction p with
  | zero => exact Nat.le_refl _
  | succ p ih =>
      rw [httpTrim]
      split
      · exact Nat.le_succ_of_le ih
      · exact Nat.le_refl _

/-- The loop ends at the start of the string or at a character that is not a space. -/
theorem httpTrim_stop (str : List UInt8) (p : Nat) :
    httpTrim str p = 0 ∨ isspace (str.getD (httpTrim str p) 0) = false := by
  induction p with
  | zero => exact Or.inl rfl
  | succ p ih =>
      rw [httpTrim]
      split
      · exact ih
      next h => exact Or.inr (by simpa using h)

/-- Trimming a place inside a text does not look behind it. -/
theorem httpTrim_append_left (str sp : List UInt8) {p : Nat} (h : p < str.length) :
    httpTrim (str ++ sp) p = httpTrim str p := by
  induction p with
  | zero => rfl
  | succ p ih =>
      rw [httpTrim, httpTrim, ih (by omega), List.getD_append _ _ _ _ h]

/-- The loop passes over trailing space. -/
theorem httpTrim_append_right {str sp : List UInt8} (hstr : str ≠ [])
    (hsp : ∀ c ∈ sp, isspace c = true) :
    ∀ {k}, k ≤ sp.length →
      httpTrim (str ++ sp) (str.length + k - 1) = httpTrim str (str.length - 1) := by
  intro k
  have hpos : 0 < str.length := List.length_pos_iff.mpr hstr
  induction k with
  | zero =>
      intro _
      exact httpTrim_append_left str sp (by omega)
  | succ k ih =>
      intro hk
      -- the character at this place is one of the spaces
      have hlast : isspace ((str ++ sp).getD (str.length + k) 0) = true := by
        rw [List.getD_append_right _ _ _ _ (by omega), List.getD_eq_getElem _ _ (by omega)]
        exact hsp _ (List.getElem_mem _)
      obtain ⟨p, hp⟩ : ∃ p, str.length + k = p + 1 := ⟨str.length + k - 1, by omega⟩
      rw [show str.length + (k + 1) - 1 = p + 1 by omega, httpTrim, ← hp, hlast, if_pos rfl,
        ← ih (by omega), hp]
      rfl

theorem httpTrim_eq_self {str : List UInt8} {p : Nat} (h : isspace (str.getD p 0) = false) :
    httpTrim str p = p := by
  cases p with
  | zero => rfl
  | succ p => rw [httpTrim, h, if_neg (by simp)]

/-! ## The piece that is copied -/

theorem httpStrdupCut_isPrefix (str : List UInt8) : httpStrdupCut str <+: str :=
  List.take_prefix _ _

/-- Spaces behind a text change nothing. -/
theorem httpStrdupCut_append {str sp : List UInt8} (hstr : str ≠ [])
    (hsp : ∀ c ∈ sp, isspace c = true) :
    httpStrdupCut (str ++ sp) = httpStrdupCut str := by
  have hpos : 0 < str.length := List.length_pos_iff.mpr hstr
  have hp : httpTrim (str ++ sp) ((str ++ sp).length - 1) = httpTrim str (str.length - 1) := by
    rw [List.length_append]
    exact httpTrim_append_right hstr hsp (Nat.le_refl _)
  have hlt : httpTrim str (str.length - 1) < str.length := by
    have := httpTrim_le str (str.length - 1)
    omega
  simp only [httpStrdupCut, hp, List.getD_append _ _ _ _ hlt]
  rw [List.take_append_of_le_length]
  split <;> omega

/-- What is copied is nothing, or two characters or more that end in one that is not a space. -/
theorem httpStrdupCut_spec (str : List UInt8) :
    httpStrdupCut str = [] ∨
      (2 ≤ (httpStrdupCut str).length ∧
        ∀ c, (httpStrdupCut str).getLast? = some c → isspace c = false) := by
  have hle := httpTrim_le str (str.length - 1)
  unfold httpStrdupCut
  generalize hp : httpTrim str (str.length - 1) = p at hle
  rcases Nat.eq_zero_or_pos p with h0 | hpos
  · left
    rw [h0]
    simp
  · right
    have hstop : isspace (str.getD p 0) = false :=
      hp ▸ (httpTrim_stop str (str.length - 1)).resolve_left (by omega)
    have hp' : p < str.length := by omega
    dsimp only
    rw [if_pos ⟨hpos, by rw [hstop]; rfl⟩]
    constructor
    · rw [List.length_take]
      omega
    · intro c hc
      rw [List.getLast?_take, if_neg (by omega), Nat.add_sub_cancel, List.getElem?_eq_getElem hp']
        at hc
      rw [List.getD_eq_getElem _ _ hp'] at hstop
      simp only [Option.some_or, Option.some.injEq] at hc
      rwa [← hc]

/-- A string of two characters or more that ends in one that is not a space is copied whole. -/
theorem httpStrdupCut_eq_self {str : List UInt8} (hlen : 2 ≤ str.length)
    (hlast : ∀ c, str.getLast? = some c → isspace c = false) : httpStrdupCut str = str := by
  have hend : isspace (str.getD (str.length - 1) 0) = false := by
    refine hlast _ ?_
    rw [List.getLast?_eq_getElem?, List.getD_eq_getElem?_getD,
      List.getElem?_eq_getElem (by omega : str.length - 1 < str.length)]
    rfl
  rw [httpStrdupCut, httpTrim_eq_self hend, if_pos ⟨by omega, by rw [hend]; rfl⟩]
  exact List.take_of_length_le (by omega)

/-! ## The copy -/

theorem cstr_length_le (mem : List UInt8) : (cstr mem).length ≤ mem.length :=
  (List.takeWhile_prefix _).length_le

/-- A copy is as long as what was copied only when nothing was dropped from it. -/
theorem cstr_filter_eq_self {l : List UInt8}
    (h : l.length ≤ (cstr (l.filter (· ≠ 13))).length) :
    cstr (l.filter (· ≠ 13)) = l ∧ ∀ c ∈ l, c ≠ 0 ∧ c ≠ 13 := by
  have hfilter : l.filter (· ≠ 13) = l := by
    refine List.filter_sublist.eq_of_length_le ?_
    exact h.trans (cstr_length_le _)
  rw [hfilter] at h
  have hcstr : cstr (l.filter (· ≠ 13)) = l := by
    rw [hfilter]
    exact (List.takeWhile_prefix _).eq_of_length_le h
  refine ⟨hcstr, fun c hc => ⟨mem_cstr_ne (hcstr ▸ hc), ?_⟩⟩
  have hc' : c ∈ l.filter (· ≠ 13) := by rwa [hfilter]
  simpa using List.of_mem_filter hc'

/-- Without a length that does not fit, the space behind a token makes no difference. -/
theorem httpStrdup_append {v sp : List UInt8} (hlen : v.length + sp.length < 2 ^ 31)
    (hsp : ∀ c ∈ sp, isspace c = true) :
    httpStrdup (v ++ sp) = some (cstr ((httpStrdupCut (v.dropWhile isspace)).filter (· ≠ 13))) := by
  have hint : natToInt32 ((v ++ sp).length : Nat) = ((v ++ sp).length : Nat) := by
    rw [List.length_append]
    exact natToInt32_eq_self hlen
  have htake : (v ++ sp).take ((v ++ sp).length : Int).toNat = v ++ sp :=
    List.take_of_length_le (by omega)
  unfold httpStrdup
  dsimp only
  rw [hint, if_neg (by omega), htake, List.dropWhile_append]
  split
  next hnil =>
    have hv : v.dropWhile isspace = [] := List.isEmpty_iff.mp hnil
    have hspace : sp.dropWhile isspace = [] := List.dropWhile_eq_nil_iff.mpr hsp
    rw [hv, hspace]
  next hne =>
    rw [httpStrdupCut_append (fun h => hne (by rw [h]; rfl)) hsp]

/-- What can be told of a copy whatever the length: it fits an `int`. -/
theorem httpStrdup_length {str r : List UInt8} (h : httpStrdup str = some r) :
    0 ≤ natToInt32 str.length ∧ (r.length : Int) ≤ natToInt32 str.length := by
  unfold httpStrdup at h
  dsimp only at h
  split at h
  · exact absurd h (by simp)
  next hneg =>
    rw [Option.some.injEq] at h
    have h1 := cstr_length_le
      ((httpStrdupCut ((str.take (natToInt32 str.length).toNat).dropWhile isspace)).filter (· ≠ 13))
    have h2 := List.length_filter_le (fun c => decide (c ≠ 13))
      (httpStrdupCut ((str.take (natToInt32 str.length).toNat).dropWhile isspace))
    have h3 := (httpStrdupCut_isPrefix
      ((str.take (natToInt32 str.length).toNat).dropWhile isspace)).length_le
    have h4 := (List.dropWhile_suffix (l := str.take (natToInt32 str.length).toNat)
      isspace).length_le
    have h5 := List.length_take_le (natToInt32 str.length).toNat str
    rw [h] at h1
    omega

/-- A copy does not start with a space. -/
theorem httpStrdup_head {str r : List UInt8} (h : httpStrdup str = some r) {c : UInt8}
    (hc : r.head? = some c) : isspace c = false := by
  unfold httpStrdup at h
  dsimp only at h
  split at h
  · exact absurd h (by simp)
  · rw [Option.some.injEq] at h
    generalize str.take (natToInt32 str.length).toNat = s at h
    have hhead := List.head?_dropWhile_not isspace s
    have hprefix := httpStrdupCut_isPrefix (s.dropWhile isspace)
    cases hcut : httpStrdupCut (s.dropWhile isspace) with
    | nil =>
        rw [hcut] at h
        subst h
        exact absurd hc (by simp [cstr])
    | cons a l =>
        rw [hcut] at h hprefix
        obtain ⟨x, hx⟩ := hprefix
        rw [← hx, List.cons_append, List.head?_cons] at hhead
        have ha : isspace a = false := by simpa using hhead
        have h13 : a ≠ 13 := by
          rintro rfl
          exact absurd ha (by decide)
        rw [List.filter_cons, if_pos (by simpa using h13), cstr, List.takeWhile_cons] at h
        split at h
        · subst h
          obtain rfl : a = c := by simpa using hc
          exact ha
        · subst h
          exact absurd hc (by simp)

/-- The string `t` comes back from `http_strdup`, also with `extra` characters of line end behind
it. -/
structure HttpKept (t : List UInt8) (extra : Nat) : Prop where
  two_le : 2 ≤ t.length
  fits : t.length + extra < 2 ^ 31
  first : ∀ c, t.head? = some c → isspace c = false
  last : ∀ c, t.getLast? = some c → isspace c = false
  bytes : ∀ c ∈ t, c ≠ 0 ∧ c ≠ 13

/-- Which tokens come back as they are. -/
theorem httpStrdup_append_eq_some_iff {v : List UInt8} (sp : List UInt8) (hv : v ≠ [])
    (hlen : sp.length ≤ 3) (hsp : ∀ c ∈ sp, isspace c = true) :
    httpStrdup (v ++ sp) = some v ↔ HttpKept v sp.length := by
  constructor
  · intro h
    have hfits : v.length + sp.length < 2 ^ 31 := by
      obtain ⟨h0, hle⟩ := httpStrdup_length h
      rw [natToInt32, List.length_append] at h0 hle
      split at hle <;> omega
    rw [httpStrdup_append hfits hsp, Option.some.injEq] at h
    -- the copy is as long as `v`, so nothing was dropped on the way
    have hcut : v.length ≤ (httpStrdupCut (v.dropWhile isspace)).length := by
      calc v.length = (cstr ((httpStrdupCut (v.dropWhile isspace)).filter (· ≠ 13))).length := by
            rw [h]
        _ ≤ ((httpStrdupCut (v.dropWhile isspace)).filter (· ≠ 13)).length := cstr_length_le _
        _ ≤ (httpStrdupCut (v.dropWhile isspace)).length := List.length_filter_le _ _
    have hprefix := httpStrdupCut_isPrefix (v.dropWhile isspace)
    have hdrop : v.dropWhile isspace = v :=
      (List.dropWhile_suffix isspace).eq_of_length_le (hcut.trans hprefix.length_le)
    have hself : httpStrdupCut v = v := by
      rw [hdrop] at hcut hprefix
      exact hprefix.eq_of_length_le hcut
    rw [hdrop, hself] at h
    obtain ⟨_, hbytes⟩ := cstr_filter_eq_self (l := v) (by rw [h])
    rcases httpStrdupCut_spec v with hnil | ⟨h2, hlast⟩
    · exact absurd (hself ▸ hnil) hv
    · rw [hself] at h2 hlast
      refine ⟨h2, hfits, fun c hc => ?_, hlast, hbytes⟩
      cases v with
      | nil => exact absurd rfl hv
      | cons a v =>
          obtain rfl : a = c := by simpa using hc
          cases hs : isspace a with
          | false => rfl
          | true =>
              rw [List.dropWhile_cons, if_pos hs] at hdrop
              have := (List.dropWhile_suffix isspace (l := v)).length_le
              rw [hdrop, List.length_cons] at this
              omega
  · intro h
    have hdrop : v.dropWhile isspace = v := by
      cases v with
      | nil => rfl
      | cons a v =>
          rw [List.dropWhile_cons, if_neg]
          rw [h.first a rfl]
          simp
    have hfilter : v.filter (· ≠ 13) = v :=
      List.filter_eq_self.mpr fun c hc => by simpa using (h.bytes c hc).2
    rw [httpStrdup_append h.fits hsp, hdrop, httpStrdupCut_eq_self h.two_le h.last, hfilter,
      cstr_eq_self fun h0 => (h.bytes 0 h0).1 rfl]

theorem httpStrdup_eq_some_iff {v : List UInt8} (hv : v ≠ []) :
    httpStrdup v = some v ↔ HttpKept v 0 := by
  have h := httpStrdup_append_eq_some_iff [] hv (by simp) (by simp)
  rwa [List.append_nil] at h

end Bklib
