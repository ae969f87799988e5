import Mathlib.Data.List.Lex
import Bklib.Lib.LexCompare
import Bklib.Model.Vercmp
import Bklib.Proofs.Strtoul

/-!
# `Bklib.Proofs.Vercmp`: when versions are ordered

`vercmp` compares the lists of components of two versions. Components that compare equal are the same
number modulo `2 ^ 32` or the same text but for case, which is an equivalence. It is no order, though:
numbers are ordered as numbers and otherwise as text, and the difference of two numbers is cut to an
`int`. `PartCircle` lists which three components go round in a circle (`partCircle_iff`), and
`vercmp_preorder_iff` says for which versions none of this does harm.
-/

set_option autoImplicit false

namespace Bklib

open Bklib.Lib

/-! ## Components -/

/-- The components of a version: after each one there is another as long as something is left. -/
def versionParts (v : List UInt8) : List VersionPart :=
  let p := versionPart v
  p :: if _h : p.rest ≠ [] then versionParts p.rest else []
termination_by v.length
decreasing_by exact versionPart_rest_lt _h

theorem versionParts_eq (v : List UInt8) :
    versionParts v = versionPart v ::
      if (versionPart v).rest ≠ [] then versionParts (versionPart v).rest else [] := by
  rw [versionParts]
  split <;> rfl

/-- `vercmp` compares the components of two versions from the first one on, and a version that has
ended comes first. -/
theorem vercmp_eq_lexCompare (v1 v2 : List UInt8) :
    vercmp v1 v2 = lexCompare versionPartCmp (versionParts v1) (versionParts v2) := by
  induction v1, v2 using vercmp.induct with
  | case1 v1 v2 p1 p2 i hi =>
      rw [vercmp, if_pos hi, versionParts_eq v1, versionParts_eq v2, lexCompare, if_pos hi]
  | case2 v1 v2 p1 p2 i hi h ih =>
      rw [vercmp, if_neg hi, dif_pos h, versionParts_eq v1, versionParts_eq v2, lexCompare,
        if_neg hi, if_pos h.1, if_pos h.2]
      exact ih
  | case3 v1 v2 p1 p2 i hi h h1 =>
      have h2 : ¬(versionPart v2).rest ≠ [] := fun h2 => h ⟨h1, h2⟩
      rw [vercmp, if_neg hi, dif_neg h, if_pos h1, versionParts_eq v1, versionParts_eq v2, lexCompare,
        if_neg hi, if_pos h1, if_neg h2, versionParts_eq]
      rfl
  | case4 v1 v2 p1 p2 i hi h h1 h2 =>
      rw [vercmp, if_neg hi, dif_neg h, if_neg h1, if_pos h2, versionParts_eq v1, versionParts_eq v2,
        lexCompare, if_neg hi, if_neg h1, if_pos h2, versionParts_eq]
      rfl
  | case5 v1 v2 p1 p2 i hi h h1 h2 =>
      rw [vercmp, if_neg hi, dif_neg h, if_neg h1, if_neg h2, versionParts_eq v1, versionParts_eq v2,
        lexCompare, if_neg hi, if_neg h1, if_neg h2]
      rfl

/-! ## Text -/

/-- Lowering adds 32 to a capital letter and nothing to another byte. -/
theorem tolower_toNat (c : UInt8) :
    (tolower c).toNat = if 65 ≤ c.toNat ∧ c.toNat ≤ 90 then c.toNat + 32 else c.toNat := by
  have hc := c.toNat_lt
  have hiff : (65 ≤ c ∧ c ≤ 90) ↔ (65 ≤ c.toNat ∧ c.toNat ≤ 90) := Iff.rfl
  unfold tolower
  split
  next h =>
    rw [if_pos (hiff.mp h), UInt8.toNat_add]
    show (c.toNat + 32) % 256 = c.toNat + 32
    have hle := (hiff.mp h).2
    omega
  next h => rw [if_neg (fun h' => h (hiff.mpr h'))]

theorem isdigit_tolower (c : UInt8) : isdigit (tolower c) = isdigit c := by
  have h := tolower_toNat c
  rw [Bool.eq_iff_iff, isdigit_iff, isdigit_iff]
  split at h <;> omega

theorem tolower_ne_zero {c : UInt8} (hc : c ≠ 0) : (tolower c).toNat ≠ 0 := by
  have h := tolower_toNat c
  have hne : c.toNat ≠ 0 := fun h0 => hc (UInt8.toNat_inj.mp h0)
  split at h <;> omega

theorem all_isdigit_map_tolower (s : List UInt8) :
    (s.map tolower).all isdigit = s.all isdigit := by
  induction s with
  | nil => rfl
  | cons c s ih => simp only [List.map_cons, List.all_cons, isdigit_tolower, ih]

/-- Texts compare equal when they are the same but for case. -/
theorem strcasecmp_eq_zero {s t : List UInt8} (hs : 0 ∉ s) (ht : 0 ∉ t) :
    strcasecmp s t = 0 ↔ s.map tolower = t.map tolower := by
  induction s generalizing t with
  | nil =>
      cases t with
      | nil => simp [strcasecmp]
      | cons d t =>
          have hd := tolower_ne_zero (c := d) fun h0 => ht (by simp [h0])
          simp only [strcasecmp, List.map_nil, List.map_cons, List.nil_eq, reduceCtorEq, iff_false]
          omega
  | cons c s ih =>
      cases t with
      | nil =>
          have hc := tolower_ne_zero (c := c) fun h0 => hs (by simp [h0])
          simp only [strcasecmp, List.map_nil, List.map_cons, reduceCtorEq, iff_false]
          omega
      | cons d t =>
          have hs' : 0 ∉ s := fun h0 => hs (List.mem_cons_of_mem c h0)
          have ht' : 0 ∉ t := fun h0 => ht (List.mem_cons_of_mem d h0)
          rw [strcasecmp, List.map_cons, List.map_cons, List.cons.injEq]
          split
          next heq => rw [ih hs' ht', and_iff_right heq]
          next hne =>
            have hnat : (tolower c).toNat ≠ (tolower d).toNat := fun h => hne (UInt8.toNat_inj.mp h)
            refine iff_of_false (by omega) fun hand => hne hand.1

/-- Texts compare the other way round when they change places. -/
theorem strcasecmp_swap (s t : List UInt8) : strcasecmp t s = -strcasecmp s t := by
  induction s generalizing t with
  | nil =>
      cases t with
      | nil => rfl
      | cons d t => simp [strcasecmp]
  | cons c s ih =>
      cases t with
      | nil => simp [strcasecmp]
      | cons d t =>
          rw [strcasecmp, strcasecmp]
          by_cases heq : tolower c = tolower d
          · rw [if_pos heq, if_pos heq.symm, ih]
          · rw [if_neg heq, if_neg (Ne.symm heq)]
            omega

/-- `strcasecmp` is the order of the texts without case. -/
theorem strcasecmp_neg_iff {s t : List UInt8} (hs : 0 ∉ s) (ht : 0 ∉ t) :
    strcasecmp s t < 0 ↔
      (s.map fun c => (tolower c).toNat) < t.map fun c => (tolower c).toNat := by
  induction s generalizing t with
  | nil =>
      cases t with
      | nil => simp [strcasecmp]
      | cons d t =>
          have hd := tolower_ne_zero (c := d) fun h0 => ht (by simp [h0])
          rw [strcasecmp, List.map_nil, List.map_cons]
          exact iff_of_true (by omega) (List.nil_lt_cons _ _)
  | cons c s ih =>
      cases t with
      | nil =>
          have hc := tolower_ne_zero (c := c) fun h0 => hs (by simp [h0])
          rw [strcasecmp, List.map_nil, List.map_cons]
          exact iff_of_false (by omega) (List.not_lt_nil _)
      | cons d t =>
          have hs' : 0 ∉ s := fun h0 => hs (List.mem_cons_of_mem c h0)
          have ht' : 0 ∉ t := fun h0 => ht (List.mem_cons_of_mem d h0)
          rw [strcasecmp, List.map_cons, List.map_cons, List.cons_lt_cons_iff]
          by_cases heq : tolower c = tolower d
          · rw [if_pos heq, ih hs' ht', heq, or_iff_right (lt_irrefl _), and_iff_right rfl]
          · have hne : (tolower c).toNat ≠ (tolower d).toNat := fun h => heq (UInt8.toNat_inj.mp h)
            rw [if_neg heq]
            constructor
            · exact fun h => Or.inl (by omega)
            · rintro (h | h)
              · omega
              · exact absurd h.1 hne

/-! ## Two components -/

/-- The number that a component of digits is. -/
def VersionPart.number (p : VersionPart) : Int := strtolDigits p.buf

/-- The text of a component, without case. -/
def VersionPart.text (p : VersionPart) : List Nat := p.buf.map fun c => (tolower c).toNat

/-- Both are numbers. Components are compared as numbers then, and as text otherwise. -/
def BothNumbers (p q : VersionPart) : Prop := p.type = .int ∧ q.type = .int

/-- The same number modulo `2 ^ 32`, or the same text, or no component in either version. -/
def SamePart : Option VersionPart → Option VersionPart → Prop
  | none,   none   => True
  | some p, some q =>
      (BothNumbers p q ∧ (p.number - q.number) % 2 ^ 32 = 0) ∨ (¬BothNumbers p q ∧ p.text = q.text)
  | _,      _      => False

/-- The first one is the later: a number that is less than `2 ^ 31` above the other one modulo
`2 ^ 32`, a text behind the other one, or a component where the other version has ended. -/
def LaterPart : Option VersionPart → Option VersionPart → Prop
  | some _, none   => True
  | some p, some q =>
      (BothNumbers p q ∧ 0 < (p.number - q.number) % 2 ^ 32 ∧
        (p.number - q.number) % 2 ^ 32 < 2 ^ 31) ∨ (¬BothNumbers p q ∧ q.text < p.text)
  | none,   _      => False

/-- Two numbers whose difference has no opposite as an `int`. -/
def HalfApart : Option VersionPart → Option VersionPart → Prop
  | some p, some q => BothNumbers p q ∧ (p.number - q.number) % 2 ^ 32 = 2 ^ 31
  | _,      _      => False

/-- Three components that go round in a circle: numbers that are more than half of `2 ^ 32` apart in
two steps of at most half of it, or two numbers that stand the other way round as text, with a text
between them. -/
inductive PartCircle : Option VersionPart → Option VersionPart → Option VersionPart → Prop where
  | numbers {p q r : VersionPart} (hp : p.type = .int) (hq : q.type = .int) (hr : r.type = .int)
      (hpq : (q.number - p.number) % 2 ^ 32 ≤ 2 ^ 31)
      (hqr : (r.number - q.number) % 2 ^ 32 ≤ 2 ^ 31)
      (hpr : 2 ^ 31 < (q.number - p.number) % 2 ^ 32 + (r.number - q.number) % 2 ^ 32) :
      PartCircle (some p) (some q) (some r)
  | textFirst {t p q : VersionPart} (ht : t.type = .str) (hp : p.type = .int) (hq : q.type = .int)
      (hqt : q.text < t.text) (htp : t.text < p.text)
      (hpq : (q.number - p.number) % 2 ^ 32 ≤ 2 ^ 31) : PartCircle (some t) (some p) (some q)
  | textMiddle {p t q : VersionPart} (hp : p.type = .int) (ht : t.type = .str) (hq : q.type = .int)
      (hpt : p.text < t.text) (htq : t.text < q.text)
      (hpq : (p.number - q.number) % 2 ^ 32 < 2 ^ 31) : PartCircle (some p) (some t) (some q)
  | textLast {p q t : VersionPart} (hp : p.type = .int) (hq : q.type = .int) (ht : t.type = .str)
      (hqt : q.text < t.text) (htp : t.text < p.text)
      (hpq : (q.number - p.number) % 2 ^ 32 ≤ 2 ^ 31) : PartCircle (some p) (some q) (some t)

/-- What `vercmp` sees of a component that it compares equal to another. -/
def VersionPart.shape (p : VersionPart) : Nat ⊕ List UInt8 :=
  if p.type = .int then .inl (strtolDigits p.buf % 2 ^ 32) else .inr (p.buf.map tolower)

theorem toInt32_sub_eq_zero (x y : Nat) : toInt32 (x - y) = 0 ↔ x % 2 ^ 32 = y % 2 ^ 32 := by
  rw [toInt32, Int.bmod_eq_emod]
  split <;> omega

/-- Two parts compare as zero exactly when they have one shape. -/
theorem versionPartCmp_eq_zero (p q : VersionPart) :
    versionPartCmp p q = 0 ↔ p.shape = q.shape := by
  unfold versionPartCmp VersionPart.shape
  by_cases hint : p.type = .int ∧ q.type = .int
  · rw [if_pos ⟨hint.1.trans hint.2.symm, hint.1⟩, if_pos hint.1, if_pos hint.2, toInt32_sub_eq_zero,
      Sum.inl.injEq]
  · have hcmp : ¬(p.type = q.type ∧ p.type = .int) := fun h => hint ⟨h.2, h.1 ▸ h.2⟩
    rw [if_neg hcmp, strcasecmp_eq_zero p.ends q.ends]
    -- Texts that are the same but for case are numbers together.
    have htype : p.buf.map tolower = q.buf.map tolower → (p.type = .int ↔ q.type = .int) := by
      intro heq
      rw [p.typed, q.typed, ← all_isdigit_map_tolower p.buf, heq, all_isdigit_map_tolower]
    by_cases hp : p.type = .int
    · have hq : ¬q.type = .int := fun hq => hint ⟨hp, hq⟩
      rw [if_pos hp, if_neg hq]
      exact iff_of_false (fun heq => hq ((htype heq).mp hp)) (by simp)
    · by_cases hq : q.type = .int
      · rw [if_neg hp, if_pos hq]
        exact iff_of_false (fun heq => hp ((htype heq).mpr hq)) (by simp)
      · rw [if_neg hp, if_neg hq, Sum.inr.injEq]

theorem cmpEquiv_versionPartCmp : CmpEquiv versionPartCmp where
  refl p := (versionPartCmp_eq_zero p p).mpr rfl
  symm p q h := (versionPartCmp_eq_zero q p).mpr ((versionPartCmp_eq_zero p q).mp h).symm
  trans p q r h h' := (versionPartCmp_eq_zero p r).mpr
    (((versionPartCmp_eq_zero p q).mp h).trans ((versionPartCmp_eq_zero q r).mp h'))

section Parts

variable {p q : VersionPart}

/-- The sign of a number cut to an `int`. -/
theorem toInt32_sign_iff (x : Int) :
    (toInt32 x ≤ 0 ↔ (-x) % 2 ^ 32 ≤ 2 ^ 31) ∧ (0 ≤ toInt32 x ↔ x % 2 ^ 32 < 2 ^ 31) ∧
      (toInt32 x = 0 ↔ x % 2 ^ 32 = 0) := by
  rw [toInt32, Int.bmod_eq_emod]
  split <;> omega

/-- Two numbers are compared by their difference, cut to an `int`. -/
theorem BothNumbers.cmp_eq (h : BothNumbers p q) :
    versionPartCmp p q = toInt32 (p.number - q.number) :=
  if_pos ⟨h.1.trans h.2.symm, h.1⟩

theorem BothNumbers.symm (h : BothNumbers p q) : BothNumbers q p := ⟨h.2, h.1⟩

theorem versionPartCmp_eq_strcasecmp (h : ¬BothNumbers p q) :
    versionPartCmp p q = strcasecmp p.buf q.buf :=
  if_neg fun h' : p.type = q.type ∧ p.type = .int => h ⟨h'.2, h'.1 ▸ h'.2⟩

/-- Other components are compared as text. -/
theorem versionPartCmp_text (h : ¬BothNumbers p q) :
    (versionPartCmp p q < 0 ↔ p.text < q.text) ∧ (0 < versionPartCmp p q ↔ q.text < p.text) := by
  have hswap : 0 < strcasecmp p.buf q.buf ↔ strcasecmp q.buf p.buf < 0 := by
    rw [strcasecmp_swap p.buf q.buf]
    omega
  rw [versionPartCmp_eq_strcasecmp h, hswap]
  exact ⟨strcasecmp_neg_iff p.ends q.ends, strcasecmp_neg_iff q.ends p.ends⟩

theorem versionPartCmp_text_zero (h : ¬BothNumbers p q) :
    versionPartCmp p q = 0 ↔ p.text = q.text := by
  obtain ⟨hneg, hpos⟩ := versionPartCmp_text h
  rw [le_antisymm_iff (a := p.text), ← not_lt, ← not_lt, ← hneg, ← hpos]
  omega

/-- Components compare equal exactly when they are the same. -/
theorem samePart_iff (x y : Option VersionPart) :
    endCompare versionPartCmp x y = 0 ↔ SamePart x y := by
  cases x with
  | none =>
      cases y with
      | none => exact iff_of_true rfl trivial
      | some q => exact iff_of_false (by simp [endCompare]) id
  | some p =>
      cases y with
      | none => exact iff_of_false (by simp [endCompare]) id
      | some q =>
          rw [endCompare, SamePart]
          by_cases hint : BothNumbers p q
          · rw [hint.cmp_eq, (toInt32_sign_iff _).2.2, or_iff_left (fun h => h.1 hint),
              and_iff_right hint]
          · rw [versionPartCmp_text_zero hint, or_iff_right (fun h => hint h.1), and_iff_right hint]

/-- The later component is the greater one. -/
theorem laterPart_iff (x y : Option VersionPart) :
    0 < endCompare versionPartCmp x y ↔ LaterPart x y := by
  cases x with
  | none => cases y <;> exact iff_of_false (by simp [endCompare]) id
  | some p =>
      cases y with
      | none => exact iff_of_true (by simp [endCompare]) trivial
      | some q =>
          rw [endCompare, LaterPart]
          by_cases hint : BothNumbers p q
          · obtain ⟨-, hle, hzero⟩ := toInt32_sign_iff (p.number - q.number)
            rw [hint.cmp_eq, or_iff_left (fun h => h.1 hint), and_iff_right hint]
            omega
          · rw [(versionPartCmp_text hint).2, or_iff_right (fun h => hint h.1), and_iff_right hint]

/-- Only numbers that are half apart compare less both ways. -/
theorem oppositeSigns_iff (x y : Option VersionPart) :
    OppositeSigns (endCompare versionPartCmp x y) (endCompare versionPartCmp y x) ↔
      ¬HalfApart x y := by
  cases x with
  | none => cases y <;> exact iff_of_true (by simp [endCompare, OppositeSigns]) id
  | some p =>
      cases y with
      | none => exact iff_of_true (by simp [endCompare, OppositeSigns]) id
      | some q =>
          rw [endCompare, endCompare, HalfApart]
          by_cases hint : BothNumbers p q
          · obtain ⟨hle, hge, hzero⟩ := toInt32_sign_iff (p.number - q.number)
            obtain ⟨hle', hge', hzero'⟩ := toInt32_sign_iff (q.number - p.number)
            rw [hint.cmp_eq, hint.symm.cmp_eq, and_iff_right hint, OppositeSigns]
            omega
          · refine iff_of_true ?_ fun h => hint h.1
            rw [OppositeSigns, versionPartCmp_eq_strcasecmp hint,
              versionPartCmp_eq_strcasecmp fun h : BothNumbers q p => hint h.symm,
              strcasecmp_swap p.buf q.buf]
            omega

end Parts

/-! ## Three components -/

/-- Comparisons that are all of texts do not go round: each text is at most the next one. -/
theorem versionPartCmp_texts {p q r : VersionPart} (hpq : ¬BothNumbers p q) (hqr : ¬BothNumbers q r)
    (hpr : ¬BothNumbers p r) (h : versionPartCmp p q ≤ 0) (h' : versionPartCmp q r ≤ 0)
    (h'' : 0 ≤ versionPartCmp p r) : versionPartCmp p q = 0 ∧ versionPartCmp q r = 0 := by
  have hle : p.text ≤ q.text := not_lt.mp fun hlt =>
    absurd ((versionPartCmp_text hpq).2.mpr hlt) (Int.not_lt.mpr h)
  have hle' : q.text ≤ r.text := not_lt.mp fun hlt =>
    absurd ((versionPartCmp_text hqr).2.mpr hlt) (Int.not_lt.mpr h')
  have hge : r.text ≤ p.text := not_lt.mp fun hlt =>
    absurd ((versionPartCmp_text hpr).1.mpr hlt) (Int.not_lt.mpr h'')
  rw [versionPartCmp_text_zero hpq, versionPartCmp_text_zero hqr]
  exact ⟨le_antisymm hle (hle'.trans hge), le_antisymm hle' (hge.trans hle)⟩

/-- The text of a number is that of no other component. -/
theorem text_ne_of_types {p q : VersionPart} (hp : p.type = .int) (hq : q.type = .str) :
    p.text ≠ q.text := by
  intro htext
  have hnot : ¬BothNumbers p q := by
    rintro ⟨-, hint⟩
    rw [hq] at hint
    cases hint
  have hshape := (versionPartCmp_eq_zero p q).mp ((versionPartCmp_text_zero hnot).mpr htext)
  unfold VersionPart.shape at hshape
  rw [if_pos hp, if_neg (by rw [hq]; decide)] at hshape
  cases hshape

/-- A number and a text differ as texts. -/
theorem cmp_mixed_iff {p q : VersionPart}
    (h : (p.type = .int ∧ q.type = .str) ∨ (p.type = .str ∧ q.type = .int)) :
    (versionPartCmp p q ≤ 0 ↔ p.text < q.text) ∧ (0 ≤ versionPartCmp p q ↔ q.text < p.text) := by
  have hnot : ¬BothNumbers p q := by
    rintro ⟨hp, hq⟩
    rw [hp, hq] at h
    exact absurd h (by decide)
  have hne : p.text ≠ q.text := by
    rcases h with ⟨hp, hq⟩ | ⟨hp, hq⟩
    · exact text_ne_of_types hp hq
    · exact (text_ne_of_types hq hp).symm
  obtain ⟨hneg, hpos⟩ := versionPartCmp_text hnot
  have hzero := versionPartCmp_text_zero hnot
  rw [← hneg, ← hpos]
  have hne' : versionPartCmp p q ≠ 0 := fun h0 => hne (hzero.mp h0)
  omega

/-- A version that has ended is in no circle. -/
theorem not_circle_of_none {x y z : Option VersionPart} (hnone : x = none ∨ y = none ∨ z = none)
    (hxy : endCompare versionPartCmp x y ≤ 0) (hyz : endCompare versionPartCmp y z ≤ 0)
    (hxz : 0 ≤ endCompare versionPartCmp x z) : SamePart x y ∧ SamePart y z := by
  -- what is at most the end has ended
  have hend : ∀ u v : Option VersionPart, v = none → endCompare versionPartCmp u v ≤ 0 →
      u = none := by
    rintro (_ | u) v rfl hle
    · rfl
    · exact absurd hle (by simp [endCompare])
  have hend' : ∀ u v : Option VersionPart, u = none → 0 ≤ endCompare versionPartCmp u v →
      v = none := by
    rintro u (_ | v) rfl hge
    · rfl
    · exact absurd hge (by simp [endCompare])
  have hx : x = none := by
    rcases hnone with hx | hy | hz
    · exact hx
    · exact hend x y hy hxy
    · exact hend x y (hend y z hz hyz) hxy
  have hz := hend' x z hx hxz
  have hy := hend y z hz hyz
  subst hx hy hz
  exact ⟨trivial, trivial⟩

/-- The comparisons of three components that are not all the same go round exactly in a
`PartCircle`. -/
theorem partCircle_iff {x y z : Option VersionPart} (hsplit : ¬(SamePart x y ∧ SamePart y z)) :
    (endCompare versionPartCmp x y ≤ 0 ∧ endCompare versionPartCmp y z ≤ 0 ∧
      0 ≤ endCompare versionPartCmp x z) ↔ PartCircle x y z := by
  constructor
  · rintro ⟨hxy, hyz, hxz⟩
    rcases x with _ | p
    · exact absurd (not_circle_of_none (Or.inl rfl) hxy hyz hxz) hsplit
    rcases y with _ | q
    · exact absurd (not_circle_of_none (Or.inr (Or.inl rfl)) hxy hyz hxz) hsplit
    rcases z with _ | r
    · exact absurd (not_circle_of_none (Or.inr (Or.inr rfl)) hxy hyz hxz) hsplit
    rw [← samePart_iff, ← samePart_iff] at hsplit
    rw [endCompare] at hxy hyz hxz hsplit
    rw [endCompare] at hsplit
    -- three comparisons that are all of texts do not go round
    have htexts : ¬(¬BothNumbers p q ∧ ¬BothNumbers q r ∧ ¬BothNumbers p r) := by
      rintro ⟨hpq, hqr, hpr⟩
      exact hsplit (versionPartCmp_texts hpq hqr hpr hxy hyz hxz)
    unfold BothNumbers at htexts
    cases hp : p.type with
    | int =>
        cases hq : q.type with
        | int =>
            have hpq := toInt32_sign_iff (p.number - q.number)
            rw [BothNumbers.cmp_eq ⟨hp, hq⟩] at hxy hsplit
            cases hr : r.type with
            | int =>
                have hqr := toInt32_sign_iff (q.number - r.number)
                have hpr := toInt32_sign_iff (p.number - r.number)
                rw [BothNumbers.cmp_eq ⟨hq, hr⟩] at hyz hsplit
                rw [BothNumbers.cmp_eq ⟨hp, hr⟩] at hxz
                exact .numbers hp hq hr (by omega) (by omega) (by omega)
            | str =>
                exact .textLast hp hq hr ((cmp_mixed_iff (Or.inl ⟨hq, hr⟩)).1.mp hyz)
                  ((cmp_mixed_iff (Or.inl ⟨hp, hr⟩)).2.mp hxz) (by omega)
        | str =>
            cases hr : r.type with
            | int =>
                have hpr := toInt32_sign_iff (p.number - r.number)
                rw [BothNumbers.cmp_eq ⟨hp, hr⟩] at hxz
                exact .textMiddle hp hq hr ((cmp_mixed_iff (Or.inl ⟨hp, hq⟩)).1.mp hxy)
                  ((cmp_mixed_iff (Or.inr ⟨hq, hr⟩)).1.mp hyz) (by omega)
            | str => simp [hp, hq, hr] at htexts
    | str =>
        cases hq : q.type with
        | int =>
            cases hr : r.type with
            | int =>
                have hqr := toInt32_sign_iff (q.number - r.number)
                rw [BothNumbers.cmp_eq ⟨hq, hr⟩] at hyz
                exact .textFirst hp hq hr ((cmp_mixed_iff (Or.inr ⟨hp, hr⟩)).2.mp hxz)
                  ((cmp_mixed_iff (Or.inr ⟨hp, hq⟩)).1.mp hxy) (by omega)
            | str => simp [hp, hq, hr] at htexts
        | str => simp [hp, hq] at htexts
  · intro hround
    cases hround with
    | @numbers p q r hp hq hr hpq hqr hpr =>
        have hxy := toInt32_sign_iff (p.number - q.number)
        have hyz := toInt32_sign_iff (q.number - r.number)
        have hxz := toInt32_sign_iff (p.number - r.number)
        rw [endCompare, endCompare, endCompare, BothNumbers.cmp_eq ⟨hp, hq⟩,
          BothNumbers.cmp_eq ⟨hq, hr⟩, BothNumbers.cmp_eq ⟨hp, hr⟩]
        omega
    | @textFirst t p q ht hp hq hqt htp hpq =>
        have hyz := toInt32_sign_iff (p.number - q.number)
        rw [endCompare, endCompare, endCompare, BothNumbers.cmp_eq ⟨hp, hq⟩,
          (cmp_mixed_iff (Or.inr ⟨ht, hp⟩)).1, (cmp_mixed_iff (Or.inr ⟨ht, hq⟩)).2]
        exact ⟨htp, by omega, hqt⟩
    | @textMiddle p t q hp ht hq hpt htq hpq =>
        have hxz := toInt32_sign_iff (p.number - q.number)
        rw [endCompare, endCompare, endCompare, BothNumbers.cmp_eq ⟨hp, hq⟩,
          (cmp_mixed_iff (Or.inl ⟨hp, ht⟩)).1, (cmp_mixed_iff (Or.inr ⟨ht, hq⟩)).1]
        exact ⟨hpt, htq, by omega⟩
    | @textLast p q t hp hq ht hqt htp hpq =>
        have hxy := toInt32_sign_iff (p.number - q.number)
        rw [endCompare, endCompare, endCompare, BothNumbers.cmp_eq ⟨hp, hq⟩,
          (cmp_mixed_iff (Or.inl ⟨hq, ht⟩)).1, (cmp_mixed_iff (Or.inl ⟨hp, ht⟩)).2]
        exact ⟨by omega, hqt, htp⟩

/-! ## Versions -/

/-- The first position where the components of two versions are not the same. -/
structure FirstOther (v w : List UInt8) (k : Nat) : Prop where
  before : ∀ j < k, SamePart (versionParts v)[j]? (versionParts w)[j]?
  here   : ¬SamePart (versionParts v)[k]? (versionParts w)[k]?

/-- The first position where the components of three versions are not all the same. -/
structure FirstApart (a b c : List UInt8) (k : Nat) : Prop where
  before : ∀ j < k, SamePart (versionParts a)[j]? (versionParts b)[j]? ∧
    SamePart (versionParts b)[j]? (versionParts c)[j]?
  here   : ¬(SamePart (versionParts a)[k]? (versionParts b)[k]? ∧
    SamePart (versionParts b)[k]? (versionParts c)[k]?)

/-- The first version is the later one where the two are not the same for the first time. -/
def LaterVersion (v w : List UInt8) : Prop :=
  ∃ k, FirstOther v w k ∧ LaterPart (versionParts v)[k]? (versionParts w)[k]?

/-- Three versions that `vercmp` puts in order. The first two do not first differ in numbers that
are `2 ^ 31` apart modulo `2 ^ 32`, and where the three are first not the same their components do not
go round in a circle, unless two of them are the same there and the rest of their versions breaks it. -/
structure VersionsOrdered (a b c : List UInt8) : Prop where
  notHalfApart : ∀ k, FirstOther a b k → ¬HalfApart (versionParts a)[k]? (versionParts b)[k]?
  noCircle : ∀ k, FirstApart a b c k →
    PartCircle (versionParts a)[k]? (versionParts b)[k]? (versionParts c)[k]? →
    (SamePart (versionParts a)[k]? (versionParts b)[k]? ∧ LaterVersion a b) ∨
      (SamePart (versionParts b)[k]? (versionParts c)[k]? ∧ LaterVersion b c) ∨
      (SamePart (versionParts a)[k]? (versionParts c)[k]? ∧ ¬LaterVersion a c)

/-- Where two versions first differ, by their shapes. -/
theorem firstOther_iff (v w : List UInt8) (k : Nat) :
    FirstDiff versionPartCmp (versionParts v) (versionParts w) k ↔ FirstOther v w k := by
  constructor
  · rintro ⟨hbefore, hhere⟩
    exact ⟨fun j hj => (samePart_iff _ _).mp (hbefore j hj),
      fun h => hhere ((samePart_iff _ _).mpr h)⟩
  · rintro ⟨hbefore, hhere⟩
    exact ⟨fun j hj => (samePart_iff _ _).mpr (hbefore j hj),
      fun h => hhere ((samePart_iff _ _).mp h)⟩

/-- Where three versions part first, by their shapes. -/
theorem firstApart_iff (a b c : List UInt8) (k : Nat) :
    FirstSplit versionPartCmp (versionParts a) (versionParts b) (versionParts c) k ↔
      FirstApart a b c k := by
  constructor
  · rintro ⟨hbefore, hhere⟩
    simp only [samePart_iff] at hbefore hhere
    exact ⟨hbefore, hhere⟩
  · rintro ⟨hbefore, hhere⟩
    simp only [← samePart_iff] at hbefore hhere
    exact ⟨hbefore, hhere⟩

/-- The later version is the one that exceeds the other. -/
theorem laterVersion_iff (v w : List UInt8) :
    Exceeds versionPartCmp (versionParts v) (versionParts w) ↔ LaterVersion v w := by
  unfold Exceeds LaterVersion
  simp only [firstOther_iff, laterPart_iff]

/-- `vercmp` is a total preorder on three versions exactly when they are `VersionsOrdered`. -/
theorem vercmp_preorder_iff (a b c : List UInt8) :
    (vercmp a a = 0 ∧ OppositeSigns (vercmp a b) (vercmp b a) ∧
        (vercmp a b ≤ 0 → vercmp b c ≤ 0 → vercmp a c ≤ 0)) ↔
      VersionsOrdered a b c := by
  simp only [vercmp_eq_lexCompare]
  have hself := lexCompare_self cmpEquiv_versionPartCmp (versionParts a)
  have hopp := oppositeSigns_lexCompare_iff cmpEquiv_versionPartCmp (versionParts a)
    (versionParts b)
  have htrans := lexCompare_trans_iff cmpEquiv_versionPartCmp (versionParts a) (versionParts b)
    (versionParts c)
  simp only [oppositeSigns_iff, firstOther_iff] at hopp
  simp only [firstApart_iff, NoCircle, laterVersion_iff, samePart_iff] at htrans
  rw [and_iff_right hself, hopp, htrans]
  constructor
  · rintro ⟨hhalf, hcircle⟩
    refine ⟨hhalf, fun k hapart hround => ?_⟩
    exact (hcircle k hapart).resolve_left (not_not.mpr ((partCircle_iff hapart.here).mpr hround))
  · rintro ⟨hhalf, hcircle⟩
    refine ⟨hhalf, fun k hapart => ?_⟩
    rw [partCircle_iff hapart.here]
    exact or_iff_not_imp_left.mpr fun hround => hcircle k hapart (not_not.mp hround)

/-- `10`, `1a` and `9` go round in a circle: the first two and the last two are compared as text. -/
theorem vercmp_circle :
    vercmp (bytes "10") (bytes "1a") ≤ 0 ∧ vercmp (bytes "1a") (bytes "9") ≤ 0 ∧
      ¬vercmp (bytes "10") (bytes "9") ≤ 0 := by
  decide +kernel

end Bklib
