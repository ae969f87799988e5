import Mathlib.Data.List.Basic
import Mathlib.Data.UInt

/-!
# `Bklib.Lib.TlvOpts`: areas of type-length-data options

An area holds options one behind the other. A no-op is the byte 1. Every other option starts with
its type, 2 or more, and its length, which counts these two bytes as well. The options end at the
byte 0, at the end of the area, or before something that is no option.

`lim` is a bound on the length of an option that a reader takes. `optsOf` reads an area, and
`optsOf_spec` and `optsOf_flatMap_bytes` say that it inverts the writing of options.
-/

set_option autoImplicit false

namespace Bklib.Lib

/-- An option. -/
inductive TlvOpt where
  | nop
  | opt (type : UInt8) (data : List UInt8)
  deriving DecidableEq

/-- The bytes of an option. -/
def TlvOpt.bytes : TlvOpt → List UInt8
  | .nop      => [1]
  | .opt t d  => t :: UInt8.ofNat (d.length + 2) :: d

/-- The option can be written, and is shorter than `lim`. -/
def TlvOpt.Ok (lim : Nat) : TlvOpt → Prop
  | .nop     => True
  | .opt t d => 2 ≤ t.toNat ∧ d.length + 2 < lim

/-- The first option of an area, and what is behind it. -/
def firstOpt (lim : Nat) : List UInt8 → Option (TlvOpt × List UInt8)
  | []           => none
  | [t]          => if t = 1 then some (.nop, []) else none
  | t :: l :: bs =>
      if t = 0 then none
      else if t = 1 then some (.nop, l :: bs)
      else if 2 ≤ l.toNat ∧ l.toNat < lim ∧ l.toNat ≤ bs.length + 2 then
        some (.opt t (bs.take (l.toNat - 2)), bs.drop (l.toNat - 2))
      else none

theorem TlvOpt.bytes_length_pos (o : TlvOpt) : 0 < o.bytes.length := by
  cases o <;> simp [TlvOpt.bytes]

theorem TlvOpt.Ok.mono {lim lim' : Nat} (hle : lim ≤ lim') {o : TlvOpt} (h : o.Ok lim) :
    o.Ok lim' := by
  cases o with
  | nop     => trivial
  | opt t d => exact ⟨h.1, Nat.lt_of_lt_of_le h.2 hle⟩

theorem ne_zero_one_of_two_le {t : UInt8} (h : 2 ≤ t.toNat) : t ≠ 0 ∧ t ≠ 1 := by
  constructor <;> rintro rfl <;> exact absurd h (by decide)

theorem two_le_of_ne {t : UInt8} (h0 : t ≠ 0) (h1 : t ≠ 1) : 2 ≤ t.toNat := by
  have hzero : t.toNat ≠ 0 := fun h => h0 (UInt8.toNat_inj.mp h)
  have hone : t.toNat ≠ 1 := fun h => h1 (UInt8.toNat_inj.mp h)
  omega

/-- An option in front is read. -/
theorem firstOpt_bytes {lim : Nat} (hlim : lim ≤ 256) {o : TlvOpt} (ho : o.Ok lim)
    (rest : List UInt8) : firstOpt lim (o.bytes ++ rest) = some (o, rest) := by
  cases o with
  | nop =>
      cases rest with
      | nil      => rfl
      | cons _ _ => rfl
  | opt t d =>
      obtain ⟨h0, h1⟩ := ne_zero_one_of_two_le ho.1
      have hlen : (UInt8.ofNat (d.length + 2)).toNat = d.length + 2 := by
        have hlt := ho.2
        rw [UInt8.toNat_ofNat', Nat.mod_eq_of_lt (by omega)]
      show firstOpt lim (t :: UInt8.ofNat (d.length + 2) :: (d ++ rest)) = _
      rw [firstOpt, if_neg h0, if_neg h1, hlen, List.length_append,
        if_pos ⟨by omega, ho.2, by omega⟩, Nat.add_sub_cancel, List.take_left, List.drop_left]

/-- What is read stands in front. -/
theorem bytes_of_firstOpt {lim : Nat} {bs : List UInt8} {o : TlvOpt} {rest : List UInt8}
    (h : firstOpt lim bs = some (o, rest)) : o.Ok lim ∧ bs = o.bytes ++ rest := by
  unfold firstOpt at h
  split at h
  · cases h
  · split_ifs at h with h1
    cases h
    exact ⟨trivial, by rw [h1]; rfl⟩
  · rename_i t l bs
    split_ifs at h with h0 h1 hlen
    · cases h
      exact ⟨trivial, by rw [h1]; rfl⟩
    · cases h
      have hdata : (bs.take (l.toNat - 2)).length + 2 = l.toNat := by
        rw [List.length_take]
        omega
      refine ⟨⟨two_le_of_ne h0 h1, by rw [hdata]; exact hlen.2.1⟩, ?_⟩
      rw [TlvOpt.bytes, hdata, UInt8.ofNat_toNat, List.cons_append, List.cons_append,
        List.take_append_drop]

/-- The options of an area, and what is behind them. -/
def optsOf (lim : Nat) (bs : List UInt8) : List TlvOpt × List UInt8 :=
  match _h : firstOpt lim bs with
  | none           => ([], bs)
  | some (o, rest) => (o :: (optsOf lim rest).1, (optsOf lim rest).2)
termination_by bs.length
decreasing_by
  all_goals
    rw [(bytes_of_firstOpt _h).2, List.length_append]
    have hpos := o.bytes_length_pos
    omega

/-- Where no option can be read the area holds none, and all of it is left. -/
theorem optsOf_none {lim : Nat} {bs : List UInt8} (h : firstOpt lim bs = none) :
    optsOf lim bs = ([], bs) := by
  rw [optsOf]
  split
  · rfl
  · rename_i heq
    rw [h] at heq
    cases heq

/-- Where one can, it is the first of the options and the rest follow. -/
theorem optsOf_some {lim : Nat} {bs rest : List UInt8} {o : TlvOpt}
    (h : firstOpt lim bs = some (o, rest)) :
    optsOf lim bs = (o :: (optsOf lim rest).1, (optsOf lim rest).2) := by
  rw [optsOf]
  split
  · rename_i heq
    rw [h] at heq
    cases heq
  · rename_i heq
    rw [h] at heq
    cases heq
    rfl

/-- The induction along the options of an area. -/
theorem optsOf_induct {P : List UInt8 → Prop} (lim : Nat)
    (hnone : ∀ bs, firstOpt lim bs = none → P bs)
    (hsome : ∀ bs o rest, firstOpt lim bs = some (o, rest) → P rest → P bs) (bs : List UInt8) :
    P bs := by
  induction hn : bs.length using Nat.strongRecOn generalizing bs with
  | ind n ih =>
      subst hn
      cases hfirst : firstOpt lim bs with
      | none => exact hnone bs hfirst
      | some r =>
          have hlen := congrArg List.length (bytes_of_firstOpt hfirst).2
          have hpos := r.1.bytes_length_pos
          rw [List.length_append] at hlen
          exact hsome bs r.1 r.2 hfirst (ih r.2.length (by omega) r.2 rfl)

/-- The options and the rest make up the area. -/
theorem optsOf_spec (lim : Nat) (bs : List UInt8) :
    bs = (optsOf lim bs).1.flatMap TlvOpt.bytes ++ (optsOf lim bs).2 ∧
      (∀ o ∈ (optsOf lim bs).1, o.Ok lim) ∧ firstOpt lim (optsOf lim bs).2 = none := by
  induction bs using optsOf_induct lim with
  | hnone bs h => rw [optsOf_none h]; exact ⟨rfl, by simp, h⟩
  | hsome bs o rest h ih =>
      obtain ⟨hbytes, hok, hrest⟩ := ih
      obtain ⟨ho, hbs⟩ := bytes_of_firstOpt h
      rw [optsOf_some h]
      refine ⟨?_, ?_, hrest⟩
      · rw [List.flatMap_cons, List.append_assoc, ← hbytes]
        exact hbs
      · intro o' ho'
        cases List.mem_cons.mp ho' with
        | inl heq => rw [heq]; exact ho
        | inr hmem => exact hok o' hmem

/-- The reading of options that were written. -/
theorem optsOf_flatMap_bytes {lim : Nat} (hlim : lim ≤ 256) {opts : List TlvOpt}
    (hopts : ∀ o ∈ opts, o.Ok lim) {rest : List UInt8} (hrest : firstOpt lim rest = none) :
    optsOf lim (opts.flatMap TlvOpt.bytes ++ rest) = (opts, rest) := by
  induction opts with
  | nil => exact optsOf_none hrest
  | cons o opts ih =>
      have hread := ih fun o' ho' => hopts o' (List.mem_cons_of_mem o ho')
      rw [List.flatMap_cons, List.append_assoc,
        optsOf_some (firstOpt_bytes hlim (hopts o List.mem_cons_self) _), hread]

/-- A smaller bound takes no option that a larger one does not. -/
theorem firstOpt_none_of_le {lim lim' : Nat} (hle : lim ≤ lim') (hlim : lim' ≤ 256)
    {bs : List UInt8} (h : firstOpt lim' bs = none) : firstOpt lim bs = none := by
  cases hfirst : firstOpt lim bs with
  | none => rfl
  | some r =>
      obtain ⟨hok, hbs⟩ := bytes_of_firstOpt hfirst
      rw [hbs, firstOpt_bytes hlim (hok.mono hle)] at h
      cases h

/-- The bound does not matter when all options keep it. -/
theorem optsOf_eq_of_ok {lim lim' : Nat} (hle : lim ≤ lim') (hlim : lim' ≤ 256) {bs : List UInt8}
    (hok : ∀ o ∈ (optsOf lim' bs).1, o.Ok lim) : optsOf lim bs = optsOf lim' bs := by
  obtain ⟨hbytes, -, hrest⟩ := optsOf_spec lim' bs
  calc optsOf lim bs
      = optsOf lim ((optsOf lim' bs).1.flatMap TlvOpt.bytes ++ (optsOf lim' bs).2) := by rw [← hbytes]
    _ = optsOf lim' bs :=
      optsOf_flatMap_bytes (Nat.le_trans hle hlim) hok (firstOpt_none_of_le hle hlim hrest)

end Bklib.Lib
