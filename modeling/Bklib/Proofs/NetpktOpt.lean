import Bklib.Lib.TlvOpts
import Bklib.Model.NetpktOpt

/-!
# `Bklib.Proofs.NetpktOpt`: the enumeration of an option area

`netpkt_ip_opt_next` takes one option of an area as long as its length, read as a signed character,
is less than 128 (`netpktIpOptNext_some`, `netpktIpOptNext_none`). A whole enumeration gives the
options that `optsOf 128` finds (`netpktIpOpts_spec`), with the type as a signed character.

* `optEnumExact_iff`: when it stays inside the area and lists a well-formed area as it is.
-/

set_option autoImplicit false

namespace Bklib

open Bklib.Lib

/-! ### One call -/

/-- An option at address `a`, as `netpkt_ip_opt_next` gives it. -/
def seenOpt (a : Int) : TlvOpt → IpOpt
  | .nop     => ⟨1, none, 0⟩
  | .opt t d => ⟨charToInt t, some (a + 2), d.length⟩

/-- The bytes that are read of it. -/
def optLoads (a : Int) : TlvOpt → List Int
  | .nop     => [a]
  | .opt _ _ => [a, a + 1]

/-- The bytes that are read where no option is found. -/
def endLoads (a : Int) : List UInt8 → List Int
  | []     => []
  | t :: _ => if t = 0 then [a] else [a, a + 1]

/-- A length that is taken, as a signed character. -/
theorem charToInt_len {l : UInt8} {k : Int} :
    (¬(charToInt l < 2 ∨ k < charToInt l)) ↔ 2 ≤ l.toNat ∧ l.toNat < 128 ∧ (l.toNat : Int) ≤ k := by
  have hl := l.toNat_lt
  by_cases h : l.toNat < 128
  · rw [charToInt_of_lt h]
    omega
  · rw [charToInt_of_ge (by omega)]
    omega

/-- Only the byte 0 is the type 0. -/
theorem charToInt_eq_zero {b : UInt8} : charToInt b = 0 ↔ b = 0 := by
  constructor
  · intro h
    have hb := b.toNat_lt
    by_cases hlt : b.toNat < 128
    · rw [charToInt_of_lt hlt] at h
      exact UInt8.toNat_inj.mp (by show b.toNat = 0; omega)
    · rw [charToInt_of_ge (by omega)] at h
      omega
  · rintro rfl
    rfl

/-- Only the byte 1 is the type 1. -/
theorem charToInt_eq_one {b : UInt8} : charToInt b = 1 ↔ b = 1 := by
  constructor
  · intro h
    have hb := b.toNat_lt
    by_cases hlt : b.toNat < 128
    · rw [charToInt_of_lt hlt] at h
      exact UInt8.toNat_inj.mp (by show b.toNat = 1; omega)
    · rw [charToInt_of_ge (by omega)] at h
      omega
  · rintro rfl
    rfl

section
variable {mem : Int → UInt8} {start : Option Int} {optlen : Int} {c : OptCursor} {a : Int} {k : Nat}

/-- The call on an option. -/
theorem netpktIpOptNext_some (hp : c.p.or start = some a) (hend : (optEnd start optlen - a).toNat = k)
    {o : TlvOpt} {rest : List UInt8} (h : firstOpt 128 (readAt mem a k) = some (o, rest)) :
    netpktIpOptNext mem start optlen c =
      ((seenOpt a o).type,
        ⟨some (a + o.bytes.length), (seenOpt a o).data, (seenOpt a o).len,
          c.loaded ++ optLoads a o⟩) := by
  simp only [netpktIpOptNext, hp]
  -- an option in the last byte can only be a no-op
  match k with
  | 0 => simp [firstOpt] at h
  | 1 =>
      have hstop : optEnd start optlen = a + 1 := by omega
      rw [readAt_succ, readAt_zero, firstOpt] at h
      split_ifs at h with hone
      cases h
      rw [if_neg (by omega), hone]
      rfl
  | k + 2 =>
      have hstop : optEnd start optlen = a + (k + 2 : Nat) := by omega
      rw [readAt_succ, readAt_succ, firstOpt] at h
      rw [if_neg (by omega)]
      split_ifs at h with hzero hone hlen
      · cases h
        rw [hone]
        rfl
      · cases h
        rw [length_readAt] at hlen
        have htaken := charToInt_len.mpr ⟨hlen.1, hlen.2.1, Int.ofNat_le.mpr hlen.2.2⟩
        have hdata : ((readAt mem (a + 1 + 1) k).take ((mem (a + 1)).toNat - 2)).length + 2
            = (mem (a + 1)).toNat := by
          rw [List.length_take, length_readAt]
          omega
        rw [if_neg (mt charToInt_eq_zero.mp hzero), if_neg (mt charToInt_eq_one.mp hone),
          if_neg (by omega), charToInt_of_lt hlen.2.1]
        simp only [seenOpt, TlvOpt.bytes, optLoads, List.length_cons]
        congr 3
        · omega
        · omega

/-- The call where no option is. -/
theorem netpktIpOptNext_none (hp : c.p.or start = some a) (hend : (optEnd start optlen - a).toNat = k)
    (h : firstOpt 128 (readAt mem a k) = none) :
    (netpktIpOptNext mem start optlen c).1 = 0 ∧
      (netpktIpOptNext mem start optlen c).2.loaded
        = c.loaded ++ endLoads a (readAt mem a k) := by
  simp only [netpktIpOptNext, hp]
  -- no byte left, the last byte, or two and more: only then is there a length to read
  match k with
  | 0 =>
      rw [if_pos (by omega)]
      exact ⟨rfl, by simp [endLoads]⟩
  | 1 =>
      have hstop : optEnd start optlen = a + 1 := by omega
      rw [readAt_succ, readAt_zero] at h ⊢
      rw [firstOpt] at h
      split_ifs at h with hone
      rw [if_neg (by omega)]
      by_cases hzero : mem a = 0
      · rw [hzero]
        exact ⟨rfl, rfl⟩
      · rw [if_neg (mt charToInt_eq_zero.mp hzero), if_neg (mt charToInt_eq_one.mp hone),
          if_pos (by omega), endLoads, if_neg hzero]
        exact ⟨rfl, rfl⟩
  | k + 2 =>
      have hstop : optEnd start optlen = a + (k + 2 : Nat) := by omega
      rw [readAt_succ, readAt_succ] at h ⊢
      rw [firstOpt] at h
      rw [if_neg (by omega)]
      split_ifs at h with hzero hone hlen
      · rw [hzero]
        exact ⟨rfl, rfl⟩
      · rw [length_readAt] at hlen
        have hbad : charToInt (mem (a + 1)) < 2 ∨
            ((k + 2 : Nat) : Int) < charToInt (mem (a + 1)) := by
          by_contra hgood
          obtain ⟨h2, h128, hfit⟩ := charToInt_len.mp hgood
          exact hlen ⟨h2, h128, by omega⟩
        rw [if_neg (mt charToInt_eq_zero.mp hzero), if_neg (mt charToInt_eq_one.mp hone),
          if_pos (by omega), endLoads, if_neg hzero]
        exact ⟨rfl, rfl⟩

end

/-! ### The whole enumeration -/

/-- An option that is found has a type other than zero. -/
theorem seenOpt_type_ne_zero {bs rest : List UInt8} {o : TlvOpt} {a : Int}
    (h : firstOpt 128 bs = some (o, rest)) : (seenOpt a o).type ≠ 0 := by
  cases o with
  | nop     => exact one_ne_zero
  | opt t d =>
      obtain ⟨hok, -⟩ := bytes_of_firstOpt h
      exact mt charToInt_eq_zero.mp (ne_zero_one_of_two_le hok.1).1

/-- What `f` makes of options that stand one behind the other from `a` on. -/
def mapOpts {γ : Type} (f : Int → TlvOpt → γ) : Int → List TlvOpt → List γ
  | _, []        => []
  | a, o :: opts => f a o :: mapOpts f (a + o.bytes.length) opts

section
variable {mem : Int → UInt8} {start : Option Int} {optlen : Int}

/-- What is behind an option, in memory. -/
theorem rest_of_firstOpt {a : Int} {k : Nat} {o : TlvOpt} {rest : List UInt8}
    (h : firstOpt 128 (readAt mem a k) = some (o, rest)) :
    o.bytes.length ≤ k ∧ readAt mem a o.bytes.length = o.bytes ∧
      rest = readAt mem (a + o.bytes.length) (k - o.bytes.length) := by
  obtain ⟨-, hbytes⟩ := bytes_of_firstOpt h
  have hlen : o.bytes.length ≤ k := by
    have h' := congrArg List.length hbytes
    rw [length_readAt, List.length_append] at h'
    omega
  refine ⟨hlen, ?_, ?_⟩
  · rw [← take_readAt mem a hlen, hbytes, List.take_left]
  · rw [← drop_readAt mem a hlen, hbytes, List.drop_left]

theorem netpktIpOpts_nil {c : OptCursor} (h : (netpktIpOptNext mem start optlen c).1 = 0) :
    netpktIpOpts mem start optlen c = ([], (netpktIpOptNext mem start optlen c).2) := by
  rw [netpktIpOpts]
  exact dif_pos h

/-- A round that finds an option, and the rounds behind it. -/
theorem netpktIpOpts_cons {c : OptCursor} (h : (netpktIpOptNext mem start optlen c).1 ≠ 0) :
    netpktIpOpts mem start optlen c =
      let r := netpktIpOptNext mem start optlen c
      (⟨r.1, r.2.data, r.2.len⟩ :: (netpktIpOpts mem start optlen r.2).1,
        (netpktIpOpts mem start optlen r.2).2) := by
  rw [netpktIpOpts]
  exact dif_neg h

/-- The enumeration from `a` on. Induction along the options of the area. -/
theorem netpktIpOpts_spec (bs : List UInt8) :
    ∀ {c : OptCursor} {a : Int} {k : Nat}, c.p.or start = some a → (optEnd start optlen - a).toNat = k →
      bs = readAt mem a k →
      (netpktIpOpts mem start optlen c).1 = mapOpts seenOpt a (optsOf 128 bs).1 ∧
        (netpktIpOpts mem start optlen c).2.loaded =
          c.loaded ++ (mapOpts optLoads a (optsOf 128 bs).1).flatten ++
            endLoads (a + ((optsOf 128 bs).1.flatMap TlvOpt.bytes).length) (optsOf 128 bs).2 := by
  induction bs using optsOf_induct 128 with
  | hnone bs h =>
      intro c a k hp hend hbs
      obtain ⟨htype, hloaded⟩ := netpktIpOptNext_none hp hend (hbs ▸ h)
      rw [netpktIpOpts_nil htype, optsOf_none h, hloaded, hbs]
      simp [mapOpts]
  | hsome bs o rest h ih =>
      intro c a k hp hend hbs
      have hcall := netpktIpOptNext_some hp hend (hbs ▸ h)
      obtain ⟨hlen, -, hrest⟩ := rest_of_firstOpt (hbs ▸ h)
      have htype : (netpktIpOptNext mem start optlen c).1 ≠ 0 := by
        rw [hcall]
        exact seenOpt_type_ne_zero h
      obtain ⟨hopts, hloaded⟩ := ih (c := (netpktIpOptNext mem start optlen c).2)
        (a := a + o.bytes.length) (k := k - o.bytes.length) (by rw [hcall]; rfl)
        (by omega) hrest
      rw [netpktIpOpts_cons htype, optsOf_some h]
      refine ⟨?_, ?_⟩
      · show _ :: (netpktIpOpts mem start optlen _).1 = _
        rw [hopts, hcall]
        rfl
      · show (netpktIpOpts mem start optlen _).2.loaded = _
        rw [hloaded, hcall]
        simp only [mapOpts, List.flatten_cons, List.flatMap_cons, List.length_append, Nat.cast_add,
          List.append_assoc, Int.add_assoc]

end

/-! ### Areas that are listed exactly -/

/-- An option as a caller expects it, with a type from 1 to 255. -/
def listedOpt (a : Int) : TlvOpt → IpOpt
  | .nop     => ⟨1, none, 0⟩
  | .opt t d => ⟨t.toNat, some (a + 2), d.length⟩

/-- The options end at the end of the area or at a zero. -/
def OptsEnd (rest : List UInt8) : Prop := rest = [] ∨ rest.head? = some 0

/-- The enumeration of the `n` bytes at `start` reads no other byte, and lists an area of options as
it is. -/
structure OptEnumExact (mem : Int → UInt8) (start : Int) (n : Nat) : Prop where
  inside : ∀ a ∈ (netpktIpOpts mem (some start) n optCursorInit).2.loaded,
    start ≤ a ∧ a < start + n
  exact : ∀ opts rest, (∀ o ∈ opts, TlvOpt.Ok 256 o) → OptsEnd rest →
    readAt mem start n = opts.flatMap TlvOpt.bytes ++ rest →
    (netpktIpOpts mem (some start) n optCursorInit).1 = mapOpts listedOpt start opts

/-- The type and the length are no negative characters. -/
def OptPlain : TlvOpt → Prop
  | .nop     => True
  | .opt t d => t.toNat < 128 ∧ d.length + 2 < 128

/-- The options do not end before a type byte that is the last byte of the area, and in an area of
options all of them are plain. -/
structure OptsPlain (area : List UInt8) : Prop where
  cut : ∀ t, (optsOf 128 area).2 = [t] → t = 0
  plain : OptsEnd (optsOf 256 area).2 → ∀ o ∈ (optsOf 256 area).1, OptPlain o

/-- Where the options end, none is found with any length. -/
theorem firstOpt_of_optsEnd {rest : List UInt8} (h : OptsEnd rest) : firstOpt 256 rest = none := by
  cases rest with
  | nil => rfl
  | cons t bs =>
      have hzero : t = 0 := by simpa [OptsEnd] using h
      subst hzero
      cases bs <;> rfl

theorem OptPlain.ok {o : TlvOpt} (h : OptPlain o) (hok : o.Ok 256) : o.Ok 128 := by
  cases o with
  | nop     => trivial
  | opt t d => exact ⟨hok.1, h.2⟩

theorem seenOpt_of_plain {o : TlvOpt} (h : OptPlain o) (a : Int) : seenOpt a o = listedOpt a o := by
  cases o with
  | nop     => rfl
  | opt t d => rw [seenOpt, charToInt_of_lt h.1, listedOpt]

/-- An option seen as it is listed is plain. -/
theorem plain_of_seenOpt {o : TlvOpt} {a : Int} (hok : o.Ok 128) (h : seenOpt a o = listedOpt a o) :
    OptPlain o := by
  cases o with
  | nop     => trivial
  | opt t d =>
      have ht := t.toNat_lt
      have htype : charToInt t = t.toNat := congrArg IpOpt.type h
      by_cases hlt : t.toNat < 128
      · exact ⟨hlt, hok.2⟩
      · rw [charToInt_of_ge (by omega)] at htype
        omega

/-- Maps that agree on the options agree on the area. -/
theorem mapOpts_congr {γ : Type} {f g : Int → TlvOpt → γ} {opts : List TlvOpt}
    (h : ∀ o ∈ opts, ∀ a, f a o = g a o) (a : Int) : mapOpts f a opts = mapOpts g a opts := by
  induction opts generalizing a with
  | nil => rfl
  | cons o opts ih =>
      rw [mapOpts, mapOpts, h o List.mem_cons_self a,
        ih (fun o' ho' => h o' (List.mem_cons_of_mem o ho'))]

/-- When the enumeration lists the options of an area, they are plain. Induction along the area. -/
theorem plain_of_mapOpts (bs : List UInt8) :
    ∀ a : Int, mapOpts seenOpt a (optsOf 128 bs).1 = mapOpts listedOpt a (optsOf 256 bs).1 →
      ∀ o ∈ (optsOf 256 bs).1, OptPlain o := by
  induction bs using optsOf_induct 256 with
  | hnone bs h =>
      intro a _
      rw [optsOf_none h]
      simp
  | hsome bs o rest h ih =>
      intro a heq
      rw [optsOf_some h] at heq ⊢
      cases hfirst : firstOpt 128 bs with
      | none =>
          -- A reader that does not take the option lists nothing.
          rw [optsOf_none hfirst] at heq
          cases heq
      | some r =>
          obtain ⟨hok, hbs⟩ := bytes_of_firstOpt hfirst
          have hsame : some (o, rest) = some r := by
            rw [← h, hbs]
            exact firstOpt_bytes (by omega) (hok.mono (by omega)) r.2
          cases hsame
          rw [optsOf_some hfirst] at heq
          obtain ⟨hhead, htail⟩ := List.cons.inj heq
          intro o' ho'
          cases List.mem_cons.mp ho' with
          | inl he   => exact he ▸ plain_of_seenOpt hok hhead
          | inr hmem => exact ih _ htail o' hmem

/-- The bytes read of options lie in these options. -/
theorem optLoads_inside {opts : List TlvOpt} {a x : Int}
    (hx : x ∈ (mapOpts optLoads a opts).flatten) :
    a ≤ x ∧ x < a + (opts.flatMap TlvOpt.bytes).length := by
  induction opts generalizing a with
  | nil => cases hx
  | cons o opts ih =>
      rw [mapOpts, List.flatten_cons, List.mem_append] at hx
      rw [List.flatMap_cons, List.length_append]
      cases hx with
      | inl hx =>
          cases o with
          | nop =>
              obtain rfl : x = a := List.mem_singleton.mp hx
              simp only [TlvOpt.bytes, List.length_singleton]
              omega
          | opt t d =>
              have hmem : x = a ∨ x = a + 1 := by simpa [optLoads] using hx
              simp only [TlvOpt.bytes, List.length_cons]
              omega
      | inr hx =>
          have hih := ih hx
          have hpos := o.bytes_length_pos
          omega

/-- Behind the options at most two bytes are looked at. -/
theorem mem_endLoads {rest : List UInt8} {b x : Int} (hx : x ∈ endLoads b rest) :
    x = b ∨ x = b + 1 := by
  cases rest with
  | nil => cases hx
  | cons t rest =>
      rw [endLoads] at hx
      split at hx
      · exact Or.inl (List.mem_singleton.mp hx)
      · simpa using hx

/-- Where the options end, the byte behind the area is read exactly when a type is cut off. -/
theorem endLoads_inside (rest : List UInt8) (b : Int) :
    (∀ x ∈ endLoads b rest, x < b + rest.length) ↔ ∀ t, rest = [t] → t = 0 := by
  match rest with
  | []          => simp [endLoads]
  | [t]         =>
      by_cases hzero : t = 0
      · simp [endLoads, hzero]
      · simp [endLoads, hzero]
  | t :: l :: r =>
      constructor
      · intro _ t' ht
        cases ht
      · intro _ x hx
        have hmem := mem_endLoads hx
        simp only [List.length_cons]
        omega

/-- The enumeration is exact exactly on these areas. -/
theorem optEnumExact_iff (mem : Int → UInt8) (start : Int) (n : Nat) :
    OptEnumExact mem start n ↔ OptsPlain (readAt mem start n) := by
  obtain ⟨hopts, hloaded⟩ := @netpktIpOpts_spec mem (some start) n (readAt mem start n)
    optCursorInit start n rfl
    (by simp only [optEnd, Option.getD_some]; omega) rfl
  obtain ⟨hbytes, -, -⟩ := optsOf_spec 128 (readAt mem start n)
  have hlen : n = ((optsOf 128 (readAt mem start n)).1.flatMap TlvOpt.bytes).length
      + (optsOf 128 (readAt mem start n)).2.length := by
    have h := congrArg List.length hbytes
    rwa [length_readAt, List.length_append] at h
  generalize hb : start + (((optsOf 128 (readAt mem start n)).1.flatMap TlvOpt.bytes).length : Int)
    = b at hloaded
  constructor
  · intro h
    refine ⟨?_, fun hend => ?_⟩
    · refine (endLoads_inside _ b).mp fun x hx => ?_
      have hin := h.inside x (by rw [hloaded]; exact List.mem_append_right _ hx)
      omega
    · obtain ⟨hbytes', hok, -⟩ := optsOf_spec 256 (readAt mem start n)
      have hlist := h.exact _ _ hok hend hbytes'
      rw [hopts] at hlist
      exact plain_of_mapOpts _ start hlist
  · intro h
    refine ⟨fun x hx => ?_, fun opts rest hok hend harea => ?_⟩
    · rw [hloaded, List.mem_append] at hx
      cases hx with
      | inl hx =>
          have hin := optLoads_inside hx
          omega
      | inr hx =>
          have hlo := mem_endLoads hx
          have hin := (endLoads_inside _ _).mpr h.cut x hx
          omega
    · -- with no option of 128 bytes or more, both limits give the same options
      have hread : optsOf 256 (readAt mem start n) = (opts, rest) := by
        rw [harea]
        exact optsOf_flatMap_bytes (by omega) hok (firstOpt_of_optsEnd hend)
      have hplain := h.plain (by rw [hread]; exact hend)
      rw [hread] at hplain
      have hsame : optsOf 128 (readAt mem start n) = (opts, rest) := by
        rw [optsOf_eq_of_ok (show 128 ≤ 256 by omega) (Nat.le_refl 256) (by
          rw [hread]
          exact fun o ho => (hplain o ho).ok (hok o ho)), hread]
      rw [hopts, hsame]
      exact mapOpts_congr (fun o ho a => seenOpt_of_plain (hplain o ho) a) start

/-- A security option, whose type is 130. -/
theorem optEnumExact_security :
    ¬OptEnumExact (fun a => if a = 1 then 130 else if a = 2 then 3 else 0) 1 3 := by
  rw [optEnumExact_iff]
  intro h
  have harea : readAt (fun a : Int => if a = 1 then (130 : UInt8) else if a = 2 then 3 else 0) 1 3
      = [TlvOpt.opt 130 [0]].flatMap TlvOpt.bytes ++ [] := by decide
  have hread : optsOf 256 (readAt (fun a : Int => if a = 1 then (130 : UInt8) else
      if a = 2 then 3 else 0) 1 3) = ([TlvOpt.opt 130 [0]], []) := by
    rw [harea]
    exact optsOf_flatMap_bytes (Nat.le_refl _) (by simp [TlvOpt.Ok]) rfl
  have hplain := h.plain (by rw [hread]; exact Or.inl rfl) (.opt 130 [0]) (by rw [hread]; simp)
  exact absurd hplain.1 (by decide)

end Bklib
