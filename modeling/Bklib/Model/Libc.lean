import Mathlib.Algebra.Ring.Nat
import Mathlib.Data.List.Basic
import Mathlib.Data.List.TakeWhile

/-!
# `Bklib.Model.Libc`: functions of the C library that the modelled code calls

Memory from a pointer on is a `List UInt8`, with a NUL wherever the list has ended. A C string is
the list of its bytes before the NUL. Character classes are those of the C locale.
-/

set_option autoImplicit false

namespace Bklib

/-- `memcmp` of two ranges of the same length: the difference of the first bytes that differ. -/
def memcmp : List UInt8 → List UInt8 → Int
  | a :: as, b :: bs => if a = b then memcmp as bs else (a.toNat : Int) - b.toNat
  | _,       _       => 0

/-- `memcmp` gives zero on equal bytes only. -/
theorem memcmp_eq_zero_iff {as bs : List UInt8} (hlen : as.length = bs.length) :
    memcmp as bs = 0 ↔ as = bs := by
  induction as generalizing bs with
  | nil =>
      cases bs with
      | nil => simp [memcmp]
      | cons b bs => exact absurd hlen (by simp)
  | cons a as ih =>
      cases bs with
      | nil => exact absurd hlen (by simp)
      | cons b bs =>
          unfold memcmp
          by_cases hab : a = b
          · rw [if_pos hab, ih (by simpa using hlen), hab]
            simp
          · have hne : a.toNat ≠ b.toNat := fun h => hab (UInt8.toNat_inj.mp h)
            rw [if_neg hab]
            simp only [List.cons.injEq, hab, false_and, iff_false]
            omega

/-! ## Characters -/

/-- The bytes of an ASCII literal. -/
def bytes (s : String) : List UInt8 := s.toList.map fun c => c.toNat.toUInt8

/-- The C string that starts a piece of memory. -/
def cstr (mem : List UInt8) : List UInt8 := mem.takeWhile (· ≠ 0)

/-- A text with no zero is its own C string. -/
theorem cstr_eq_self {s : List UInt8} (h : 0 ∉ s) : cstr s = s := by
  induction s with
  | nil => rfl
  | cons ch s ih =>
      have hch : ch ≠ 0 := fun h0 => h (by simp [h0])
      have hs := ih fun h0 => h (List.mem_cons_of_mem _ h0)
      rw [cstr, List.takeWhile_cons_of_pos (by simpa using hch)]
      exact congrArg _ hs

/-- A C string ends at its first zero, whatever is behind it. -/
theorem cstr_append_nul {s : List UInt8} (h : 0 ∉ s) (r : List UInt8) :
    cstr (s ++ ([0] ++ r)) = s := by
  have hs := cstr_eq_self h
  rw [cstr] at hs
  rw [cstr, List.takeWhile_append, hs, if_pos rfl, List.singleton_append,
    List.takeWhile_cons_of_neg (by simp), List.append_nil]

/-- A C string goes on up to its NUL, which is there. -/
theorem cstr_getD (mem : List UInt8) {i : Nat} (hi : i ≤ (cstr mem).length) :
    mem.getD i 0 = (cstr mem).getD i 0 := by
  induction mem generalizing i with
  | nil => rfl
  | cons ch mem ih =>
      by_cases hch : ch = 0
      · subst hch
        have hzero : i = 0 := Nat.le_zero.mp hi
        rw [hzero]
        rfl
      · have hcons : cstr (ch :: mem) = ch :: cstr mem :=
          List.takeWhile_cons_of_pos (by simpa using hch)
        rw [hcons] at hi ⊢
        cases i with
        | zero   => rfl
        | succ i => exact ih (Nat.le_of_succ_le_succ hi)

/-- The C string from a character of another one on. -/
theorem cstr_drop (mem : List UInt8) {i : Nat} (hi : i ≤ (cstr mem).length) :
    cstr (mem.drop i) = (cstr mem).drop i := by
  induction i generalizing mem with
  | zero => rfl
  | succ i ih =>
      cases mem with
      | nil => exact absurd hi (Nat.not_succ_le_zero i)
      | cons ch mem =>
          by_cases hch : ch = 0
          · subst hch
            exact absurd hi (Nat.not_succ_le_zero i)
          · have hcons : cstr (ch :: mem) = ch :: cstr mem :=
              List.takeWhile_cons_of_pos (by simpa using hch)
            rw [hcons] at hi ⊢
            exact ih mem (Nat.le_of_succ_le_succ hi)

/-- What `*arg` says of the argument. -/
theorem cstr_first (mem : List UInt8) : mem.getD 0 0 = (cstr mem).headD 0 := by
  rw [cstr_getD mem (Nat.zero_le _)]
  cases cstr mem <;> rfl

theorem mem_cstr_ne {mem : List UInt8} {c : UInt8} (h : c ∈ cstr mem) : c ≠ 0 := by
  simpa using List.mem_takeWhile_imp h

/-- `isspace`: a blank, or one of `\t \n \v \f \r`. -/
def isspace (c : UInt8) : Bool := c = 32 ∨ 9 ≤ c ∧ c ≤ 13

/-- `isdigit`. -/
def isdigit (c : UInt8) : Bool := 48 ≤ c ∧ c ≤ 57

/-- `isalpha`. -/
def isalpha (c : UInt8) : Bool := 65 ≤ c ∧ c ≤ 90 ∨ 97 ≤ c ∧ c ≤ 122

/-- `isalnum`. -/
def isalnum (c : UInt8) : Bool := isalpha c ∨ isdigit c

/-- `tolower`. -/
def tolower (c : UInt8) : UInt8 := if 65 ≤ c ∧ c ≤ 90 then c + 32 else c

/-- `strncmp (s, t, n) == 0` for C strings. -/
def strncmpEq (s t : List UInt8) (n : Nat) : Bool := s.take n = t.take n

/-- The sign of `strcmp` for C strings. -/
def strcmp : List UInt8 → List UInt8 → Int
  | [],     []     => 0
  | [],     _ :: _ => -1
  | _ :: _, []     => 1
  | c :: s, d :: t => if c = d then strcmp s t else if c < d then -1 else 1

/-- `strcmp` gives zero on equal texts only. -/
theorem strcmp_eq_zero_iff {s t : List UInt8} : strcmp s t = 0 ↔ s = t := by
  induction s generalizing t with
  | nil => cases t <;> simp [strcmp]
  | cons c s ih =>
      cases t with
      | nil => simp [strcmp]
      | cons d t =>
          unfold strcmp
          by_cases hcd : c = d
          · rw [if_pos hcd, ih, hcd, List.cons.injEq, and_iff_right rfl]
          · rw [if_neg hcd, List.cons.injEq]
            refine iff_of_false ?_ fun h => hcd h.1
            split <;> decide

/-- `strcasecmp (s, t) == 0` for C strings. -/
def strcasecmpEq (s t : List UInt8) : Bool := s.map tolower = t.map tolower

/-- `strcasecmp` of C strings: the difference of the first characters that differ, or 0. -/
def strcasecmp : List UInt8 → List UInt8 → Int
  | [],     []     => 0
  | [],     d :: _ => -((tolower d).toNat : Int)
  | c :: _, []     => (tolower c).toNat
  | c :: s, d :: t =>
      if tolower c = tolower d then strcasecmp s t else ((tolower c).toNat : Int) - (tolower d).toNat

/-! ## `strtoul` with base 0 -/

/-- What a character counts as a digit. -/
def digitVal (c : UInt8) : Nat :=
  if isdigit c then c.toNat - 48
  else if isalpha c then (tolower c).toNat - 87
  else 36

/-- The number that digits of a base spell. -/
def digitsVal (base : Nat) (ds : List UInt8) : Nat :=
  ds.foldl (fun v c => v * base + digitVal c) 0

/-- `ULONG_MAX`. -/
def ulongMax : Nat := 2 ^ 64 - 1

/-- `LONG_MAX`. -/
def longMax : Nat := 2 ^ 63 - 1

/-- `strtol (s, &p, 10)` of a string of digits. -/
def strtolDigits (s : List UInt8) : Nat := min (digitsVal 10 s) longMax

/-- The base that the digits at `s` are in, and the length of the prefix that says so. -/
def strtoulBase (s : List UInt8) : Nat × Nat :=
  if s.head? = some 48 ∧ (s.drop 1).head?.map tolower = some 120 ∧
      ((s.drop 2).head?.any fun c => digitVal c < 16) = true then (16, 2)
  else if s.head? = some 48 then (8, 0)
  else (10, 0)

/-- What `strtoul` reads once space and sign are gone: the value, and how far it got. -/
def strtoulDigits (s : List UInt8) : Option (Nat × Nat) :=
  let base := strtoulBase s
  let ds := (s.drop base.2).takeWhile fun c => digitVal c < base.1
  if ds = [] then none else some (digitsVal base.1 ds, base.2 + ds.length)

/-- What `strtoul` reads once the space in front is gone. A value beyond `ULONG_MAX` is `ULONG_MAX`
whatever its sign. -/
def strtoulSigned (s : List UInt8) : Option (Nat × Nat) :=
  let neg := s.head? == some 45
  let sign := if neg || s.head? == some 43 then 1 else 0
  (strtoulDigits (s.drop sign)).map fun (v, n) =>
    (if ulongMax < v then ulongMax else if neg then (2 ^ 64 - v) % 2 ^ 64 else v, sign + n)

/-- `strtoul (s, &q, 0)`: the value and `q - s`, which is 0 when there is no number. -/
def strtoul (s : List UInt8) : Nat × Nat :=
  match strtoulSigned (s.dropWhile isspace) with
  | none        => (0, 0)
  | some (v, n) => (v, (s.takeWhile isspace).length + n)

/-- `strtol (s, &q, 0)`, with `q - s` as for `strtoul`. A value that is no `long` is the nearest one. -/
def strtol (s : List UInt8) : Int × Nat :=
  let t := s.dropWhile isspace
  let neg := t.head? == some 45
  let sign := if neg || t.head? == some 43 then 1 else 0
  match strtoulDigits (t.drop sign) with
  | none        => (0, 0)
  | some (v, n) =>
      (if neg then max (-(v : Int)) (-(longMax : Int) - 1) else min v longMax,
        (s.takeWhile isspace).length + sign + n)

/-! ## `strtoul` with base 16 -/

/-- Whether a character is a digit of base 16. -/
def isxdigit (c : UInt8) : Bool := digitVal c < 16

/-- `strtoul (s, &q, 16)`, with `q - s` as for base 0. A prefix `0x` is taken in front of a digit. -/
def strtoul16 (s : List UInt8) : Nat × Nat :=
  let t := s.dropWhile isspace
  let neg := t.head? == some 45
  let sign := if neg || t.head? == some 43 then 1 else 0
  let hex := if (strtoulBase (t.drop sign)).1 = 16 then 2 else 0
  let ds := ((t.drop sign).drop hex).takeWhile isxdigit
  if ds = [] then (0, 0)
  else
    let v := digitsVal 16 ds
    (if ulongMax < v then ulongMax else if neg then (2 ^ 64 - v) % 2 ^ 64 else v,
      (s.takeWhile isspace).length + sign + hex + ds.length)

end Bklib
