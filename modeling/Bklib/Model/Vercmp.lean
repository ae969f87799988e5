import Bklib.Model.CInt
import Bklib.Model.Libc

/-!
# `Bklib.Model.Vercmp`: `vercmp.c`

A version is a C string; its components are what stands between dots and dashes.
-/

set_option autoImplicit false

namespace Bklib

/-- One of `".-"`. -/
def isVersionSep (c : UInt8) : Bool := c = 46 ∨ c = 45

/-- `sizeof (buf1)`. -/
def versionBufLen : Nat := 1024

/-- `version_part_t`. -/
inductive VersionPartT where
  | str
  | int
  deriving DecidableEq

/-- What `version_part` leaves: its result, the C string in `buf`, and `*pv`. -/
structure VersionPart where
  type : VersionPartT
  buf : List UInt8
  rest : List UInt8
  typed : type = .int ↔ buf.all isdigit = true
  ends : 0 ∉ buf

/-- `version_part`. A component that is too long for `buf` is cut off. -/
def versionPart (pv : List UInt8) : VersionPart :=
  let pv := pv.dropWhile isVersionSep
  let buf := cstr ((pv.takeWhile fun c => !isVersionSep c).take (versionBufLen - 1))
  { type := if buf.all isdigit then .int else .str
    buf := buf
    rest := pv.dropWhile fun c => !isVersionSep c
    typed := by split <;> simp_all
    ends := fun h => mem_cstr_ne h rfl }

/-- `i`: components that are both numbers by their difference as an `int`, others as text. -/
def versionPartCmp (p1 p2 : VersionPart) : Int :=
  if p1.type = p2.type ∧ p1.type = .int then
    toInt32 (strtolDigits p1.buf - strtolDigits p2.buf)
  else strcasecmp p1.buf p2.buf

/-- What is left behind a component is shorter: it starts with a separator, and a component that
starts there skips it. -/
theorem versionPart_rest_lt {v : List UInt8} (h : (versionPart v).rest ≠ []) :
    (versionPart v).rest.length < v.length := by
  have hskip : (v.dropWhile isVersionSep).length ≤ v.length := (List.dropWhile_sublist _).length_le
  have hrest : (versionPart v).rest =
      (v.dropWhile isVersionSep).dropWhile fun c => !isVersionSep c := rfl
  rw [hrest] at h ⊢
  cases hv : v.dropWhile isVersionSep with
  | nil => rw [hv] at h; exact absurd rfl h
  | cons c s =>
      have hc : isVersionSep c = false := by
        have hhead := List.head_dropWhile_not isVersionSep (l := v) (by rw [hv]; simp)
        simpa [hv] using hhead
      have htail : (s.dropWhile fun c => !isVersionSep c).length ≤ s.length :=
        (List.dropWhile_sublist _).length_le
      rw [hv, List.length_cons] at hskip
      rw [List.dropWhile_cons_of_pos (by simp [hc])]
      omega

/-- `vercmp`. -/
def vercmp (v1 v2 : List UInt8) : Int :=
  let p1 := versionPart v1
  let p2 := versionPart v2
  let i := versionPartCmp p1 p2
  if i ≠ 0 then i
  else if h : p1.rest ≠ [] ∧ p2.rest ≠ [] then vercmp p1.rest p2.rest
  else if p1.rest ≠ [] then 1
  else if p2.rest ≠ [] then -1
  else 0
termination_by v1.length
decreasing_by exact versionPart_rest_lt h.1

end Bklib
