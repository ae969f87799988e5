import Bklib.Model.Libc
import Bklib.Model.Snprintf

/-!
# `Bklib.Model.Cfg`: lists of lines in `cfg.c`

Strings that are read are C strings, and the memory of a list is the bytes from the pointer on.
-/

set_option autoImplicit false

namespace Bklib

open Lib

/-! ## `mru` -/

/-- What is left of a text behind its first line. -/
def nextLine (src : List UInt8) : List UInt8 := (src.dropWhile (· ≠ 10)).drop 1

theorem nextLine_lt {src : List UInt8} (h : src ≠ []) : (nextLine src).length < src.length := by
  have hle := (List.dropWhile_suffix (· ≠ (10 : UInt8)) (l := src)).length_le
  have hpos := List.length_pos_iff.mpr h
  rw [nextLine, List.length_drop]
  omega

/-- The loop of `mru` over the old list. There is no result where `srcbuf` is left. -/
def mruLoop (val : List UInt8) (max : Int) (src : List UInt8) (count : Int) (dst : SnBuf) :
    Option SnBuf :=
  if _h : src = [] then some dst
  else if max ≤ count then some dst
  else
    let srcbuf := src.takeWhile (· ≠ 10)
    if 4096 ≤ srcbuf.length then none
    else if srcbuf = [] ∨ strcasecmpEq val srcbuf then mruLoop val max (nextLine src) count dst
    else mruLoop val max (nextLine src) (count + 1) (dst.add (srcbuf ++ [10]))
termination_by src.length
decreasing_by
  · exact nextLine_lt _h
  · exact nextLine_lt _h

/-- `mru`: the memory of `dstbuf`. -/
def mru (mru val : List UInt8) (dstbuf : Int → UInt8) (dstlen max : Int) : Option (Int → UInt8) :=
  let dst := (⟨dstbuf, 0, dstlen, []⟩ : SnBuf).add (val ++ [10])
  (mruLoop val max mru 1 dst).map (·.mem)

/-- The arguments of a call of `mru`, but for the list and `max`. -/
structure MruCall where
  val    : List UInt8
  dstbuf : Int → UInt8
  dstlen : Int

/-- Calls of `mru`, each with the result of the one before. -/
def mruCalls (max : Int) (calls : List MruCall) : Option (List UInt8) :=
  calls.foldlM (fun list call =>
    (mru list call.val call.dstbuf call.dstlen max).map fun mem =>
      cstr (readAt mem 0 call.dstlen.toNat)) []

/-! ## Packed lists -/

/-- `cfg_list_pack`: `*p` and `*n` with the memory, and the result. -/
def cfgListPack (b : SnBuf) (src : List UInt8) : SnBuf × Int :=
  let text := src ++ [10]
  let out := b.add text
  (if 0 < text.length then out else { out with buf := b.buf, len := b.len }, text.length)

/-- The loop of `cfg_list_next`: what is left at `p`, the memory of the buffer, and `buf` and `len`. -/
def cfgListCopy : List UInt8 → (Int → UInt8) → Int → Int → List UInt8 × (Int → UInt8) × Int × Int
  | [],     mem, buf, len => ([], mem, buf, len)
  | c :: p, mem, buf, len =>
      if c = 0 ∨ c = 10 then (c :: p, mem, buf, len)
      else if 0 < len then cfgListCopy p (writeAt mem buf [c]) (buf + 1) (len - 1)
      else cfgListCopy p mem buf len

/-- What `cfg_list_next` leaves: `*q`, the memory of the buffer, and whether it returns the buffer. -/
structure CfgListNext where
  q   : Option (List UInt8)
  mem : Int → UInt8
  ret : Bool

/-- `cfg_list_next`. The buffer is at 0. -/
def cfgListNext (q : Option (List UInt8)) (mem : Int → UInt8) (len : Int) : CfgListNext :=
  match q with
  | none   => ⟨none, mem, false⟩
  | some p =>
      if p.headD 0 = 0 then ⟨some p, mem, false⟩
      else
        let (p, mem, buf, len) := cfgListCopy p mem 0 (len - 1)
        let mem' := if 0 < len then writeAt mem buf [0] else mem
        let len := if 0 < len then len - 1 else len
        let p := if p.headD 0 ≠ 0 then p.drop 1 else p
        ⟨some p, mem', decide (0 ≤ len)⟩

end Bklib
