import Bklib.Proofs.CfgStore
import Bklib.Proofs.HttpHeaderText
import Bklib.Proofs.UrlParts

/-!
# `Bklib.Proofs.CfgInt`: numbers that are put and read back

`cfg_put_int` prints a number, and `cfg_get_int` reads it with `strtoul`, which takes a negative
number from `2 ^ 64`. The conversion to an `int` gives the number back (`cfg_put_int_get_int`).
-/

set_option autoImplicit false

namespace Bklib

open Lib

/-! ## Negative numbers -/

/-- A negative int is printed with a minus sign in front of its digits. -/
theorem fmtD_neg {n : Nat} (hpos : 0 < n) (hn : n ≤ 2 ^ 31) :
    fmtD (-(n : Int)) = 45 :: decimal n := by
  obtain ⟨m, rfl⟩ := Nat.exists_eq_add_of_le' hpos
  rw [fmtD, toInt32_eq_self (by omega) (by omega), ← bytes_toString]
  show bytes ("-" ++ toString (m + 1)) = _
  rw [bytes, String.toList_append, List.map_append]
  rfl

/-- `strtoul` of a minus sign and digits is the number's complement. -/
theorem strtoul_neg {n : Nat} (hpos : 0 < n) (hn : n ≤ ulongMax) :
    strtoul (45 :: decimal n) = (2 ^ 64 - n, (decimal n).length + 1) := by
  have hspace : isspace 45 = false := by decide
  have hsigned : strtoulSigned (45 :: decimal n) = some (2 ^ 64 - n, 1 + (decimal n).length) := by
    have hmod : (2 ^ 64 - n) % 2 ^ 64 = 2 ^ 64 - n := Nat.mod_eq_of_lt (by omega)
    unfold strtoulSigned
    simp only [List.head?_cons, beq_self_eq_true, Bool.true_or, if_true, List.drop_succ_cons,
      List.drop_zero, strtoulDigits_decimal, Option.map_some, if_neg (Nat.not_lt.mpr hn), hmod]
  rw [strtoul, List.dropWhile_cons_of_neg (by rw [hspace]; decide), hsigned,
    List.takeWhile_cons_of_neg (by rw [hspace]; decide), List.length_nil]
  simp only [Nat.zero_add, Nat.add_comm]

/-- A number that was printed, as `strtoul` reads it. -/
structure IntText (text : List UInt8) (val : Int) : Prop where
  pos   : 0 < text.length
  short : text.length < 1023
  plain : 0 ∉ text
  read  : toInt32 (strtoul text).1 = val ∧ (strtoul text).2 = text.length

theorem zero_not_mem_decimal (n : Nat) : 0 ∉ decimal n := by
  intro h
  exact absurd (isdigit_of_mem_decimal h) (by decide)

/-- A printed int is a text of that int. -/
theorem fmtD_intText {val : Int} (hlow : -(2 ^ 31) ≤ val) (hhigh : val < 2 ^ 31) :
    IntText (fmtD val) val := by
  obtain ⟨n, rfl | rfl⟩ := Int.eq_nat_or_neg val
  · have hlen : (decimal n).length ≤ 9 + 1 := length_decimal_le (by omega)
    have hpos := List.length_pos_iff.mpr (decimal_ne_nil n)
    rw [fmtD_eq (by omega)]
    refine ⟨hpos, by omega, zero_not_mem_decimal n, ?_⟩
    have hmin : min n ulongMax = n := Nat.min_eq_left (by unfold ulongMax; omega)
    rw [strtoul_decimal, hmin]
    exact ⟨toInt32_eq_self (by omega) (by omega), rfl⟩
  · rcases Nat.eq_zero_or_pos n with rfl | hpos
    · exact ⟨by decide, by decide, by decide, by decide⟩
    · have hlen : (decimal n).length ≤ 9 + 1 := length_decimal_le (by omega)
      rw [fmtD_neg hpos (by omega)]
      refine ⟨Nat.succ_pos _, by rw [List.length_cons]; omega, ?_, ?_⟩
      · intro h
        rcases List.mem_cons.mp h with h | h
        · exact absurd h (by decide)
        · exact zero_not_mem_decimal n h
      · rw [strtoul_neg hpos (by unfold ulongMax; omega)]
        refine ⟨?_, rfl⟩
        have hcast : ((2 ^ 64 - n : Nat) : Int) = -(n : Int) + 2 ^ 64 := by omega
        -- `2 ^ 64` is a multiple of what an `int` wraps at.
        have hwrap : toInt32 (-(n : Int) + 2 ^ 64) = toInt32 (-(n : Int)) := by
          unfold toInt32
          rw [← Int.emod_bmod, ← Int.emod_bmod (-(n : Int))]
          congr 1
          omega
        rw [hcast, hwrap]
        exact toInt32_eq_self (by omega) (by omega)

/-! ## The numbers of a configuration -/

variable {e : FileEnv} {c : Cfg}

/-- A value that is the text of an int is read as that int. -/
theorem cfgGetInt_tells {s : FileSys} {key text : List UInt8} {buf : Int → UInt8} {val : Int}
    (htext : IntText text val) (h : (cfgGet e c s key buf 1024).Tells 1024 text) :
    cfgGetInt e c s key buf = (val, (text.length : Int)) := by
  have hpos := htext.pos
  have hshort := htext.short
  have hret : (cfgGet e c s key buf 1024).ret = text.length := by
    rw [h.ret]
    omega
  have hmin : min text.length (1024 - 1) = text.length := Nat.min_eq_left (by omega)
  have hcstr : cstr (readAt (cfgGet e c s key buf 1024).mem 0 1024) = text := by
    have hread := h.text
    rw [hmin, List.take_of_length_le (by omega)] at hread
    have hall := readAt_add (cfgGet e c s key buf 1024).mem 0 (text.length + 1) (1023 - text.length)
    rw [show text.length + 1 + (1023 - text.length) = 1024 by omega] at hall
    rw [hall, hread, List.append_assoc]
    exact cstr_append_nul htext.plain _
  obtain ⟨hval, hp⟩ := htext.read
  unfold cfgGetInt
  dsimp only
  rw [if_neg (by rw [hret]; omega), hcstr, hval, hp, if_neg (by omega), hret]

/-- A number that `cfg_put_int` reports, and that there was room for, is what `cfg_get_int` gives,
whatever is put at other paths and read since. A number of the system is given as long as there is
nothing to open in the directory of the user. -/
theorem cfg_put_int_get_int (e : FileEnv) (c : Cfg) (s : FileSys) (key : List UInt8) (val : Int)
    (loc : CfgPutWhere) (room : FileRoom) (calls : List CfgCall) (buf : Int → UInt8)
    (hlow : -(2 ^ 31) ≤ val) (hhigh : val < 2 ^ 31)
    (hput : 0 ≤ (cfgPut e c s (cfgPutInt key val loc room)).2)
    (hroom : (fmtD val).length ≤ room.stored)
    (hread : e.readable ((cfgPutInt key val loc room).target e c) = true)
    (hcalls : ∀ call ∈ calls, call.Avoids e c ((cfgPutInt key val loc room).target e c))
    (hfirst : loc = .global → (cfgOpen e
      (cfgRun e c (cfgPut e c s (cfgPutInt key val loc room)).1 calls) c.userDir key).2 = none) :
    cfgGetInt e c (cfgRun e c (cfgPut e c s (cfgPutInt key val loc room)).1 calls) key buf =
      (val, ((fmtD val).length : Int)) := by
  have htext := fmtD_intText hlow hhigh
  have hdata : cfgPutData (fmtD val ++ [0]) (fmtD val).length = fmtD val := by
    rw [cfgPutData, if_pos (Int.natCast_nonneg _), Int.toNat_natCast, List.take_left]
  have hval : (cfgPutInt key val loc room).val = some (fmtD val ++ [0]) := rfl
  obtain ⟨hdir, hstored⟩ := cfgPut_stored hval hput
  have hkept := cfgRun_keeps calls hcalls hstored
  have hall : (cfgPutData (fmtD val ++ [0]) (fmtD val).length).take room.stored = fmtD val := by
    rw [hdata, List.take_of_length_le hroom]
  have hfind : (cfgFind e c (cfgRun e c (cfgPut e c s (cfgPutInt key val loc room)).1 calls) key).2 =
      some (cfgFile (c.dir loc) key, fmtD val) := by
    rw [← hall]
    exact cfgFind_stored hdir hread hfirst hkept
  exact cfgGetInt_tells htext (cfgGet_tells (by decide) hfind)

/-- A negative int written and read back. -/
theorem cfg_put_int_get_int_a :
    cfgGetInt fileEnvA cfgA
      (cfgRun fileEnvA cfgA
        (cfgPut fileEnvA cfgA { fileSysA with errno := .exist } 
          (cfgPutInt (bytes "size") (-12) .global fileRoomA)).1
        [.put (cfgPutA .user "red"), .get (bytes "size")]) (bytes "size") (fun _ => 7) =
      (-12, ((fmtD (-12)).length : Int)) :=
  cfg_put_int_get_int fileEnvA cfgA { fileSysA with errno := .exist } (bytes "size") (-12) .global
    fileRoomA _ (fun _ => 7) (by decide) (by decide) (by decide) (by decide) rfl (by decide)
    (fun _ => by decide)

end Bklib
