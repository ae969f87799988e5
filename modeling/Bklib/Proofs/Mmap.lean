import Bklib.Lib.Run
import Bklib.Model.Mmap

/-!
# `Bklib.Proofs.Mmap`: what `mmap_write` keeps, and what the file holds

`MmapGood` is the state of a mapping between two calls. A call that meets `MmapCallOk` either only
moves the pointer (`mmapWrite_within`), or maps a larger size first (`mmapWrite_grow`), or has nothing
to write (`mmapWrite_nothing`).

* `mmapWrite_safe`: over a run of such calls the mapping is as `mm` says, and each pointer points
  to a region inside of it.
* `mmap_eq_pwrite`: the file that a run of writes and `mmap_close` leave is the one that `pwrite`
  leaves.
-/

set_option autoImplicit false

namespace Bklib

open Lib

/-! ## Sizes -/

theorem sizeT_of_lt {n : Nat} (h : n < 2 ^ 64) : sizeT n = n := Nat.mod_eq_of_lt h

/-- Rounding up to a block. -/
theorem le_mmapRound {blocksz : Int} (hb : 1 ≤ blocksz) (hb' : blocksz < 2 ^ 31) {n : Nat}
    (hn : n < 2 ^ 63) : n ≤ mmapRound blocksz n := by
  obtain ⟨b, rfl⟩ := Int.eq_ofNat_of_zero_le (show 0 ≤ blocksz by omega)
  have hsize : intToSizeT b = b := intToSizeT_natCast (by omega)
  have hsum : sizeT (n + b + (2 ^ 64 - 1)) = n + b - 1 := by
    rw [sizeT]
    omega
  have hmod := Nat.mod_lt (n + b - 1) (show 0 < b by omega)
  have hdiv := Nat.div_add_mod (n + b - 1) b
  show n ≤ sizeT (n + intToSizeT b + (2 ^ 64 - 1)) / intToSizeT b * intToSizeT b
  rw [hsize, hsum, Nat.mul_comm]
  omega

/-- Zero is rounded to zero. -/
theorem mmapRound_zero (blocksz : Int) : mmapRound blocksz 0 = 0 := by
  rw [mmapRound]
  generalize hb : intToSizeT blocksz = b
  have hlt : b < 2 ^ 64 := by
    rw [← hb, intToSizeT]
    omega
  cases b with
  | zero => rfl
  | succ b =>
      have hsum : sizeT (0 + (b + 1) + (2 ^ 64 - 1)) = b := by
        rw [sizeT]
        omega
      rw [hsum, Nat.div_eq_of_lt (Nat.lt_succ_self b), Nat.zero_mul]

theorem sysMap_eq_some {r : Option Nat} {size a : Nat} (h : sysMap r size = some a) :
    0 < a ∧ a + size < 2 ^ 64 ∧ 0 < size := by
  have hp := (Option.filter_eq_some_iff.mp h).2
  simpa [and_assoc] using hp

/-! ## One call -/

/-- The mapping is as `mm` says, and without one there is nothing in it. -/
structure MmapGood (s : MmapState) : Prop where
  mapped : s.mm.start ≠ 0 → s.map = some (s.mm.start, s.mm.max)
  empty  : s.mm.start = 0 → s.mm.max = 0
  len_le : s.mm.len ≤ s.mm.max
  fits   : s.mm.start + s.mm.max < 2 ^ 64

/-- A call of `mmap_write`. -/
structure MmapCall where
  off : Nat
  len : Nat
  res : MmapResults

/-- The call needs a larger mapping, of `size` bytes, and gets one: the size is one that an `int`
can seek to, and no system call fails. -/
structure MmapGrows (s : MmapState) (c : MmapCall) (size : Nat) : Prop where
  enough : mmapOff s.mm c.off + c.len ≤ size
  int    : size ≤ 2 ^ 31
  lseek  : c.res.lseek = true
  write  : c.res.write = true
  map    : (sysMap c.res.map size).isSome = true

/-- The condition on a call: the end of the region is no larger than a `size_t` can say, and the
mapping is large enough, or there is nothing to map, or the mapping grows. -/
def MmapCallOk (s : MmapState) (c : MmapCall) : Prop :=
  s.mm.modeWrite = false ∨
    mmapOff s.mm c.off + c.len < 2 ^ 64 ∧
      (s.mm.start ≠ 0 ∧ mmapOff s.mm c.off + c.len ≤ s.mm.max ∨
        s.mm.start = 0 ∧ mmapOff s.mm c.off + c.len = 0 ∨
        MmapGrows s c (mmapRound s.mm.blocksz (mmapOff s.mm c.off + c.len)))

section Call

variable {s : MmapState} {c : MmapCall}

/-- The kernel's part of a mapping that grows. -/
theorem mmapExtend_grow {size : Nat} (hsize : 0 < size) (hint : size ≤ 2 ^ 31)
    (hlseek : c.res.lseek = true) (hwrite : c.res.write = true) (hmax : s.mm.max = size) :
    mmapExtend s c.res = ({ s with file := put s.file (size - 1) [0], pos := size }, true) := by
  have hlast : sizeT (s.mm.max + (2 ^ 64 - 1)) = size - 1 := by
    rw [sizeT, hmax]
    omega
  have hres : sysLseek c.res.lseek (size - 1) = some (size - 1) := by
    rw [sysLseek, hlseek]
    exact if_pos (by simp only [Bool.true_and, decide_eq_true_eq]; omega)
  have he : intToSizeT (natToInt32 (size - 1)) = size - 1 := by
    rw [natToInt32_eq_self (by omega), intToSizeT_natCast (by omega)]
  simp only [mmapExtend, hlast, hres, he, hwrite, ne_eq, not_true_eq_false, if_false, Bool.not_true,
    Bool.false_eq_true, Option.getD_some]
  rw [show size - 1 + 1 = size by omega]

/-- A mapping that is there, or the first one, gets the size `mm` says. -/
theorem mmapRemap_grow {oldMax size a : Nat} (hmax : s.mm.max = size)
    (hmapped : s.mm.start ≠ 0 → s.map = some (s.mm.start, oldMax))
    (ha : sysMap c.res.map size = some a) :
    mmapRemap s oldMax c.res
      = { s.setStart a with map := some (a, size) } := by
  have hpos := (sysMap_eq_some ha).2.2
  unfold mmapRemap
  by_cases hstart : s.mm.start = 0
  · rw [if_pos hstart, initMmap, if_neg (by omega)]
    simp only [hmax, ha]
  · rw [if_neg hstart, if_pos (hmapped hstart)]
    simp only [hmax, ha]

/-- A call for a region of the mapping only moves the length. -/
theorem mmapWrite_within (hgood : MmapGood s) (hmode : s.mm.modeWrite = true)
    (hstart : s.mm.start ≠ 0) (hle : mmapOff s.mm c.off + c.len ≤ s.mm.max) :
    mmapWrite s c.off c.len c.res =
      (s.setLen (max s.mm.len (mmapOff s.mm c.off + c.len)), s.mm.start + mmapOff s.mm c.off) := by
  have hfits := hgood.fits
  have hsum : sizeT (mmapOff s.mm c.off + c.len) = mmapOff s.mm c.off + c.len :=
    sizeT_of_lt (by omega)
  have hptr : sizeT (s.mm.start + mmapOff s.mm c.off) = s.mm.start + mmapOff s.mm c.off :=
    sizeT_of_lt (by omega)
  have hno : ¬(s.mm.start = 0 ∨ s.mm.max < mmapOff s.mm c.off + c.len) := by omega
  simp only [mmapWrite, hmode, Bool.not_true, Bool.false_eq_true, if_false, hsum, if_neg hno,
    mmapFinish, hptr]

/-- A call for which the mapping grows. -/
theorem mmapWrite_grow (hgood : MmapGood s) (hmode : s.mm.modeWrite = true)
    (hneed : s.mm.start = 0 ∨ s.mm.max < mmapOff s.mm c.off + c.len) {size : Nat}
    (hsize : mmapRound s.mm.blocksz (mmapOff s.mm c.off + c.len) = size) (hgrow : MmapGrows s c size) :
    ∃ a, 0 < a ∧ a + size < 2 ^ 64 ∧ 0 < size ∧ mmapWrite s c.off c.len c.res =
      ({ ((s.setMax size).setStart a).setLen (max s.mm.len (mmapOff s.mm c.off + c.len)) with
          file := put s.file (size - 1) [0], pos := size, map := some (a, size) },
        a + mmapOff s.mm c.off) := by
  obtain ⟨a, ha⟩ := Option.isSome_iff_exists.mp hgrow.map
  obtain ⟨ha0, hfits, hpos⟩ := sysMap_eq_some ha
  have henough := hgrow.enough
  have hint := hgrow.int
  have hsum : sizeT (mmapOff s.mm c.off + c.len) = mmapOff s.mm c.off + c.len :=
    sizeT_of_lt (by omega)
  have hptr : sizeT (a + mmapOff s.mm c.off) = a + mmapOff s.mm c.off := sizeT_of_lt (by omega)
  have hext : mmapExtend (s.setMax size) c.res = _ :=
    mmapExtend_grow hpos hint hgrow.lseek hgrow.write rfl
  have hremap : mmapRemap { s.setMax size with file := put s.file (size - 1) [0], pos := size }
      s.mm.max c.res = _ := mmapRemap_grow rfl hgood.mapped ha
  have hno : ¬(s.setMax size).mm.max < mmapOff s.mm c.off + c.len := Nat.not_lt.mpr henough
  refine ⟨a, ha0, hfits, hpos, ?_⟩
  simp only [mmapWrite, hmode, Bool.not_true, Bool.false_eq_true, if_false, hsum, if_pos hneed, hsize,
    if_neg hno, hext]
  rw [if_pos trivial]
  refine (congrArg (fun t => mmapFinish t _ _) hremap).trans ?_
  exact Prod.ext rfl hptr

/-- An empty region of an empty file: nothing is mapped, and the pointer is null. -/
theorem mmapWrite_nothing (hgood : MmapGood s) (hstart : s.mm.start = 0)
    (hzero : mmapOff s.mm c.off + c.len = 0) :
    (mmapWrite s c.off c.len c.res).2 = 0 ∧ (mmapWrite s c.off c.len c.res).1.mm = s.mm := by
  have hmax := hgood.empty hstart
  have hlen := hgood.len_le
  have hoff : mmapOff s.mm c.off = 0 := by omega
  have hsum : sizeT (mmapOff s.mm c.off + c.len) = 0 := by rw [hzero]; rfl
  have hmm : s.setMax 0 = s := by
    rw [MmapState.setMax, ← hmax]
  unfold mmapWrite
  cases hmode : s.mm.modeWrite with
  | false => exact ⟨rfl, rfl⟩
  | true =>
      have hext : ∀ x : MmapState × Bool, mmapExtend s c.res = x → x.1.mm = s.mm := by
        intro x hx
        subst hx
        unfold mmapExtend
        simp only
        split_ifs <;> rfl
      simp only [Bool.not_true, Bool.false_eq_true, if_false, hsum, hstart, true_or, if_true,
        mmapRound_zero, Nat.not_lt_zero, hmm]
      generalize hx : mmapExtend s c.res = x
      have hxmm := hext x hx
      split
      · have hremap : mmapRemap x.1 s.mm.max c.res = x.1 := by
          rw [mmapRemap, if_pos (by rw [hxmm, hstart]), initMmap, if_pos (by rw [hxmm, hmax])]
        rw [hremap, mmapFinish, hxmm, hstart, hoff]
        refine ⟨rfl, ?_⟩
        rw [Nat.max_eq_left (Nat.zero_le _)]
        show ({ x.1.mm with len := s.mm.len } : Mmap) = s.mm
        rw [hxmm]
      · exact ⟨rfl, hxmm⟩

end Call

/-! ## Failure -/

/-- What a call that left `s'` and returned `p` owes its caller. -/
structure MmapPost (s s' : MmapState) (p len : Nat) : Prop where
  mapped : s'.mm.start = 0 ∨ s'.map = some (s'.mm.start, s'.mm.max)
  len_le : s'.mm.len ≤ s'.mm.max
  null   : p = 0 → s'.mm.start = s.mm.start ∧ s'.mm.max = s.mm.max ∧ s'.mm.len = s.mm.len
  inside : p ≠ 0 → ∃ a n, s'.map = some (a, n) ∧ a ≤ p ∧ p + len ≤ a + n

/-- The state after a call. -/
def mmapStep (s : MmapState) (c : MmapCall) : MmapState := (mmapWrite s c.off c.len c.res).1

/-- A call that returned null and left `mm` alone. -/
theorem mmapPost_null {s s' : MmapState} {len : Nat} (hgood : MmapGood s) (hmm : s'.mm = s.mm)
    (hmap : s.mm.start ≠ 0 → s'.map = s.map) : MmapPost s s' 0 len ∧ MmapGood s' := by
  have hgood' : MmapGood s' := by
    constructor
    · rw [hmm]
      exact fun h => (hmap h).trans (hgood.mapped h)
    · rw [hmm]
      exact hgood.empty
    · rw [hmm]
      exact hgood.len_le
    · rw [hmm]
      exact hgood.fits
  refine ⟨⟨?_, hgood'.len_le, fun _ => by rw [hmm]; exact ⟨rfl, rfl, rfl⟩, fun h => absurd rfl h⟩,
    hgood'⟩
  by_cases h : s'.mm.start = 0
  · exact Or.inl h
  · exact Or.inr (hgood'.mapped h)

/-- A call that returned a pointer to `off` in a mapping of `mm`. -/
theorem mmapPost_ptr (s s' : MmapState) {off len : Nat} (hstart : 0 < s'.mm.start)
    (hmap : s'.map = some (s'.mm.start, s'.mm.max)) (hlen : s'.mm.len ≤ s'.mm.max)
    (hfits : s'.mm.start + s'.mm.max < 2 ^ 64) (hoff : off + len ≤ s'.mm.max) :
    MmapPost s s' (s'.mm.start + off) len ∧ MmapGood s' :=
  ⟨⟨Or.inr hmap, hlen, fun h => absurd h (by omega), fun _ => ⟨_, _, hmap, by omega, by omega⟩⟩,
    fun _ => hmap, fun h => absurd h (by omega), hlen, hfits⟩

/-- A call that meets the condition keeps its promises, and the state stays good. -/
theorem mmapWrite_post {s : MmapState} {c : MmapCall} (hgood : MmapGood s) (hok : MmapCallOk s c) :
    MmapPost s (mmapStep s c) (mmapWrite s c.off c.len c.res).2 c.len ∧ MmapGood (mmapStep s c) := by
  have hlen := hgood.len_le
  have hfits := hgood.fits
  unfold mmapStep
  cases hmode : s.mm.modeWrite with
  | false =>
      have hnone : mmapWrite s c.off c.len c.res = (s, 0) := by
        rw [mmapWrite, hmode]
        rfl
      rw [hnone]
      exact mmapPost_null hgood rfl fun _ => rfl
  | true =>
      obtain hfalse | ⟨-, hcase⟩ := hok
      · rw [hmode] at hfalse
        exact absurd hfalse (by simp)
      by_cases hin : s.mm.start ≠ 0 ∧ mmapOff s.mm c.off + c.len ≤ s.mm.max
      · -- inside of what is mapped, only the length may grow
        rw [mmapWrite_within hgood hmode hin.1 hin.2]
        refine mmapPost_ptr s (s.setLen _) (Nat.pos_of_ne_zero hin.1) (hgood.mapped hin.1) ?_ hfits
          hin.2
        show max s.mm.len (mmapOff s.mm c.off + c.len) ≤ s.mm.max
        omega
      · obtain h | ⟨hstart, hzero⟩ | hgrow := hcase
        · exact absurd h hin
        · obtain ⟨hp, hmm⟩ := mmapWrite_nothing hgood hstart hzero
          rw [hp]
          exact mmapPost_null hgood hmm fun h => absurd hstart h
        · -- the file is extended and mapped again
          have henough := hgrow.enough
          obtain ⟨a, ha, hfits', hpos, hcall⟩ :=
            mmapWrite_grow hgood hmode (by omega) rfl hgrow
          rw [hcall]
          refine mmapPost_ptr s { ((s.setMax _).setStart a).setLen _ with
            file := _, pos := _, map := _ } ha rfl ?_ hfits' henough
          have hmax : s.mm.max ≤ mmapRound s.mm.blocksz (mmapOff s.mm c.off + c.len) := by
            by_cases hstart : s.mm.start = 0
            · rw [hgood.empty hstart]
              exact Nat.zero_le _
            · omega
          show max s.mm.len (mmapOff s.mm c.off + c.len) ≤ mmapRound s.mm.blocksz _
          omega

/-- What the first `mmap` leaves, in a file of size `max`. -/
theorem initMmap_eq {s : MmapState} {r : Option Nat} {a : Nat} (ha : sysMap r s.mm.max = some a) :
    initMmap s r = ({ s.setStart a with map := some (a, s.mm.max) }, 0) := by
  have hpos := (sysMap_eq_some ha).2.2
  rw [initMmap, if_neg (by omega)]
  simp only [ha]

/-- A map opened is good. -/
theorem initMmap_good {s : MmapState} {r : Option Nat} (hstart : s.mm.start = 0)
    (hlen : s.mm.len ≤ s.mm.max) (hopen : s.mm.max = 0 ∨ (sysMap r s.mm.max).isSome = true) :
    MmapGood (initMmap s r).1 := by
  by_cases hmax : s.mm.max = 0
  · rw [initMmap, if_pos hmax]
    exact ⟨fun h => absurd hstart h, fun _ => hmax, hlen,
      show s.mm.start + s.mm.max < 2 ^ 64 by omega⟩
  · obtain ⟨a, ha⟩ := Option.isSome_iff_exists.mp (hopen.resolve_left hmax)
    obtain ⟨hpos, hfits, -⟩ := sysMap_eq_some ha
    rw [initMmap_eq ha]
    exact ⟨fun _ => rfl, fun h => absurd (show a = 0 from h) (by omega), hlen, hfits⟩

/-- The state that `mmap_fd` leaves, unless `mmap` fails there. -/
theorem mmapFd_good {file : List UInt8} {r : Option Nat}
    (hopen : file.length = 0 ∨ (sysMap r file.length).isSome = true) (pos : Nat)
    (modeWrite modePrivate : Bool) (blocksz pageSize : Int) (fstat : Bool) :
    MmapGood (mmapFd file pos modeWrite modePrivate blocksz pageSize fstat r).1 := by
  cases fstat with
  | false => exact ⟨fun h => absurd rfl h, fun _ => rfl, Nat.le_refl _, Nat.two_pow_pos 64⟩
  | true => exact initMmap_good rfl (Nat.le_refl file.length) hopen

/-- A mapping keeps to what `mm` says, and to what its callers are promised, as long as every call
meets the condition. -/
theorem mmapWrite_safe {file : List UInt8} {r : Option Nat}
    (hopen : file.length = 0 ∨ (sysMap r file.length).isSome = true) {pos : Nat}
    {modeWrite modePrivate : Bool} {blocksz pageSize : Int} {fstat : Bool} {calls : List MmapCall}
    (hok : AllSteps MmapCallOk mmapStep
      (mmapFd file pos modeWrite modePrivate blocksz pageSize fstat r).1 calls) :
    AllSteps (fun s c => MmapPost s (mmapStep s c) (mmapWrite s c.off c.len c.res).2 c.len) mmapStep
      (mmapFd file pos modeWrite modePrivate blocksz pageSize fstat r).1 calls := by
  have hgood := mmapFd_good hopen pos modeWrite modePrivate blocksz pageSize fstat
  generalize (mmapFd file pos modeWrite modePrivate blocksz pageSize fstat r).1 = s at hgood hok ⊢
  induction calls generalizing s with
  | nil => trivial
  | cons c calls ih =>
      obtain ⟨hpost, hgood'⟩ := mmapWrite_post hgood hok.1
      exact ⟨hpost, ih _ hgood' hok.2⟩

/-- Ten bytes into an empty file: the mapping is made, and the next call is inside of it. -/
theorem mmapWrite_safe_grow :
    AllSteps (fun s c => MmapPost s (mmapStep s c) (mmapWrite s c.off c.len c.res).2 c.len) mmapStep
      (mmapFd [] 0 true false 16 4096 true none).1
      [⟨0, 10, ⟨true, true, some 4096⟩⟩, ⟨mmapAppend, 4, ⟨true, true, none⟩⟩] :=
  mmapWrite_safe (Or.inl rfl)
    ⟨Or.inr ⟨by decide, Or.inr (Or.inr ⟨by decide, by decide, rfl, rfl, by decide⟩)⟩,
      Or.inr ⟨by decide, Or.inl ⟨by decide, by decide⟩⟩, trivial⟩

/-- A failed `lseek` leaves the new size in `mm`. -/
theorem mmapWrite_not_safe :
    ¬∀ (file : List UInt8) (r : Option Nat),
      file.length = 0 ∨ (sysMap r file.length).isSome = true → ∀ (pos : Nat)
      (modeWrite modePrivate : Bool) (blocksz pageSize : Int) (fstat : Bool) (calls : List MmapCall),
      AllSteps (fun s c => MmapPost s (mmapStep s c) (mmapWrite s c.off c.len c.res).2 c.len) mmapStep
        (mmapFd file pos modeWrite modePrivate blocksz pageSize fstat r).1 calls := by
  intro h
  have hpost := (h [] none (Or.inl rfl) 0 true false 16 4096 true
    [⟨0, 10, ⟨false, true, some 4096⟩⟩]).1
  exact absurd (hpost.null (by decide)).2.1 (by decide)

/-! ## The content of the file -/

/-- A write: where, what, and the results of the system calls. -/
structure MmapStoreCall where
  off : Nat
  xs  : List UInt8
  res : MmapResults

/-- `mmap_write` for the length of the bytes. -/
def MmapStoreCall.call (w : MmapStoreCall) : MmapCall := ⟨w.off, w.xs.length, w.res⟩

/-- `mmap_write`, and the store of the caller through the pointer. -/
def mmapPut (s : MmapState) (w : MmapStoreCall) : MmapState :=
  let r := mmapWrite s w.off w.xs.length w.res
  (mmapStore r.1 r.2 w.xs).getD r.1

/-- `pwrite`, or a write to the end of the file. -/
def pwriteFile (file : List UInt8) (w : MmapStoreCall) : List UInt8 :=
  put file (if w.off = mmapAppend then file.length else w.off) w.xs

/-- A write of at least one byte, at offsets below `2 ^ 31`, for which no system call fails. -/
structure MmapStoreOk (s : MmapState) (w : MmapStoreCall) : Prop where
  pos   : 0 < w.xs.length
  below : mmapOff s.mm w.off + w.xs.length < 2 ^ 31
  grows : s.mm.start = 0 ∨ s.mm.max < mmapOff s.mm w.off + w.xs.length →
    mmapRound s.mm.blocksz (mmapOff s.mm w.off + w.xs.length) ≤ 2 ^ 31 ∧
      w.res.lseek = true ∧ w.res.write = true ∧
      (sysMap w.res.map
        (mmapRound s.mm.blocksz (mmapOff s.mm w.off + w.xs.length))).isSome = true

/-- The file is what `ref` is so far, with zeros up to the end of the mapping. -/
structure MmapHolds (ref : List UInt8) (s : MmapState) : Prop where
  good  : MmapGood s
  mode  : s.mm.modeWrite = true
  block : 1 ≤ s.mm.blocksz ∧ s.mm.blocksz < 2 ^ 31
  len   : s.mm.len = ref.length
  file  : s.file = pad s.mm.max ref

/-- `mmap_write` has made room for `n` bytes at `off`, and the file has not changed otherwise. -/
structure MmapReady (ref : List UInt8) (off n : Nat) (s : MmapState) : Prop where
  good  : MmapGood s
  mode  : s.mm.modeWrite = true
  block : 1 ≤ s.mm.blocksz ∧ s.mm.blocksz < 2 ^ 31
  start : s.mm.start ≠ 0
  len   : s.mm.len = max ref.length (off + n)
  room  : off + n ≤ s.mm.max
  file  : s.file = pad s.mm.max ref

/-- Storing through a pointer of the mapping. -/
theorem MmapReady.store {ref : List UInt8} {s : MmapState} {off : Nat} {xs : List UInt8}
    (h : MmapReady ref off xs.length s) :
    ∃ s', mmapStore s (s.mm.start + off) xs = some s' ∧ MmapHolds (put ref off xs) s' := by
  have hroom := h.room
  refine ⟨{ s with file := put s.file off xs }, ?_, ⟨?_, h.mode, h.block, ?_, ?_⟩⟩
  · have hptr : s.mm.start ≤ s.mm.start + off ∧
        s.mm.start + off + xs.length ≤ s.mm.start + s.mm.max := by omega
    simp only [mmapStore, h.good.mapped h.start, if_pos hptr, Nat.add_sub_cancel_left]
  · exact ⟨h.good.mapped, h.good.empty, h.good.len_le, h.good.fits⟩
  · rw [length_put, Nat.max_comm]
    exact h.len
  · show put s.file off xs = pad s.mm.max (put ref off xs)
    rw [h.file, put_pad hroom]

/-- After `mmap_write` the block stands ready at its offset. -/
theorem mmapWrite_ready {ref : List UInt8} {s : MmapState} {w : MmapStoreCall}
    (h : MmapHolds ref s) (hw : MmapStoreOk s w) :
    (mmapWrite s w.off w.xs.length w.res).2
        = (mmapWrite s w.off w.xs.length w.res).1.mm.start + mmapOff s.mm w.off ∧
      MmapReady ref (mmapOff s.mm w.off) w.xs.length (mmapWrite s w.off w.xs.length w.res).1 := by
  have hbelow := hw.below
  have hpost : MmapCallOk s w.call → MmapGood (mmapWrite s w.off w.xs.length w.res).1 :=
    fun hok => (mmapWrite_post h.good hok).2
  have hwrap : mmapOff s.mm w.off + w.xs.length < 2 ^ 64 := by omega
  by_cases hin : s.mm.start ≠ 0 ∧ mmapOff s.mm w.off + w.xs.length ≤ s.mm.max
  · have hgood := hpost (Or.inr ⟨hwrap, Or.inl hin⟩)
    have hcall : mmapWrite s w.off w.xs.length w.res = _ :=
      mmapWrite_within (c := w.call) h.good h.mode hin.1 hin.2
    rw [hcall] at hgood ⊢
    exact ⟨rfl, hgood, h.mode, h.block, hin.1, congrArg (max · _) h.len, hin.2, h.file⟩
  · have hneed : s.mm.start = 0 ∨ s.mm.max < mmapOff s.mm w.off + w.xs.length := by omega
    obtain ⟨hint, hlseek, hwrite, hmap⟩ := hw.grows hneed
    have henough := le_mmapRound h.block.1 h.block.2
      (show mmapOff s.mm w.off + w.xs.length < 2 ^ 63 by omega)
    have hgrow : MmapGrows s w.call (mmapRound s.mm.blocksz (mmapOff s.mm w.off + w.xs.length)) :=
      ⟨henough, hint, hlseek, hwrite, hmap⟩
    have hgood := hpost (Or.inr ⟨hwrap, Or.inr (Or.inr hgrow)⟩)
    obtain ⟨a, ha, -, -, hcall⟩ := mmapWrite_grow (c := w.call) h.good h.mode hneed rfl hgrow
    have hcall' : mmapWrite s w.off w.xs.length w.res = _ := hcall
    have hlen := h.good.len_le
    have hlen' := h.len
    have hpos := hw.pos
    -- the file is as large as the mapping, so the zero goes behind its end
    have hmax : s.mm.max < mmapRound s.mm.blocksz (mmapOff s.mm w.off + w.xs.length) := by
      by_cases hstart : s.mm.start = 0
      · have := h.good.empty hstart
        omega
      · omega
    have hsize : s.file.length = s.mm.max := by
      rw [h.file, length_pad]
      omega
    rw [hcall'] at hgood ⊢
    refine ⟨rfl, hgood, h.mode, h.block, Nat.ne_of_gt ha, congrArg (max · _) h.len, henough, ?_⟩
    show put s.file (mmapRound s.mm.blocksz (mmapOff s.mm w.off + w.xs.length) - 1) [0] = _
    rw [put_zero (by omega), h.file, pad_pad (by omega)]
    rfl

/-- One write to the mapping does what `pwrite` does to the file. -/
theorem mmapPut_holds {ref : List UInt8} {s : MmapState} {w : MmapStoreCall}
    (h : MmapHolds ref s) (hw : MmapStoreOk s w) : MmapHolds (pwriteFile ref w) (mmapPut s w) := by
  have hoff : (if w.off = mmapAppend then ref.length else w.off) = mmapOff s.mm w.off := by
    rw [mmapOff, h.len]
  obtain ⟨hptr, hready⟩ := mmapWrite_ready h hw
  obtain ⟨s', hstore, hholds⟩ := hready.store
  rw [pwriteFile, hoff, mmapPut]
  simp only [hptr, hstore, Option.getD_some]
  exact hholds

/-- A file that was just opened holds its content. -/
theorem initMmap_holds {s : MmapState} {r : Option Nat} (hstart : s.mm.start = 0)
    (hlen : s.mm.len = s.mm.max) (hfile : s.file.length = s.mm.max) (hmode : s.mm.modeWrite = true)
    (hblock : 1 ≤ s.mm.blocksz ∧ s.mm.blocksz < 2 ^ 31)
    (hopen : s.mm.max = 0 ∨ (sysMap r s.mm.max).isSome = true) : MmapHolds s.file (initMmap s r).1 := by
  have hgood := initMmap_good hstart (Nat.le_of_eq hlen) hopen
  have hpad : s.file = pad s.mm.max s.file := (pad_of_le (Nat.le_of_eq hfile.symm)).symm
  by_cases hmax : s.mm.max = 0
  · rw [initMmap, if_pos hmax] at hgood ⊢
    exact ⟨hgood, hmode, hblock, hlen.trans hfile.symm, hpad⟩
  · obtain ⟨a, ha⟩ := Option.isSome_iff_exists.mp (hopen.resolve_left hmax)
    rw [initMmap_eq ha] at hgood ⊢
    exact ⟨hgood, hmode, hblock, hlen.trans hfile.symm, hpad⟩

/-- `mmap_close` cuts the file back to its length. -/
theorem mmapClose_file {ref : List UInt8} {s : MmapState} (h : MmapHolds ref s) (munmap : Bool) :
    (mmapClose s munmap true).file = ref := by
  have hlen := h.good.len_le
  have hlen' := h.len
  simp only [mmapClose]
  split
  · show (pad s.mm.len s.file).take s.mm.len = ref
    rw [pad_of_le (n := s.mm.len) (by rw [h.file, length_pad]; omega), h.file, hlen', take_pad]
  · next hno =>
      have heq : s.mm.len = s.mm.max := by
        by_contra hne
        refine hno ?_
        show (s.mm.modeWrite && decide (s.mm.len ≠ s.mm.max) && true) = true
        rw [h.mode]
        simpa using hne
      show s.file = ref
      rw [h.file, pad_of_le (by omega)]

/-- Writing through the mapping is writing to the file: after `mmap_close` the file is the one that
the same writes with `pwrite` leave. -/
theorem mmap_eq_pwrite {file : List UInt8} {r : Option Nat}
    (hopen : file.length = 0 ∨ (sysMap r file.length).isSome = true) {blocksz : Int}
    (hblock : 1 ≤ blocksz) (hint : blocksz < 2 ^ 31) {pos : Nat} {pageSize : Int}
    {writes : List MmapStoreCall}
    (hok : AllSteps MmapStoreOk mmapPut (mmapFd file pos true false blocksz pageSize true r).1 writes)
    (munmap : Bool) :
    (mmapClose (run mmapPut (mmapFd file pos true false blocksz pageSize true r).1 writes)
      munmap true).file = run pwriteFile file writes := by
  have hne : blocksz ≠ 0 := by omega
  have hstart : MmapHolds file (mmapFd file pos true false blocksz pageSize true r).1 := by
    simp only [mmapFd, if_neg hne]
    exact initMmap_holds (s := ((MmapState.mk ⟨true, false, blocksz, 0, 0, 0⟩ file pos none).setMax
      file.length).setLen file.length) rfl rfl rfl rfl ⟨hblock, hint⟩ hopen
  suffices h : MmapHolds (run pwriteFile file writes)
      (run mmapPut (mmapFd file pos true false blocksz pageSize true r).1 writes) from
    mmapClose_file h munmap
  clear hopen
  generalize (mmapFd file pos true false blocksz pageSize true r).1 = s at hstart hok ⊢
  induction writes generalizing s file with
  | nil => exact hstart
  | cons w writes ih => exact ih _ (mmapPut_holds hstart hok.1) hok.2

/-- A gap behind the end of a file of three bytes, and an append. -/
theorem mmap_eq_pwrite_gap :
    (mmapClose (run mmapPut (mmapFd [1, 2, 3] 0 true false 4 4096 true (some 4096)).1
      [⟨6, [7], ⟨true, true, some 8192⟩⟩, ⟨mmapAppend, [8, 9], ⟨true, true, some 4096⟩⟩]) true true).file
      = run pwriteFile [1, 2, 3]
        [⟨6, [7], ⟨true, true, some 8192⟩⟩, ⟨mmapAppend, [8, 9], ⟨true, true, some 4096⟩⟩] :=
  have hok : AllSteps MmapStoreOk mmapPut
      (mmapFd [1, 2, 3] 0 true false 4 4096 true (some 4096)).1
      [⟨6, [7], ⟨true, true, some 8192⟩⟩, ⟨mmapAppend, [8, 9], ⟨true, true, some 4096⟩⟩] :=
    ⟨⟨by decide, by decide, fun _ => ⟨by decide, rfl, rfl, by decide⟩⟩,
      ⟨by decide, by decide, fun _ => ⟨by decide, rfl, rfl, by decide⟩⟩, trivial⟩
  mmap_eq_pwrite (Or.inr (by decide)) (by decide) (by decide) hok true

end Bklib
