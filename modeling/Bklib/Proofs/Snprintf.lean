import Bklib.Model.Libc
import Bklib.Model.Snprintf

/-!
# `Bklib.Proofs.Snprintf`: texts that fit

Where a text fits with its NUL, `snprintf` stores both, and the text stands behind what was there
before (`SnBuf.Filled.add`).

A text that is cut stays inside of the buffer as well, but it makes `len` negative, and the next text
is then stored behind the buffer. So several texts stay inside if and only if there is room for the
characters of all of them but the last (`SnBuf.adds_inside_iff`).
-/

set_option autoImplicit false

namespace Bklib

open Lib

/-- A buffer of `size` bytes at `start` that `text` has been appended to. -/
structure SnBuf.Filled (start size : Int) (text : List UInt8) (b : SnBuf) : Prop where
  buf   : b.buf = start + text.length
  len   : b.len = size - text.length
  chars : readAt b.mem start text.length = text

/-- The same with a NUL behind the text. -/
structure SnBuf.Holds (start size : Int) (text : List UInt8) (b : SnBuf) : Prop extends
    b.Filled start size text where
  nul : b.mem (start + text.length) = 0

section

variable {start size : Int} {text t : List UInt8} {b : SnBuf}

/-- A size that is more than the length of the text. -/
theorem snprintf_of_lt {n : Nat} (h : text.length < n) : snprintf n text = text ++ [0] := by
  rw [snprintf, if_neg (by omega), List.take_of_length_le (by omega)]

/-- A text that fits stands behind the others, with a NUL. -/
theorem SnBuf.Filled.add (h : b.Filled start size text) (hfit : text.length + t.length < size)
    (hsize : size < 2 ^ 31) :
    (b.add t).Holds start size (text ++ t) := by
  have hlen : intToSizeT b.len = b.len.toNat := by
    rw [intToSizeT, h.len]
    omega
  have hout : snprintf (intToSizeT b.len) t = t ++ [0] :=
    snprintf_of_lt (by rw [hlen, h.len]; omega)
  have hbuf : (b.add t).buf = start + (text ++ t).length := by
    show b.buf + t.length = _
    rw [h.buf, List.length_append]
    omega
  -- the text and the NUL, behind what was there
  have hread : readAt (b.add t).mem start ((text ++ t).length + 1) = text ++ t ++ [0] := by
    show readAt (writeAt b.mem b.buf (snprintf (intToSizeT b.len) t)) start _ = _
    rw [hout, h.buf, show (text ++ t).length + 1 = text.length + (t ++ [0]).length by
      rw [List.length_append, List.length_append, List.length_singleton, Nat.add_assoc],
      readAt_writeAt_append, h.chars, List.append_assoc]
  rw [readAt_add] at hread
  obtain ⟨hchars, hnul⟩ := List.append_inj hread (length_readAt ..)
  refine ⟨⟨hbuf, ?_, hchars⟩, ?_⟩
  · show b.len - t.length = _
    rw [h.len, List.length_append]
    omega
  · rw [readAt_succ] at hnul
    exact (List.cons.inj hnul).1

/-- What stands in the buffer, as a C string. -/
theorem SnBuf.Holds.cstr_eq (h : b.Holds start size text)
    (hno : 0 ∉ text) (hfit : text.length < size) :
    cstr (readAt b.mem start size.toNat) = text := by
  obtain ⟨n, hn⟩ : ∃ n, size.toNat = text.length + (n + 1) :=
    ⟨size.toNat - text.length - 1, by omega⟩
  rw [hn, readAt_add, h.chars, readAt_succ, h.nul]
  exact cstr_append_nul hno _

end

/-! ## Texts that are cut -/

/-- Nothing has been stored outside of the `size` bytes at `start`. -/
def SnBuf.Inside (start size : Int) (b : SnBuf) : Prop :=
  ∀ r ∈ b.stored, r.2 = 0 ∨ start ≤ r.1 ∧ r.1 + r.2 ≤ start + size

/-- The length of texts one after the other. -/
def textsLen (texts : List (List UInt8)) : Nat := (texts.map List.length).sum

@[simp] theorem textsLen_nil : textsLen [] = 0 := rfl

@[simp] theorem textsLen_cons (t : List UInt8) (texts : List (List UInt8)) :
    textsLen (t :: texts) = t.length + textsLen texts := by
  rw [textsLen, List.map_cons, List.sum_cons, textsLen]

@[simp] theorem textsLen_append (texts texts' : List (List UInt8)) :
    textsLen (texts ++ texts') = textsLen texts + textsLen texts' := by
  rw [textsLen, List.map_append, List.sum_append, textsLen, textsLen]

theorem SnBuf.adds_cons (b : SnBuf) (t : List UInt8) (texts : List (List UInt8)) :
    b.adds (t :: texts) = (b.add t).adds texts := rfl

theorem SnBuf.adds_append (b : SnBuf) (texts texts' : List (List UInt8)) :
    b.adds (texts ++ texts') = (b.adds texts).adds texts' := List.foldl_append

/-- No more bytes than the size says. -/
theorem length_snprintf_le (n : Nat) (text : List UInt8) : (snprintf n text).length ≤ n := by
  unfold snprintf
  split
  · exact Nat.zero_le _
  · rw [List.length_append, List.length_take, List.length_singleton]
    omega

/-- With any room there is a NUL. -/
theorem length_snprintf_pos {n : Nat} (h : n ≠ 0) (text : List UInt8) :
    0 < (snprintf n text).length := by
  rw [snprintf, if_neg h, List.length_append, List.length_singleton]
  exact Nat.succ_pos _

section

variable {start size : Int} {b : SnBuf}

/-- A text added stays inside exactly when all before it did and its own bytes do. -/
theorem SnBuf.inside_add_iff (t : List UInt8) :
    (b.add t).Inside start size ↔ b.Inside start size ∧
      ((snprintf (intToSizeT b.len) t).length = 0 ∨ start ≤ b.buf ∧
        b.buf + (snprintf (intToSizeT b.len) t).length ≤ start + size) := by
  show (∀ r ∈ b.stored ++ [(b.buf, (snprintf (intToSizeT b.len) t).length)], _) ↔ _
  rw [List.forall_mem_append, List.forall_mem_singleton]
  exact Iff.rfl

/-- What was stored outside stays stored. -/
theorem SnBuf.Inside.of_adds {texts : List (List UInt8)} (h : (b.adds texts).Inside start size) :
    b.Inside start size := by
  induction texts generalizing b with
  | nil => exact h
  | cons t texts ih => exact ((inside_add_iff t).mp (ih h)).1

/-- A text that starts inside of the buffer, with the room that `len` says, stays inside. -/
theorem SnBuf.Inside.add (h : b.Inside start size) (hbuf : start ≤ b.buf) (hlen : 0 ≤ b.len)
    (hend : b.buf + b.len = start + size) (hsize : b.len < 2 ^ 63) (t : List UInt8) :
    (b.add t).Inside start size := by
  have hle := length_snprintf_le (intToSizeT b.len) t
  have hroom : (intToSizeT b.len : Int) = b.len := by
    rw [intToSizeT]
    omega
  exact (inside_add_iff t).mpr ⟨h, Or.inr ⟨hbuf, by omega⟩⟩

/-- A text behind one that was cut is stored behind the buffer: a negative `len` is a huge size. -/
theorem SnBuf.not_inside_add (hlen : b.len < 0) (hhuge : -(2 ^ 63) < b.len)
    (hend : b.buf + b.len = start + size) (t : List UInt8) : ¬(b.add t).Inside start size := by
  have hroom : intToSizeT b.len ≠ 0 := by
    rw [intToSizeT]
    omega
  -- a huge size always makes room for a NUL, and that is behind the end
  have hpos := length_snprintf_pos hroom t
  intro h
  rcases ((inside_add_iff t).mp h).2 with hzero | ⟨-, hinside⟩
  · omega
  · omega

/-- Texts stay inside of the buffer exactly when there is room for all of them but the last. -/
theorem SnBuf.adds_inside_iff {texts : List (List UInt8)} (h : b.Inside start size)
    (hbuf : start ≤ b.buf) (hlen : 0 ≤ b.len) (hend : b.buf + b.len = start + size)
    (hsize : b.len < 2 ^ 63) (hshort : ∀ t ∈ texts, t.length < 2 ^ 63) :
    (b.adds texts).Inside start size ↔ (textsLen texts.dropLast : Int) ≤ b.len := by
  induction texts generalizing b with
  | nil => exact iff_of_true h hlen
  | cons t texts ih =>
      have hadd := h.add hbuf hlen hend hsize t
      cases texts with
      | nil => exact iff_of_true hadd hlen
      | cons t' texts =>
          rw [adds_cons, List.dropLast_cons_cons, textsLen_cons]
          have hlen' : (b.add t).len = b.len - t.length := rfl
          have hbuf' : (b.add t).buf = b.buf + t.length := rfl
          by_cases hcut : (t.length : Int) ≤ b.len
          · -- the first text leaves room, if only for no character
            rw [ih hadd (by omega) (by omega) (by omega) (by omega)
              fun t ht => hshort t (List.mem_cons_of_mem _ ht), hlen']
            omega
          · -- the first text is cut, so the second one is stored behind the buffer
            have ht := hshort t List.mem_cons_self
            have hout : ¬((b.add t).add t').Inside start size :=
              not_inside_add (by omega) (by omega) (by omega) t'
            refine iff_of_false (fun hinside => ?_) (by omega)
            change (((b.add t).add t').adds texts).Inside start size at hinside
            exact hout hinside.of_adds

end

end Bklib
