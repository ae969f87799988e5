import Mathlib.Data.List.Nodup
import Mathlib.Algebra.Ring.Int.Defs

/-!
# `Bklib.Lib.Descriptors`: a table of descriptors that are opened and closed

The table says what each open descriptor is used for, and records which owner closed what. Closing a
descriptor that is not open has no effect. A table is `Clean` when no two descriptors have the same
use and nothing that was closed is open or was closed twice. Closing keeps a table clean, and so does
opening a descriptor that is free for a use that is new.
-/

set_option autoImplicit false

namespace Bklib.Lib

/-- Open descriptors with their uses, and the uses closed so far, with the owners that closed them. -/
structure Descriptors (κ υ : Type*) where
  use    : Int → Option υ
  closed : List (κ × υ)

namespace Descriptors

variable {κ υ : Type*}

/-- A descriptor is opened for a use. -/
def acquire (t : Descriptors κ υ) (fd : Int) (u : υ) : Descriptors κ υ :=
  { t with use := fun d => if d = fd then some u else t.use d }

/-- An owner closes a descriptor. -/
def close (t : Descriptors κ υ) (k : κ) (fd : Int) : Descriptors κ υ :=
  match t.use fd with
  | none   => t
  | some u => ⟨fun d => if d = fd then none else t.use d, t.closed ++ [(k, u)]⟩

/-- An owner closes one descriptor after another. -/
def closeAll (t : Descriptors κ υ) (k : κ) (fds : List Int) : Descriptors κ υ :=
  fds.foldl (·.close k) t

theorem acquire_use (t : Descriptors κ υ) (fd : Int) (u : υ) (d : Int) :
    (t.acquire fd u).use d = if d = fd then some u else t.use d := rfl

/-- What is open behind `close`. -/
theorem close_use (t : Descriptors κ υ) (k : κ) (fd d : Int) :
    (t.close k fd).use d = if d = fd then none else t.use d := by
  unfold close
  cases hfd : t.use fd with
  | some u => rfl
  | none =>
      show t.use d = _
      split
      · rename_i h
        rw [h, hfd]
      · rfl

/-- What was closed behind `close`. -/
theorem mem_closed_close (t : Descriptors κ υ) (k : κ) (fd : Int) {e : κ × υ} :
    e ∈ (t.close k fd).closed ↔ e ∈ t.closed ∨ e.1 = k ∧ t.use fd = some e.2 := by
  unfold close
  cases hfd : t.use fd with
  | none => simp
  | some u =>
      show e ∈ t.closed ++ [(k, u)] ↔ _
      rw [List.mem_append, List.mem_singleton, Option.some.injEq]
      constructor
      · rintro (he | rfl)
        · exact Or.inl he
        · exact Or.inr ⟨rfl, rfl⟩
      · rintro (he | ⟨hk, hu⟩)
        · exact Or.inl he
        · exact Or.inr (Prod.ext hk hu.symm)

/-- What is open when several were closed. -/
theorem closeAll_use (k : κ) (fds : List Int) :
    ∀ (t : Descriptors κ υ) (d : Int),
      (t.closeAll k fds).use d = if d ∈ fds then none else t.use d := by
  induction fds with
  | nil => intro t d; simp [closeAll]
  | cons fd fds ih =>
      intro t d
      show ((t.close k fd).closeAll k fds).use d = _
      rw [ih, close_use]
      by_cases hd : d = fd
      · simp [hd]
      · simp [hd]

/-- What is recorded was recorded before, or is the use of one of the descriptors. -/
theorem mem_closed_closeAll {k : κ} (fds : List Int) :
    ∀ {t : Descriptors κ υ} {e : κ × υ}, e ∈ (t.closeAll k fds).closed →
      e ∈ t.closed ∨ e.1 = k ∧ ∃ d ∈ fds, t.use d = some e.2 := by
  induction fds with
  | nil => intro t e he; exact Or.inl he
  | cons fd fds ih =>
      intro t e he
      rcases ih (t := t.close k fd) he with he | ⟨hk, d, hd, huse⟩
      · rcases (mem_closed_close t k fd).mp he with he | ⟨hk, huse⟩
        · exact Or.inl he
        · exact Or.inr ⟨hk, fd, List.mem_cons_self, huse⟩
      · rw [close_use] at huse
        split at huse
        · cases huse
        · exact Or.inr ⟨hk, d, List.mem_cons_of_mem fd hd, huse⟩

/-- Descriptors are not negative, each use has one descriptor, and what was closed was closed once
and is not open. -/
structure Clean (t : Descriptors κ υ) : Prop where
  nonneg : ∀ d, d < 0 → t.use d = none
  inj    : ∀ {d d' u}, t.use d = some u → t.use d' = some u → d = d'
  once   : (t.closed.map Prod.snd).Nodup
  gone   : ∀ {e}, e ∈ t.closed → ∀ d, t.use d ≠ some e.2

/-- Nothing was closed twice, also behind a `close`. -/
theorem Clean.close {t : Descriptors κ υ} (h : t.Clean) (k : κ) (fd : Int) : (t.close k fd).Clean := by
  have hsub : ∀ {d u}, (t.close k fd).use d = some u → d ≠ fd ∧ t.use d = some u := by
    intro d u hd
    rw [close_use] at hd
    split at hd
    · cases hd
    · exact ⟨‹_›, hd⟩
  refine ⟨fun d hd => ?_, fun hd hd' => h.inj (hsub hd).2 (hsub hd').2, ?_, fun {e} he d hd => ?_⟩
  · rw [close_use, h.nonneg d hd, ite_self]
  · unfold Descriptors.close
    cases hfd : t.use fd with
    | none => exact h.once
    | some u =>
        show ((t.closed ++ [(k, u)]).map Prod.snd).Nodup
        rw [List.map_append, List.map_singleton]
        refine List.Nodup.append h.once (List.nodup_singleton u) fun v hv hu => ?_
        rw [List.mem_singleton.mp hu] at hv
        obtain ⟨e, he, heq⟩ := List.mem_map.mp hv
        exact h.gone he fd (by rw [hfd, heq])
  · rcases (mem_closed_close t k fd).mp he with he | ⟨-, huse⟩
    · exact h.gone he d (hsub hd).2
    · exact (hsub hd).1 (h.inj (hsub hd).2 huse)

theorem Clean.closeAll {k : κ} (fds : List Int) :
    ∀ {t : Descriptors κ υ}, t.Clean → (t.closeAll k fds).Clean := by
  induction fds with
  | nil => intro t h; exact h
  | cons fd fds ih => intro t h; exact ih (h.close k fd)

/-- A descriptor that is new keeps this. -/
theorem Clean.acquire {t : Descriptors κ υ} (h : t.Clean) {fd : Int} {u : υ} (hpos : 0 ≤ fd)
    (hnew : ∀ d, t.use d ≠ some u) (hclosed : ∀ e ∈ t.closed, e.2 ≠ u) : (t.acquire fd u).Clean := by
  refine ⟨fun d hd => ?_, fun {d d' v} hd hd' => ?_, h.once, fun {e} he d hd => ?_⟩
  · rw [acquire_use, if_neg (by omega), h.nonneg d hd]
  · rw [acquire_use] at hd hd'
    split at hd <;> split at hd'
    · rename_i h1 h2
      rw [h1, h2]
    · exact absurd (hd.symm ▸ hd') (hnew d')
    · exact absurd (hd'.symm ▸ hd) (hnew d)
    · exact h.inj hd hd'
  · rw [acquire_use] at hd
    split at hd
    · exact hclosed e he (Option.some.inj hd).symm
    · exact h.gone he d hd

end Descriptors

end Bklib.Lib
