import Mathlib.Data.List.Induction

/-!
# `Bklib.Lib.FileTree`: directories and files

A path is a list of names. A `FileTree` says for each path what stands there: nothing, a directory or
a file. The structure carries that each entry stands in a directory, so that no operation proves it
again.

A path is walked in hops: a hop stays, goes to the parent, or goes down to a name. It is made from a
directory only. Where a walk leads is a matter of the hops alone (`FileTree.walk_eq`), and a walk
that was possible stays possible as long as directories stay (`FileTree.walk_mono`).

Something can be put at a leaf: a path where no directory is, in a directory (`FileTree.put`).
-/

set_option autoImplicit false

namespace Bklib.Lib

/-- What stands at a path. -/
inductive Entry (β : Type*) where
  | dir
  | file (content : List β)

/-- `d` is what stands there, and it is a directory. -/
def Entry.isDir {β : Type*} : Option (Entry β) → Bool
  | some dir => true
  | _        => false

@[simp] theorem Entry.isDir_iff {β : Type*} {d : Option (Entry β)} :
    isDir d = true ↔ d = some dir := by
  cases d with
  | none => simp [isDir]
  | some d => cases d <;> simp [isDir]

/-- Directories and files. -/
structure FileTree (κ β : Type*) where
  entry   : List κ → Option (Entry β)
  root    : entry [] = some .dir
  parents : ∀ p n, entry (p ++ [n]) ≠ none → entry p = some .dir

/-- One step on the way to a path. -/
inductive Hop (κ : Type*) where
  | stay
  | up
  | down (name : κ)

/-- Where a hop leads. -/
def Hop.move {κ : Type*} (p : List κ) : Hop κ → List κ
  | stay      => p
  | up        => p.dropLast
  | down name => p ++ [name]

namespace FileTree

variable {κ β : Type*}

/-! ## Walks -/

/-- Where hops lead from `p`, each of them from a directory. -/
def walk (t : FileTree κ β) (p : List κ) : List (Hop κ) → Option (List κ)
  | []      => some p
  | h :: hs => if Entry.isDir (t.entry p) then t.walk (h.move p) hs else none

/-- Directories stay. -/
def Keeps (t t' : FileTree κ β) : Prop := ∀ p, t.entry p = some .dir → t'.entry p = some .dir

theorem Keeps.refl (t : FileTree κ β) : t.Keeps t := fun _ h => h

theorem Keeps.trans {t₁ t₂ t₃ : FileTree κ β} (h : t₁.Keeps t₂) (h' : t₂.Keeps t₃) : t₁.Keeps t₃ :=
  fun p hp => h' p (h p hp)

/-- Where a walk leads does not depend on what stands on the way. -/
theorem walk_eq {t : FileTree κ β} (hs : List (Hop κ)) {p q : List κ} (h : t.walk p hs = some q) :
    q = hs.foldl Hop.move p := by
  induction hs generalizing p with
  | nil => exact (Option.some.inj h).symm
  | cons hop hs ih =>
      rw [walk] at h
      split at h
      · exact ih h
      · cases h

/-- A tree that keeps its entries keeps its walks. -/
theorem walk_mono {t t' : FileTree κ β} (hkeeps : t.Keeps t') (hs : List (Hop κ)) {p q : List κ}
    (h : t.walk p hs = some q) : t'.walk p hs = some q := by
  induction hs generalizing p with
  | nil => exact h
  | cons hop hs ih =>
      rw [walk] at h ⊢
      split at h
      · rename_i hdir
        have hdir' := hkeeps p (Entry.isDir_iff.mp hdir)
        rw [if_pos (Entry.isDir_iff.mpr hdir')]
        exact ih h
      · cases h

/-! ## One entry -/

/-- A leaf: nothing stands in it, and it stands in a directory. -/
structure Leaf (t : FileTree κ β) (p : List κ) : Prop where
  ne_nil : p ≠ []
  parent : t.entry p.dropLast = some .dir
  empty  : t.entry p ≠ some .dir

theorem leaf_iff {t : FileTree κ β} {p : List κ} : t.Leaf p ↔
    p ≠ [] ∧ Entry.isDir (t.entry p.dropLast) = true ∧ Entry.isDir (t.entry p) = false := by
  rw [Entry.isDir_iff, Bool.eq_false_iff, Ne, Ne, Entry.isDir_iff]
  exact ⟨fun h => ⟨h.ne_nil, h.parent, h.empty⟩, fun h => ⟨h.1, h.2.1, h.2.2⟩⟩

/-- Each entry stands in a directory. -/
theorem entry_dropLast {t : FileTree κ β} {p : List κ} (hp : p ≠ []) (h : t.entry p ≠ none) :
    t.entry p.dropLast = some .dir := by
  have hlast := List.dropLast_concat_getLast hp
  refine t.parents p.dropLast (p.getLast hp) ?_
  rw [hlast]
  exact h

/-- So does each directory on the way. The induction takes off the last name. -/
theorem entry_of_append {t : FileTree κ β} {p q : List κ} (hq : q ≠ [])
    (h : t.entry (p ++ q) ≠ none) : t.entry p = some .dir := by
  induction q using List.reverseRecOn with
  | nil => exact absurd rfl hq
  | append_singleton q n ih =>
      rw [← List.append_assoc] at h
      have hparent := t.parents (p ++ q) n h
      by_cases hnil : q = []
      · rw [hnil, List.append_nil] at hparent
        exact hparent
      · refine ih hnil ?_
        rw [hparent]
        exact Option.some_ne_none _

/-- A file is a leaf. -/
theorem leaf_of_file {t : FileTree κ β} {p : List κ} {c : List β} (h : t.entry p = some (.file c)) :
    t.Leaf p := by
  have hp : p ≠ [] := by
    intro hp
    rw [hp, t.root] at h
    cases h
  have hne : t.entry p ≠ none := by rw [h]; exact Option.some_ne_none _
  have hdir : t.entry p ≠ some .dir := by rw [h]; exact fun heq => by cases heq
  exact ⟨hp, entry_dropLast hp hne, hdir⟩

/-- Where nothing stands behind a walk, something can be put. -/
theorem leaf_of_walk {t : FileTree κ β} {hs : List (Hop κ)} {p q : List κ}
    (h : t.walk p hs = some q) (hp : t.entry p ≠ none) (hq : t.entry q = none) : t.Leaf q := by
  induction hs generalizing p with
  | nil => exact absurd (Option.some.inj h ▸ hq) hp
  | cons hop hs ih =>
      rw [walk] at h
      split at h
      case isFalse => cases h
      case isTrue hdir =>
        have hdir := Entry.isDir_iff.mp hdir
        cases hop with
        | stay => exact ih h hp
        | up =>
            by_cases hnil : p = []
            · rw [Hop.move, hnil] at h
              refine ih h ?_
              rw [List.dropLast_nil, t.root]
              exact Option.some_ne_none _
            · have hparent := entry_dropLast hnil hp
              refine ih h ?_
              rw [Hop.move, hparent]
              exact Option.some_ne_none _
        | down n =>
            by_cases hnone : t.entry (p ++ [n]) = none
            · cases hs with
              | nil =>
                  obtain rfl := Option.some.inj h
                  have hne : p ++ [n] ≠ [] := by simp
                  have hparent : t.entry (p ++ [n]).dropLast = some .dir := by
                    rw [List.dropLast_concat, hdir]
                  exact ⟨hne, hparent, by rw [hq]; exact fun heq => by cases heq⟩
              | cons hop' hs =>
                  -- The next hop would start where nothing stands.
                  rw [Hop.move, walk, hnone] at h
                  exact absurd h (by simp [Entry.isDir])
            · exact ih h hnone

/-- In the empty tree only the root is there, and it is a directory. -/
theorem empty_parents (p : List κ) (n : κ)
    (h : (if (p ++ [n]).isEmpty then some Entry.dir else (none : Option (Entry β))) ≠ none) :
    (if p.isEmpty then some Entry.dir else (none : Option (Entry β))) = some .dir := by
  have hne : (p ++ [n]).isEmpty = false := by simp
  rw [hne] at h
  exact absurd rfl h

/-- A root with nothing in it. -/
def empty : FileTree κ β where
  entry p := if p.isEmpty then some .dir else none
  root := rfl
  parents := empty_parents

section Set

variable [DecidableEq κ]

/-- The entries with `d` at `p`. -/
def setEntry (t : FileTree κ β) (p : List κ) (d : Option (Entry β)) : List κ → Option (Entry β) :=
  fun q => if q = p then d else t.entry q

theorem setEntry_root {t : FileTree κ β} {p : List κ} (h : t.Leaf p) (d : Option (Entry β)) :
    t.setEntry p d [] = some .dir := by
  rw [setEntry, if_neg h.ne_nil.symm, t.root]

/-- An entry changed at a leaf leaves every other entry under a directory. -/
theorem setEntry_parents {t : FileTree κ β} {p : List κ} (h : t.Leaf p) (d : Option (Entry β)) :
    ∀ q n, t.setEntry p d (q ++ [n]) ≠ none → t.setEntry p d q = some .dir := by
  intro q n hne
  unfold setEntry at hne ⊢
  split at hne
  · rename_i heq
    have hq : q = p.dropLast := by rw [← heq, List.dropLast_concat]
    have hqp : q ≠ p := by
      intro hqp
      rw [hqp] at heq
      exact absurd heq (by simp)
    rw [if_neg hqp, hq, h.parent]
  · have hdir := t.parents q n hne
    have hqp : q ≠ p := fun hqp => h.empty (hqp ▸ hdir)
    rw [if_neg hqp, hdir]

/-- The tree with `d` at a leaf. -/
def setLeaf (t : FileTree κ β) (p : List κ) (h : t.Leaf p) (d : Option (Entry β)) : FileTree κ β where
  entry   := t.setEntry p d
  root    := setEntry_root h d
  parents := setEntry_parents h d

@[simp] theorem setLeaf_self (t : FileTree κ β) {p : List κ} (h : t.Leaf p) (d : Option (Entry β)) :
    (t.setLeaf p h d).entry p = d := if_pos rfl

@[simp] theorem setLeaf_other (t : FileTree κ β) {p q : List κ} (h : t.Leaf p)
    (d : Option (Entry β)) (hne : q ≠ p) : (t.setLeaf p h d).entry q = t.entry q := if_neg hne

theorem setLeaf_keeps (t : FileTree κ β) {p : List κ} (h : t.Leaf p) (d : Option (Entry β)) :
    t.Keeps (t.setLeaf p h d) := by
  intro q hq
  have hne : q ≠ p := fun hqp => h.empty (hqp ▸ hq)
  rw [setLeaf_other t h d hne, hq]

instance (t : FileTree κ β) (p : List κ) : Decidable (t.Leaf p) :=
  decidable_of_iff (p ≠ [] ∧ Entry.isDir (t.entry p.dropLast) = true ∧ Entry.isDir (t.entry p) = false)
    leaf_iff.symm

/-- The tree with `d` at `p`, where that is a leaf. -/
def put (t : FileTree κ β) (p : List κ) (d : Option (Entry β)) : FileTree κ β :=
  if h : t.Leaf p then t.setLeaf p h d else t

@[simp] theorem put_self {t : FileTree κ β} {p : List κ} (h : t.Leaf p) (d : Option (Entry β)) :
    (t.put p d).entry p = d := by
  rw [put, dif_pos h, setLeaf_self]

/-- An entry put at one place changes no other place. -/
@[simp] theorem put_other (t : FileTree κ β) {p q : List κ} (d : Option (Entry β)) (hne : q ≠ p) :
    (t.put p d).entry q = t.entry q := by
  unfold put
  split
  · exact setLeaf_other t _ d hne
  · rfl

/-- A directory is no leaf, so it stays. -/
theorem put_keeps (t : FileTree κ β) (p : List κ) (d : Option (Entry β)) : t.Keeps (t.put p d) := by
  unfold put
  split
  · exact setLeaf_keeps t _ d
  · exact Keeps.refl t

end Set

end FileTree

end Bklib.Lib
