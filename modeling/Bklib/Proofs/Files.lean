import Bklib.Model.Files

/-!
# `Bklib.Proofs.Files`: what a call leaves of the files

Each call on a path works at its target, and everything else stays (`FileSys.Only`). Directories stay
anyway, so that a path that could be followed can be followed in any later state
(`FileSys.locate_mono`). `mkdir` makes directories where nothing was and does nothing else
(`FileSys.Grows`).
-/

set_option autoImplicit false

namespace Bklib

open Lib

namespace FileSys

variable {e : FileEnv} {s s' : FileSys} {path : List UInt8} {p : List FileName}

/-! ## Paths -/

/-- A path that leads somewhere starts in a directory. -/
theorem locate_dir (h : s.locate e path = some p) :
    path ≠ [] ∧ s.tree.entry (e.base path) = some .dir ∧
      s.tree.walk (e.base path) (hops path) = some p := by
  unfold locate at h
  split at h
  · cases h
  · rename_i hbad
    have hne : path ≠ [] := fun hnil => hbad (Or.inl hnil)
    have hbase : Entry.isDir (s.tree.entry (e.base path)) = true := by
      cases hdir : Entry.isDir (s.tree.entry (e.base path)) with
      | true => rfl
      | false => exact absurd (Or.inr hdir) hbad
    exact ⟨hne, Entry.isDir_iff.mp hbase, h⟩

/-- Where a path leads is a matter of the path. -/
theorem locate_eq (h : s.locate e path = some p) : p = e.target path :=
  FileTree.walk_eq (hops path) (locate_dir h).2.2

/-- A path leads where it led while the entries stay. -/
theorem locate_mono (hkeeps : s.tree.Keeps s'.tree) (h : s.locate e path = some p) :
    s'.locate e path = some p := by
  obtain ⟨hne, hbase, hwalk⟩ := locate_dir h
  have hbase' := Entry.isDir_iff.mpr (hkeeps _ hbase)
  unfold locate
  rw [hbase', if_neg (by simp [hne])]
  exact FileTree.walk_mono hkeeps (hops path) hwalk

/-- Something can be put where a path leads and no directory is. -/
theorem leaf_of_locate (h : s.locate e path = some p) (hdir : s.tree.entry p ≠ some .dir) :
    s.tree.Leaf p := by
  obtain ⟨-, hbase, hwalk⟩ := locate_dir h
  cases hentry : s.tree.entry p with
  | none =>
      have hsome : s.tree.entry (e.base path) ≠ none := by
        rw [hbase]
        exact Option.some_ne_none _
      exact FileTree.leaf_of_walk hwalk hsome hentry
  | some d =>
      cases d with
      | dir => exact absurd hentry hdir
      | file content => exact FileTree.leaf_of_file hentry

/-! ## What stays -/

/-- Directories were made where nothing was, and nothing else. -/
def Grows (s s' : FileSys) : Prop :=
  ∀ q, s'.tree.entry q = s.tree.entry q ∨ s.tree.entry q = none ∧ s'.tree.entry q = some .dir

/-- Directories stay, and beside `p` directories were made where nothing was, and nothing else. -/
structure Only (s s' : FileSys) (p : List FileName) : Prop where
  keeps : s.tree.Keeps s'.tree
  other : ∀ q, q ≠ p →
    s'.tree.entry q = s.tree.entry q ∨ s.tree.entry q = none ∧ s'.tree.entry q = some .dir

theorem Grows.refl (s : FileSys) : s.Grows s := fun _ => Or.inl rfl

/-- Two steps that add add together. -/
theorem Grows.trans {s₁ s₂ s₃ : FileSys} (h : s₁.Grows s₂) (h' : s₂.Grows s₃) : s₁.Grows s₃ := by
  intro q
  rcases h' q with h₃ | ⟨hnone, h₃⟩
  · rcases h q with h₂ | ⟨hnone, h₂⟩
    · exact Or.inl (h₃.trans h₂)
    · exact Or.inr ⟨hnone, h₃.trans h₂⟩
  · rcases h q with h₂ | ⟨hnone', -⟩
    · exact Or.inr ⟨h₂.symm.trans hnone, h₃⟩
    · exact Or.inr ⟨hnone', h₃⟩

/-- A tree that grows keeps its entries. -/
theorem Grows.keeps (h : s.Grows s') : s.tree.Keeps s'.tree := by
  intro q hq
  rcases h q with heq | ⟨hnone, -⟩
  · rw [heq, hq]
  · rw [hq] at hnone
    cases hnone

theorem Grows.only (h : s.Grows s') (p : List FileName) : s.Only s' p := ⟨h.keeps, fun q _ => h q⟩

/-- Two steps that change one target change it together. -/
theorem Only.trans {s₁ s₂ s₃ : FileSys} (h : s₁.Only s₂ p) (h' : s₂.Only s₃ p) : s₁.Only s₃ p := by
  refine ⟨h.keeps.trans h'.keeps, fun q hq => ?_⟩
  rcases h'.other q hq with h₃ | ⟨hnone, h₃⟩
  · rw [h₃]
    exact h.other q hq
  · rcases h.other q hq with h₂ | ⟨hnone', -⟩
    · exact Or.inr ⟨h₂.symm.trans hnone, h₃⟩
    · exact Or.inr ⟨hnone', h₃⟩

/-- What stands beside `p` stays. -/
theorem Only.entry (h : s.Only s' p) {q : List FileName} (hq : q ≠ p)
    (hsome : s.tree.entry q ≠ none) : s'.tree.entry q = s.tree.entry q :=
  (h.other q hq).resolve_right fun hnone => hsome hnone.1

theorem put_only (s : FileSys) (p : List FileName) (d : Option (Entry UInt8)) :
    s.Only { s with tree := s.tree.put p d } p :=
  ⟨s.tree.put_keeps p d, fun _ hq => Or.inl (s.tree.put_other d hq)⟩

/-! ## Calls -/

theorem fail_grows (s : FileSys) (errno : Errno) : s.Grows (s.fail errno) := Grows.refl s

/-- `mkdir` adds a directory or nothing. -/
theorem mkdir_grows (e : FileEnv) (s : FileSys) (path : List UInt8) :
    s.Grows (s.mkdir e path).1 := by
  unfold mkdir
  split
  · exact fail_grows s _
  · rename_i p _
    split
    · exact fail_grows s _
    · rename_i hnone
      split
      · intro q
        by_cases hq : q = p
        · subst hq
          -- Without a directory to stand in nothing is made.
          by_cases hleaf : s.tree.Leaf q
          · exact Or.inr ⟨hnone, FileTree.put_self hleaf _⟩
          · exact Or.inl (by rw [FileTree.put, dif_neg hleaf])
        · exact Or.inl (s.tree.put_other _ hq)
      · exact fail_grows s _

/-- Reading leaves the files. -/
theorem fopenRead_tree (e : FileEnv) (s : FileSys) (path : List UInt8) :
    (s.fopenRead e path).1.tree = s.tree := by
  unfold fopenRead
  split
  · rfl
  · split
    · rfl
    · split
      · rfl
      · rfl
      · split
        · rfl
        · rfl

/-- A file that can be read is. -/
theorem fopenRead_file {content : List UInt8} (hlocate : s.locate e path = some p)
    (hread : e.readable p = true) (hslash : slashed path = false)
    (hfile : s.tree.entry p = some (.file content)) : s.fopenRead e path = (s, some content) := by
  unfold fopenRead
  rw [hlocate]
  simp only [hread, hfile, hslash, Bool.not_true, Bool.false_eq_true, if_false]

/-- What a file that was opened to write to is. -/
theorem fopenWrite_some (h : s.fopenWrite e path = (s', some p)) :
    s.locate e path = some p ∧ slashed path = false ∧ s.tree.Leaf p ∧
      s'.tree = s.tree.put p (some (.file [])) := by
  unfold fopenWrite at h
  split at h
  · cases h
  · rename_i q hlocate
    split at h
    · cases h
    · rename_i hopens
      obtain ⟨rfl, hqp⟩ := Prod.mk.inj h
      obtain rfl := Option.some.inj hqp
      simp only [Bool.or_eq_true, Bool.not_eq_true', not_or, Bool.not_eq_true,
        Bool.not_eq_false] at hopens
      refine ⟨hlocate, hopens.1, leaf_of_locate hlocate fun hdir => ?_, rfl⟩
      rw [opens, hdir] at hopens
      exact absurd hopens.2 Bool.false_ne_true

/-- What is stored of the bytes that are written to a file that was opened is what it holds. -/
theorem fwrite_tree (htree : s'.tree = s.tree.put p (some (.file []))) (hleaf : s.tree.Leaf p)
    (content : List UInt8) (room : FileRoom) :
    s.Only (s'.fwrite p content room).1 p ∧
      (s'.fwrite p content room).1.tree.entry p = some (.file (content.take room.stored)) := by
  have hopened : s.Only s' p := by
    have honly := put_only s p (some (.file []))
    exact ⟨by rw [htree]; exact honly.keeps, by rw [htree]; exact honly.other⟩
  have hempty : s'.tree.entry p = some (.file []) := by
    rw [htree]
    exact FileTree.put_self hleaf _
  exact ⟨hopened.trans (put_only s' p _), FileTree.put_self (FileTree.leaf_of_file hempty) _⟩

/-- A file that does not open for writing leaves the tree. -/
theorem fopenWrite_none (h : s.fopenWrite e path = (s', none)) : s.Grows s' := by
  unfold fopenWrite at h
  split at h
  · obtain ⟨rfl, -⟩ := Prod.mk.inj h
    exact fail_grows s _
  · split at h
    · obtain ⟨rfl, -⟩ := Prod.mk.inj h
      exact fail_grows s _
    · cases h

/-- Nothing else is opened. -/
theorem fopenWrite_other (e : FileEnv) (s : FileSys) {q : List FileName} (hq : q ≠ e.target path) :
    (s.fopenWrite e path).1.tree.entry q = s.tree.entry q := by
  unfold fopenWrite
  split
  · rfl
  · rename_i p hlocate
    split
    · rfl
    · exact FileTree.put_other _ _ (by rw [locate_eq hlocate]; exact hq)

/-- `unlink` changes its own target alone. -/
theorem unlink_only (e : FileEnv) (s : FileSys) (path : List UInt8) :
    s.Only (s.unlink e path).1 (e.target path) := by
  unfold unlink
  split
  · exact (fail_grows s _).only _
  · rename_i p hlocate
    split
    · split
      · exact (fail_grows s _).only _
      · rw [← locate_eq hlocate]
        exact put_only s p none
    · exact (fail_grows s _).only _

/-- Where nothing is, nothing is removed. -/
theorem unlink_missing (e : FileEnv) (s : FileSys) (hnone : s.tree.entry (e.target path) = none) :
    (s.unlink e path).1.tree = s.tree := by
  unfold unlink
  split
  · rfl
  · rename_i p hlocate
    rw [locate_eq hlocate, hnone]
    rfl

end FileSys

end Bklib
