import Mathlib.Data.Finmap
import Mathlib.Data.Multiset.Basic

/-!
# `Bklib.Lib.KeyMap`: finite maps whose keys are compared up to an equivalence

A `KeyMap r ν` is a finite map from the classes of the setoid `r` to pairs of a key and a value:
the key is the representative most recently put for its class. The structure carries the fact
that a stored key lies in the class it is stored under, so no lemma proves it again.

`KeyMap.Lists m l` says that the list `l` holds every entry of `m` exactly once. The rule
`KeyMap.lists_of_get` turns it into a statement about `get`: the entries of `l` are pairwise
inequivalent, and `get` finds exactly them.
-/

set_option autoImplicit false

namespace Bklib.Lib

open Classical

variable {κ ν : Type*}

/-- A finite map on keys up to `r`. -/
structure KeyMap (r : Setoid κ) (ν : Type*) where
  /-- The entries, by the class of their key. -/
  entries : Finmap fun _ : Quotient r => κ × ν
  /-- Each stored key lies in the class it is stored under. -/
  key_mem : ∀ c e, entries.lookup c = some e → (⟦e.1⟧ : Quotient r) = c

namespace KeyMap

variable {r : Setoid κ}

/-- The entry stored for the class of `k`. -/
noncomputable def get (m : KeyMap r ν) (k : κ) : Option (κ × ν) := m.entries.lookup ⟦k⟧

/-- The number of entries. -/
noncomputable def count (m : KeyMap r ν) : Nat := m.entries.keys.card

noncomputable def empty : KeyMap r ν := ⟨∅, fun _ _ h => by simp at h⟩

/-- Store the entry `(k, v)` for the class of `k`, in place of the one stored before. -/
noncomputable def put (m : KeyMap r ν) (k : κ) (v : ν) : KeyMap r ν where
  entries := m.entries.insert ⟦k⟧ (k, v)
  key_mem c e h := by
    by_cases hc : c = ⟦k⟧
    · subst hc
      rw [Finmap.lookup_insert, Option.some.injEq] at h
      rw [← h]
    · rw [Finmap.lookup_insert_of_ne _ hc] at h
      exact m.key_mem c e h

/-- Drop the entry of the class of `k`. -/
noncomputable def del (m : KeyMap r ν) (k : κ) : KeyMap r ν where
  entries := m.entries.erase ⟦k⟧
  key_mem c e h := by
    by_cases hc : c = ⟦k⟧
    · subst hc
      rw [Finmap.lookup_erase] at h
      exact absurd h (by simp)
    · rw [Finmap.lookup_erase_ne hc] at h
      exact m.key_mem c e h

@[simp] theorem get_empty (k : κ) : (empty : KeyMap r ν).get k = none := Finmap.lookup_empty _

/-- What a key gives after a put: the value put, for every key in the relation to it, else what it
gave. -/
theorem get_put (m : KeyMap r ν) (k k' : κ) (v : ν) :
    (m.put k v).get k' = if r k' k then some (k, v) else m.get k' := by
  unfold get put
  split
  · rename_i h
    rw [show (⟦k'⟧ : Quotient r) = ⟦k⟧ from Quotient.sound h, Finmap.lookup_insert]
  · rename_i h
    exact Finmap.lookup_insert_of_ne _ fun he => h (Quotient.exact he)

/-- What a key gives after a deletion: nothing for the keys in the relation to it, else what it
gave. -/
theorem get_del (m : KeyMap r ν) (k k' : κ) :
    (m.del k).get k' = if r k' k then none else m.get k' := by
  unfold get del
  split
  · rename_i h
    rw [show (⟦k'⟧ : Quotient r) = ⟦k⟧ from Quotient.sound h, Finmap.lookup_erase]
  · rename_i h
    exact Finmap.lookup_erase_ne fun he => h (Quotient.exact he)

/-- `get_put` for keys that are compared by equality. -/
theorem get_put_of_eq [DecidableEq κ] (hr : ∀ k k', r k k' ↔ k = k') (m : KeyMap r ν) (k k' : κ)
    (v : ν) : (m.put k v).get k' = if k' = k then some (k, v) else m.get k' := by
  rw [get_put]
  by_cases hk : k' = k
  · rw [if_pos ((hr k' k).mpr hk), if_pos hk]
  · rw [if_neg fun h => hk ((hr k' k).mp h), if_neg hk]

/-- `get_del` for keys that are compared by equality. -/
theorem get_del_of_eq [DecidableEq κ] (hr : ∀ k k', r k k' ↔ k = k') (m : KeyMap r ν)
    (k k' : κ) : (m.del k).get k' = if k' = k then none else m.get k' := by
  rw [get_del]
  by_cases hk : k' = k
  · rw [if_pos ((hr k' k).mpr hk), if_pos hk]
  · rw [if_neg fun h => hk ((hr k' k).mp h), if_neg hk]

/-- The key of the entry found for `k` is equivalent to `k`. -/
theorem key_of_get {m : KeyMap r ν} {k : κ} {e : κ × ν} (h : m.get k = some e) : r e.1 k :=
  Quotient.exact (m.key_mem _ e h)

/-- `l` holds every entry of `m` exactly once. -/
def Lists (m : KeyMap r ν) (l : List (κ × ν)) : Prop :=
  (l : Multiset (κ × ν)) = m.entries.entries.map (·.2)

/-- A list of pairwise inequivalent entries that `get` finds, all of them, lists the map. -/
theorem lists_of_get {m : KeyMap r ν} {l : List (κ × ν)}
    (hne : l.Pairwise fun e e' => ¬ r e.1 e'.1)
    (hget : ∀ k e, m.get k = some e ↔ e ∈ l ∧ r e.1 k) : m.Lists l := by
  have hnodup : l.Nodup :=
    hne.imp fun {a b} h hab => h (by subst hab; exact Setoid.refl a.1)
  -- The entries with their classes; both sides are duplicate-free, so membership decides.
  have hsig : ((l.map fun e => (⟨⟦e.1⟧, e⟩ : Σ _ : Quotient r, κ × ν) : List _) : Multiset _)
      = m.entries.entries := by
    refine (Multiset.Nodup.ext ?_ m.entries.nodup_entries).mpr ?_
    · exact Multiset.coe_nodup.mpr (hnodup.map fun a b h => eq_of_heq (Sigma.mk.inj h).2)
    · rintro ⟨c, e⟩
      obtain ⟨k, rfl⟩ := Quotient.exists_rep c
      rw [← Finmap.lookup_eq_some_iff]
      constructor
      · intro h
        obtain ⟨e', he', heq⟩ := List.mem_map.mp (Multiset.mem_coe.mp h)
        obtain ⟨hc, he⟩ := Sigma.mk.inj heq
        obtain rfl : e' = e := eq_of_heq he
        exact (hget k e').mpr ⟨he', Quotient.exact hc⟩
      · intro h
        obtain ⟨hmem, hr⟩ := (hget k e).mp h
        refine Multiset.mem_coe.mpr (List.mem_map.mpr ⟨e, hmem, ?_⟩)
        rw [show (⟦e.1⟧ : Quotient r) = ⟦k⟧ from Quotient.sound hr]
  unfold Lists
  rw [← hsig, Multiset.map_coe, List.map_map]
  simp [Function.comp_def]

/-- The number of listed entries is the number of entries. -/
theorem Lists.length_eq {m : KeyMap r ν} {l : List (κ × ν)} (h : m.Lists l) :
    l.length = m.count := by
  have hcard : Multiset.card (l : Multiset (κ × ν)) = Multiset.card m.entries.entries := by
    rw [show (l : Multiset (κ × ν)) = _ from h, Multiset.card_map]
  rw [Multiset.coe_card] at hcard
  rw [hcard, count]
  show _ = (Multiset.keys m.entries.entries).card
  simp [Multiset.keys]

end KeyMap

end Bklib.Lib
