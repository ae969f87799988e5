import Mathlib.Data.List.Perm.Basic

/-!
# `Bklib.Lib.Buckets`: lists distributed over buckets by a slot function

A bucketed list is a `List (List α)`. `InSlot slot bs` says that every element stands in the
bucket that `slot` names. The updates of a hash table are `modify` on one bucket: appending an
element and erasing one. For each of them there are two facts, what happens to the elements as a
whole (`perm_flatten_modify_append`, `perm_flatten_modify_eraseIdx`) and that `InSlot` is kept.
`distribute` appends a list of elements to their buckets one after the other.
-/

set_option autoImplicit false

namespace Bklib.Lib

variable {α : Type*}

/-- Every element stands in the bucket that `slot` names. -/
def InSlot (slot : α → Nat) (bs : List (List α)) : Prop :=
  ∀ b xs, bs[b]? = some xs → ∀ x ∈ xs, slot x = b

theorem mem_flatten_of_getElem? {bs : List (List α)} {b : Nat} {xs : List α} {x : α}
    (hb : bs[b]? = some xs) (hx : x ∈ xs) : x ∈ bs.flatten :=
  List.mem_flatten.mpr ⟨xs, List.mem_of_getElem? hb, hx⟩

/-- An element that stands in its own bucket is found there. -/
theorem InSlot.mem_bucket {slot : α → Nat} {bs : List (List α)} (h : InSlot slot bs) {x : α}
    (hx : x ∈ bs.flatten) : ∃ xs, bs[slot x]? = some xs ∧ x ∈ xs := by
  obtain ⟨xs, hxs, hx⟩ := List.mem_flatten.mp hx
  obtain ⟨b, hb⟩ := List.mem_iff_getElem?.mp hxs
  exact ⟨xs, by rw [h b xs hb x hx]; exact hb, hx⟩

/-- Appending to one bucket adds one element to the whole. -/
theorem perm_flatten_modify_append (x : α) :
    ∀ (bs : List (List α)) (i : Nat), i < bs.length →
      ((bs.modify i (· ++ [x])).flatten).Perm (x :: bs.flatten) := by
  intro bs
  induction bs with
  | nil => intro i hi; exact absurd hi (Nat.not_lt_zero i)
  | cons xs bs ih =>
      intro i hi
      cases i with
      | zero =>
          rw [List.modify_zero_cons, List.flatten_cons, List.flatten_cons, List.append_assoc]
          exact List.perm_middle
      | succ i =>
          have hrec := ih i (by simpa using hi)
          rw [List.modify_succ_cons, List.flatten_cons, List.flatten_cons]
          exact (hrec.append_left xs).trans List.perm_middle

/-- Erasing an element of one bucket takes it out of the whole. -/
theorem perm_flatten_modify_eraseIdx :
    ∀ (bs : List (List α)) (b i : Nat) (xs : List α) (x : α),
      bs[b]? = some xs → xs[i]? = some x →
        (x :: (bs.modify b (·.eraseIdx i)).flatten).Perm bs.flatten := by
  intro bs
  induction bs with
  | nil => intro b i xs x hb; simp at hb
  | cons ys bs ih =>
      intro b i xs x hb hx
      cases b with
      | zero =>
          obtain rfl : ys = xs := by simpa using hb
          obtain ⟨hi, rfl⟩ := List.getElem?_eq_some_iff.mp hx
          rw [List.modify_zero_cons, List.flatten_cons, List.flatten_cons]
          exact (List.getElem_cons_eraseIdx_perm hi).append_right bs.flatten
      | succ b =>
          have hrec := ih b i xs x (by simpa using hb) hx
          rw [List.modify_succ_cons, List.flatten_cons, List.flatten_cons]
          exact List.perm_middle.symm.trans (hrec.append_left ys)

/-- Replacing an element of one bucket puts the new one in the place of the old one. -/
theorem perm_flatten_modify_set {bs : List (List α)} {b i : Nat} {xs : List α} {x : α}
    (hb : bs[b]? = some xs) (hx : xs[i]? = some x) (y : α) :
    (y :: (bs.modify b (·.eraseIdx i)).flatten).Perm (bs.modify b (·.set i y)).flatten := by
  have hi : i < xs.length := (List.getElem?_eq_some_iff.mp hx).1
  have hb' : (bs.modify b (·.set i y))[b]? = some (xs.set i y) := by
    rw [List.getElem?_modify_eq, hb]
    rfl
  have hperm := perm_flatten_modify_eraseIdx _ b i _ y hb' (List.getElem?_set_self hi)
  have herase : (·.eraseIdx i) ∘ (·.set i y) = fun l : List α => l.eraseIdx i :=
    funext fun l => List.eraseIdx_set_eq
  rwa [List.modify_modify_eq, herase] at hperm

/-- Empty buckets hold no entry in a wrong slot. -/
theorem inSlot_replicate_nil (slot : α → Nat) (n : Nat) :
    InSlot slot (List.replicate n []) := by
  intro b xs hb x hx
  have hxs := List.eq_of_mem_replicate (List.mem_of_getElem? hb)
  rw [hxs] at hx
  exact absurd hx List.not_mem_nil

/-- Changing one bucket keeps `InSlot` when the new bucket belongs to the slot. -/
theorem InSlot.modify {slot : α → Nat} {bs : List (List α)} (h : InSlot slot bs) (i : Nat)
    (f : List α → List α)
    (hf : ∀ xs, bs[i]? = some xs → ∀ x ∈ f xs, slot x = i) :
    InSlot slot (bs.modify i f) := by
  intro b xs hb x hx
  rw [List.getElem?_modify] at hb
  cases hbs : bs[b]? with
  | none => simp [hbs] at hb
  | some ys =>
      simp only [hbs, Option.map_eq_map, Option.map_some, Option.some.injEq] at hb
      by_cases hib : i = b
      · subst hib
        rw [if_pos rfl] at hb
        exact hf ys hbs x (by rw [hb]; exact hx)
      · rw [if_neg hib] at hb
        exact h b ys hbs x (by rw [show ys = xs from hb]; exact hx)

/-- An entry put behind the others of its own slot stays in its slot. -/
theorem InSlot.modify_append {slot : α → Nat} {bs : List (List α)} (h : InSlot slot bs) (x : α) :
    InSlot slot (bs.modify (slot x) (· ++ [x])) :=
  h.modify (slot x) _ fun xs hxs y hy => by
    rcases List.mem_append.mp hy with hy | hy
    · exact h (slot x) xs hxs y hy
    · rw [List.mem_singleton.mp hy]

theorem InSlot.modify_eraseIdx {slot : α → Nat} {bs : List (List α)} (h : InSlot slot bs)
    (b i : Nat) : InSlot slot (bs.modify b (·.eraseIdx i)) :=
  h.modify b _ fun xs hxs y hy => h b xs hxs y (List.mem_of_mem_eraseIdx hy)

/-- So does one that takes the place of another of that slot. -/
theorem InSlot.modify_set {slot : α → Nat} {bs : List (List α)} (h : InSlot slot bs) {b i : Nat}
    {y : α} (hy : slot y = b) : InSlot slot (bs.modify b (·.set i y)) :=
  h.modify b _ fun xs hxs z hz => by
    rcases List.mem_or_eq_of_mem_set hz with hz | rfl
    · exact h b xs hxs z hz
    · exact hy

/-- Append the elements of `xs` to their buckets, one after the other. -/
def distribute (slot : α → Nat) (bs : List (List α)) (xs : List α) : List (List α) :=
  xs.foldl (fun bs x => bs.modify (slot x) (· ++ [x])) bs

/-- Distributing keeps the number of buckets and `InSlot`, and adds exactly the elements. -/
theorem distribute_spec (slot : α → Nat) :
    ∀ (xs : List α) (bs : List (List α)), InSlot slot bs → (∀ x ∈ xs, slot x < bs.length) →
      (distribute slot bs xs).length = bs.length ∧ InSlot slot (distribute slot bs xs) ∧
        (distribute slot bs xs).flatten.Perm (xs ++ bs.flatten) := by
  intro xs
  induction xs with
  | nil => intro bs h _; exact ⟨rfl, h, List.Perm.refl _⟩
  | cons x xs ih =>
      intro bs h hlt
      have hx := hlt x List.mem_cons_self
      obtain ⟨hlen, hslot, hperm⟩ := ih _ (h.modify_append x) fun y hy => by
        rw [List.length_modify]; exact hlt y (List.mem_cons_of_mem x hy)
      refine ⟨hlen.trans (List.length_modify ..), hslot, hperm.trans ?_⟩
      exact ((perm_flatten_modify_append x bs (slot x) hx).append_left xs).trans
        List.perm_middle

end Bklib.Lib
