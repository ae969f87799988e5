import Bklib.Lib.DoublyLinked
import Bklib.Lib.Run
import Bklib.Model.Llist

/-!
# `Bklib.Proofs.Llist`: the linked list is a sequence

The sentinel is in front of the first node, but the first node does not link back to it: the link is
rejoined while a node is taken out and broken again afterwards. So the nodes of a list are a segment
with nothing in front and nothing behind, whose first node is what the sentinel links to and whose
last one is the tail (`LlistIs`).

* `llist_sequence`: in every run of the operations the two directions are the same sequence.
-/

set_option autoImplicit false

namespace Bklib

open Bklib.Lib

section
variable {ν : Type}

/-- The nodes of the caller's at these places. -/
def nodes (l : List ν) : List (LnodeRef ν) := l.map .node

/-- A node is one of `nodes l` when `l` has it. -/
theorem mem_nodes {l : List ν} {a : ν} : .node a ∈ nodes l ↔ a ∈ l := by
  simp [nodes]

/-- The head is no node. -/
theorem head_notMem_nodes (l : List ν) : LnodeRef.head ∉ nodes l := by
  simp [nodes]

/-- The nodes of two lists. -/
theorem nodes_append (l₁ l₂ : List ν) : nodes (l₁ ++ l₂) = nodes l₁ ++ nodes l₂ := List.map_append

/-- Different elements are different nodes. -/
theorem nodup_nodes {l : List ν} (h : l.Nodup) : (nodes l).Nodup :=
  h.map fun _ _ heq => LnodeRef.node.inj heq

/-- The list has these nodes. -/
structure LlistIs (list : Llist ν) (l : List ν) : Prop where
  nodup : l.Nodup
  links : DSeg list.next list.prev none (llistHead list) (nodes l) (llistTail list) none

/-- Where the node stands that comes behind `l`: the last node of `l`, or the sentinel. -/
def lastRef (l : List ν) : LnodeRef ν := (nodes l).getLast?.getD .head

section
variable {list : Llist ν} {l l₁ l₂ : List ν} {a : ν}

/-- The end of the chain, when it is not the head, is the last node. -/
theorem lastRef_eq_iff {c : LnodeRef ν} (hc : c ≠ .head) :
    lastRef l = c ↔ (nodes l).getLast? = some c := by
  unfold lastRef
  cases (nodes l).getLast? with
  | none => simp [hc.symm]
  | some d => simp

/-- The sentinel stands in front of the first node, and of no other. -/
theorem lastRef_eq_head (h : (nodes l).head? = none) : lastRef l = .head := by
  rw [lastRef, List.head?_eq_none_iff.mp h]
  rfl

/-- A chain with a node does not end at the head. -/
theorem lastRef_ne_head {d : LnodeRef ν} (h : (nodes l).head? = some d) : lastRef l ≠ .head := by
  unfold lastRef
  cases hlast : (nodes l).getLast? with
  | none =>
      rw [List.getLast?_eq_none_iff.mp hlast] at h
      cases h
  | some c => exact fun heq => head_notMem_nodes l (heq ▸ List.mem_of_getLast? hlast)

/-- The node in front of `l₂` links to its first node. -/
theorem LlistIs.next_lastRef (h : LlistIs list (l₁ ++ l₂)) :
    list.next (lastRef l₁) = (nodes l₂).head? := by
  have hlinks := h.links
  rw [nodes_append] at hlinks
  cases hlast : (nodes l₁).getLast? with
  | none =>
      have hnil : l₁ = [] := by simpa [nodes] using hlast
      subst hnil
      exact hlinks.first_eq.trans (Option.or_none)
  | some c =>
      rw [lastRef, hlast]
      exact (hlinks.next_between c hlast).trans Option.or_none

end

variable [DecidableEq ν]

/-- The node behind `l` links back to its last node, but not to the sentinel. -/
theorem lastRef_link (l : List ν) :
    (if lastRef l = .head then none else some (lastRef l)) = (nodes l).getLast? := by
  unfold lastRef
  cases hlast : (nodes l).getLast? with
  | none => rfl
  | some c =>
      have hne : c ≠ .head := fun heq => head_notMem_nodes l (heq ▸ List.mem_of_getLast? hlast)
      simp [hne]

/-! ### Setting links -/

section
variable (list : Llist ν) (r : LnodeRef ν) (o x : Option (LnodeRef ν))

@[simp] theorem setNext_next : (list.setNext r x).next = Function.update list.next r x := rfl

@[simp] theorem setNext_prev : (list.setNext r x).prev = list.prev := rfl

@[simp] theorem setNext_tail : (list.setNext r x).tail = list.tail := rfl

@[simp] theorem setPrev_next : (list.setPrev r x).next = list.next := rfl

@[simp] theorem setPrev_prev : (list.setPrev r x).prev = Function.update list.prev r x := rfl

@[simp] theorem setPrev_tail : (list.setPrev r x).tail = list.tail := rfl

@[simp] theorem setPrevAt_next : (list.setPrevAt o x).next = list.next := by cases o <;> rfl

@[simp] theorem setPrevAt_tail : (list.setPrevAt o x).tail = list.tail := by cases o <;> rfl

/-- Setting `prev` of a node that may not be there. -/
theorem setPrevAt_prev (c : LnodeRef ν) :
    (list.setPrevAt o x).prev c = if o = some c then x else list.prev c := by
  cases o with
  | none => rfl
  | some r => simp [Llist.setPrevAt, Function.update_apply, eq_comm]

end

/-! ### Adding a node -/

section
variable (list : Llist ν) {prev : Option (LnodeRef ν)} {p node : LnodeRef ν}

/-- The forward pointers: the new node is between `p` and what was behind it. -/
theorem llistAddAfter_next (hp : prev.getD .head = p) (hne : p ≠ node) (c : LnodeRef ν) :
    (llistAddAfter list prev node).next c =
      if c = p then some node else if c = node then list.next p else list.next c := by
  unfold llistAddAfter
  rw [hp]
  dsimp only
  simp [apply_ite Llist.next, Function.update_of_ne hne, Function.update_apply]

/-- The backward pointers: the same the other way round, with null in place of the head. -/
theorem llistAddAfter_prev (hp : prev.getD .head = p) (hne : p ≠ node)
    (hat : list.next p ≠ some node) (c : LnodeRef ν) :
    (llistAddAfter list prev node).prev c =
      if c = node then (if p = .head then none else some p)
      else if list.next p = some c then some node else list.prev c := by
  unfold llistAddAfter
  rw [hp]
  have hself : (list.next p = some node) = False := eq_false hat
  simp only [apply_ite Llist.prev, setPrev_prev, setNext_prev, setPrevAt_prev, setNext_next,
    setPrev_next, Function.update_of_ne hne, Function.update_self, hself, if_false,
    Option.some.injEq]
  by_cases hc : c = node
  · subst hc
    split <;> simp [setPrevAt_prev, hself]
  · split <;> simp [setPrevAt_prev, hc]

/-- The tail moves when the new node is the last one. -/
theorem llistAddAfter_tail (hp : prev.getD .head = p) :
    (llistAddAfter list prev node).tail =
      if list.tail = none ∨ list.tail = some p then some node else list.tail := by
  unfold llistAddAfter
  rw [hp]
  dsimp only
  rw [apply_ite Llist.tail]
  simp

end

section
variable {list : Llist ν} {l l₁ l₂ : List ν} {a : ν}

/-- A node goes in behind `l₁`. -/
theorem LlistIs.insert (h : LlistIs list (l₁ ++ l₂)) (ha : a ∉ l₁ ++ l₂)
    {prev : Option (LnodeRef ν)} (hp : prev.getD .head = lastRef l₁) :
    LlistIs (llistAddAfter list prev (.node a)) (l₁ ++ a :: l₂) := by
  have hnext := h.next_lastRef
  have hlinks := h.links
  have hnodup := nodup_nodes h.nodup
  rw [nodes_append] at hlinks hnodup
  obtain ⟨hnodup₁, hnodup₂, hdisjoint⟩ := List.nodup_append.mp hnodup
  have hnode : ∀ c ∈ nodes l₁ ++ nodes l₂, c ≠ .head ∧ c ≠ .node a := by
    intro c hc
    rw [← nodes_append] at hc
    refine ⟨fun heq => head_notMem_nodes _ (heq ▸ hc), fun heq => ha (mem_nodes.mp (heq ▸ hc))⟩
  -- the head is no node, and neither is `a`
  have hnode₁ := fun c hc => hnode c (List.mem_append_left _ hc)
  have hnode₂ := fun c hc => hnode c (List.mem_append_right _ hc)
  have hlast : ∀ c, c ≠ .head → (c = lastRef l₁ ↔ (nodes l₁).getLast? = some c) :=
    fun c hc => eq_comm.trans (lastRef_eq_iff hc)
  have hne : lastRef l₁ ≠ .node a := fun heq => by
    have hmem := List.mem_of_getLast? ((lastRef_eq_iff (by simp)).mp heq)
    exact (hnode₁ _ hmem).2 rfl
  have hat : list.next (lastRef l₁) ≠ some (.node a) := fun heq => by
    rw [hnext] at heq
    exact (hnode₂ _ (List.mem_of_head? heq)).2 rfl
  have hnext' := llistAddAfter_next list hp hne
  have hprev' := llistAddAfter_prev list hp hne hat
  have htail' : (llistAddAfter list prev (.node a)).tail = _ := llistAddAfter_tail list hp
  rw [hnext] at hnext' hprev'
  generalize llistAddAfter list prev (.node a) = list' at hnext' hprev' htail' ⊢
  -- the links of the two parts are as before but for their inner ends
  have hinsert : DSeg list'.next list'.prev none ((nodes l₁).head?.or (some (.node a)))
      (nodes l₁ ++ .node a :: nodes l₂) ((nodes l₂).getLast?.or (some (.node a))) none := by
    refine hlinks.insert ⟨?_, ?_⟩ ?_ ?_ ?_ ?_ ?_ ?_
    · rw [hnext', if_neg hne.symm, if_pos rfl, Option.or_none]
    · rw [hprev', if_pos rfl, lastRef_link, Option.or_none]
    · intro c hc
      rw [hnext', if_pos ((hlast c (hnode₁ c (List.mem_of_getLast? hc)).1).mpr hc)]
    · intro c hc
      rw [hprev', if_neg (hnode₂ c (List.mem_of_head? hc)).2, if_pos (Option.mem_def.mp hc)]
    · intro c hc
      have hmem := List.dropLast_subset _ hc
      rw [hnext', if_neg fun heq => getLast?_ne_of_mem_dropLast hnodup₁ hc
        ((hlast c (hnode₁ c hmem).1).mp heq), if_neg (hnode₁ c hmem).2]
    · intro c hc
      rw [hprev', if_neg (hnode₁ c hc).2,
        if_neg fun heq => hdisjoint c hc c (List.mem_of_head? heq) rfl]
    · intro c hc
      rw [hnext', if_neg fun heq => hdisjoint c (List.mem_of_getLast?
        ((hlast c (hnode₂ c hc).1).mp heq)) c hc rfl, if_neg (hnode₂ c hc).2]
    · intro c hc
      have hmem := List.mem_of_mem_tail hc
      rw [hprev', if_neg (hnode₂ c hmem).2, if_neg (head?_ne_of_mem_tail hnodup₂ hc)]
  refine ⟨List.nodup_middle.mpr (List.nodup_cons.mpr ⟨ha, h.nodup⟩), ?_⟩
  -- the head moves only if nothing is in front of `a`
  have hhead : llistHead list' = (nodes l₁).head?.or (some (.node a)) := by
    have hold : list.next .head = ((nodes l₁ ++ nodes l₂).head?).or none := hlinks.first_eq
    rw [llistHead, hnext']
    cases l₁ with
    | nil => rfl
    | cons d l₁ =>
        rw [if_neg, if_neg (by simp), hold]
        · rfl
        · intro heq
          have hlink := lastRef_link (d :: l₁)
          rw [if_pos heq.symm, eq_comm] at hlink
          simp [nodes] at hlink
  -- the tail moves only if nothing is behind `a`
  have htail : llistTail list' = (nodes l₂).getLast?.or (some (.node a)) := by
    have hold : list.tail = ((nodes l₁ ++ nodes l₂).getLast?).or none := hlinks.last_eq
    rw [List.getLast?_append, Option.or_none] at hold
    rw [llistTail, htail', hold]
    cases hlast₂ : (nodes l₂).getLast? with
    | none =>
        rw [if_pos]
        · rfl
        · have hlink := lastRef_link l₁
          rw [Option.none_or, ← hlink]
          split <;> simp
    | some d =>
        have hmem := List.mem_of_getLast? hlast₂
        rw [if_neg]
        · rfl
        · rintro (hnone | hsome)
          · cases hnone
          · obtain rfl : d = lastRef l₁ := Option.some.inj hsome
            exact hdisjoint _ (List.mem_of_getLast? ((hlast _ (hnode₂ _ hmem).1).mp rfl)) _ hmem rfl
  rw [nodes_append, hhead, htail]
  exact hinsert

end

/-! ### Taking a node out -/

section
variable (list : Llist ν) {p node : LnodeRef ν}

@[simp] theorem setNextAt_prev (o x : Option (LnodeRef ν)) :
    (list.setNextAt o x).prev = list.prev := by cases o <;> rfl

@[simp] theorem setNextAt_tail (o x : Option (LnodeRef ν)) :
    (list.setNextAt o x).tail = list.tail := by cases o <;> rfl

/-- Rejoining the link to the sentinel: the node links back to what is in front of it. -/
theorem rejoin_eq (hp : (if list.next .head = some node then some .head else list.prev node) = some p) :
    (if list.next .head = some node then list.setPrev node (some .head) else list) =
      list.setPrev node (some p) := by
  split at hp
  · rw [if_pos ‹_›, hp]
  · rw [if_neg ‹_›, ← hp]
    simp [Llist.setPrev]

variable (hp : (if list.next .head = some node then some .head else list.prev node) = some p)
include hp

/-- What is left when the link is rejoined: `p` is in front of the node. -/
theorem llistRemove_eq :
    llistRemove list node =
      let list₁ := ({ list with
        tail := if some node = list.tail then list.prev node else list.tail }.setPrev node
          (some p)).setNext p (list.next node)
      let list₂ := list₁.setPrevAt (list₁.next node) (some p)
      list₂.setPrevAt (list₂.next .head) none := by
  unfold llistRemove
  have hrejoin := rejoin_eq
    { list with tail := if some node = list.tail then list.prev node else list.tail } hp
  dsimp only at hrejoin ⊢
  rw [hrejoin]
  simp [Llist.setNextAt]

/-- The forward pointer of the node in front skips the node. -/
theorem llistRemove_next (c : LnodeRef ν) :
    (llistRemove list node).next c = if c = p then list.next node else list.next c := by
  rw [llistRemove_eq list hp]
  simp [Function.update_apply]

/-- The backward pointer of the node behind skips it, too. -/
theorem llistRemove_prev (hne : p ≠ node) {c : LnodeRef ν} (hc : c ≠ node) :
    (llistRemove list node).prev c =
      if (if p = .head then list.next node else list.next .head) = some c then none
      else if list.next node = some c then some p else list.prev c := by
  rw [llistRemove_eq list hp]
  simp [setPrevAt_prev, Function.update_apply, hc, hne.symm, eq_comm]

/-- The tail moves back when the last node goes. -/
theorem llistRemove_tail :
    (llistRemove list node).tail = if some node = list.tail then list.prev node else list.tail := by
  rw [llistRemove_eq list hp]
  simp

end

section
variable {list : Llist ν} {l₁ l₂ : List ν} {a : ν}

/-- The node goes out. -/
theorem LlistIs.remove (h : LlistIs list (l₁ ++ a :: l₂)) :
    LlistIs (llistRemove list (.node a)) (l₁ ++ l₂) := by
  have hlinks := h.links
  have hnodup := nodup_nodes h.nodup
  rw [nodes_append] at hlinks hnodup
  change DSeg list.next list.prev none (llistHead list) (nodes l₁ ++ .node a :: nodes l₂)
    (llistTail list) none at hlinks
  change (nodes l₁ ++ .node a :: nodes l₂).Nodup at hnodup
  obtain ⟨hnot, hnodup'⟩ := List.nodup_cons.mp (List.nodup_middle.mp hnodup)
  obtain ⟨hnodup₁, hnodup₂, hdisjoint⟩ := List.nodup_append.mp hnodup'
  have hnode₁ : ∀ c ∈ nodes l₁, c ≠ .head ∧ c ≠ .node a := fun c hc =>
    ⟨fun heq => head_notMem_nodes _ (heq ▸ hc), fun heq => hnot (List.mem_append_left _ (heq ▸ hc))⟩
  have hnode₂ : ∀ c ∈ nodes l₂, c ≠ .head ∧ c ≠ .node a := fun c hc =>
    ⟨fun heq => head_notMem_nodes _ (heq ▸ hc), fun heq => hnot (List.mem_append_right _ (heq ▸ hc))⟩
  have hlast : ∀ c, c ≠ .head → (c = lastRef l₁ ↔ (nodes l₁).getLast? = some c) :=
    fun c hc => eq_comm.trans (lastRef_eq_iff hc)
  have hne : lastRef l₁ ≠ .node a := fun heq => by
    have hmem := List.mem_of_getLast? ((lastRef_eq_iff (by simp)).mp heq)
    exact (hnode₁ _ hmem).2 rfl
  -- The links of the node and of the sentinel.
  obtain ⟨m, z, hseg₁, rfl, hprev, hseg₂⟩ := dseg_append.mp hlinks
  have hprev' : list.prev (.node a) = (nodes l₁).getLast? :=
    hprev.trans (hseg₁.last_eq.trans Option.or_none)
  have hnext : list.next (.node a) = (nodes l₂).head? := hseg₂.first_eq.trans Option.or_none
  have hhead : list.next .head = (nodes l₁).head?.or (some (.node a)) := hseg₁.first_eq
  have htail : list.tail = (nodes l₂).getLast?.or (some (.node a)) := hseg₂.last_eq
  have hp : (if list.next .head = some (.node a) then some .head else list.prev (.node a))
      = some (lastRef l₁) := by
    have hlink := lastRef_link l₁
    rw [hhead, hprev', ← hlink]
    cases hfirst : (nodes l₁).head? with
    | none =>
        rw [lastRef_eq_head hfirst]
        exact if_pos rfl
    | some d =>
        have hd := (hnode₁ d (List.mem_of_head? hfirst)).2
        rw [if_neg (lastRef_ne_head hfirst), Option.some_or, if_neg fun heq => hd (Option.some.inj heq)]
  have hnew : (if lastRef l₁ = .head then list.next (.node a) else list.next .head)
      = (nodes l₁).head?.or (nodes l₂).head? := by
    rw [hhead, hnext]
    cases hfirst : (nodes l₁).head? with
    | none =>
        rw [if_pos (lastRef_eq_head hfirst)]
        rfl
    | some d =>
        rw [if_neg (lastRef_ne_head hfirst)]
        rfl
  have hnextAt := llistRemove_next list hp
  have hprevAt := fun c => llistRemove_prev list hp hne (c := c)
  have htailAt := llistRemove_tail list hp
  rw [hnew, hnext] at hprevAt
  rw [hnext] at hnextAt
  generalize llistRemove list (.node a) = list' at hnextAt hprevAt htailAt ⊢
  have hremove : DSeg list'.next list'.prev none ((nodes l₁).head?.or (list.next (.node a)))
      (nodes l₁ ++ nodes l₂) ((nodes l₂).getLast?.or (list.prev (.node a))) none := by
    refine hlinks.remove ?_ ?_ ?_ ?_ ?_ ?_
    · intro c hc
      rw [hnextAt, if_pos ((hlast c (hnode₁ c (List.mem_of_getLast? hc)).1).mpr hc), hnext]
    · intro c hc
      have hmem := List.mem_of_head? hc
      rw [hprevAt c (hnode₂ c hmem).2, hprev', ← lastRef_link, if_pos (Option.mem_def.mp hc)]
      cases hfirst : (nodes l₁).head? with
      | none => rw [if_pos (lastRef_eq_head hfirst), Option.none_or,
          if_pos (Option.mem_def.mp hc)]
      | some d =>
          rw [if_neg (lastRef_ne_head hfirst), Option.some_or,
            if_neg fun heq => hdisjoint d (List.mem_of_head? hfirst) c hmem (Option.some.inj heq)]
    · intro c hc
      have hmem := List.dropLast_subset _ hc
      rw [hnextAt, if_neg fun heq => getLast?_ne_of_mem_dropLast hnodup₁ hc
        ((hlast c (hnode₁ c hmem).1).mp heq)]
    · intro c hc
      rw [hprevAt c (hnode₁ c hc).2,
        if_neg fun heq : (nodes l₂).head? = some c => hdisjoint c hc c (List.mem_of_head? heq) rfl]
      cases hfirst : (nodes l₁).head? with
      | none =>
          rw [List.head?_eq_none_iff.mp hfirst] at hc
          cases hc
      | some d =>
          rw [Option.some_or]
          split
          · rename_i hd
            rw [hseg₁.prev_first c (hfirst.trans hd)]
          · rfl
    · intro c hc
      rw [hnextAt, if_neg fun heq => hdisjoint c (List.mem_of_getLast?
        ((hlast c (hnode₂ c hc).1).mp heq)) c hc rfl]
    · intro c hc
      have hmem := List.mem_of_mem_tail hc
      rw [hprevAt c (hnode₂ c hmem).2, if_neg (head?_ne_of_mem_tail hnodup₂ hc), if_neg]
      cases hfirst : (nodes l₁).head? with
      | none => exact head?_ne_of_mem_tail hnodup₂ hc
      | some d =>
          exact fun heq => hdisjoint d (List.mem_of_head? hfirst) c hmem (Option.some.inj heq)
  refine ⟨(List.nodup_cons.mp (List.nodup_middle.mp h.nodup)).2, ?_⟩
  have hhead' : llistHead list' = (nodes l₁).head?.or (list.next (.node a)) := by
    rw [llistHead, hnextAt, ← hnext, hhead]
    cases hfirst : (nodes l₁).head? with
    | none => rw [if_pos (lastRef_eq_head hfirst).symm, Option.none_or]
    | some d =>
        rw [if_neg (lastRef_ne_head hfirst).symm]
        rfl
  have htail' : llistTail list' = (nodes l₂).getLast?.or (list.prev (.node a)) := by
    rw [llistTail, htailAt, htail]
    cases hlast₂ : (nodes l₂).getLast? with
    | none => exact if_pos rfl
    | some d =>
        have hd := (hnode₂ d (List.mem_of_getLast? hlast₂)).2
        exact if_neg fun heq => hd (Option.some.inj heq).symm
  rw [nodes_append, hhead', htail']
  exact hremove

end

/-! ### Runs -/

/-- An operation on the list, with its nodes. -/
inductive LlistAct (ν : Type) where
  | insert (node : ν)
  | append (node : ν)
  | addAfter (prev : Option ν) (node : ν)
  | remove (node : ν)
  | toTail (node : ν)

/-- What the code does. -/
def llistStep (list : Llist ν) : LlistAct ν → Llist ν
  | .insert a        => llistInsert list (.node a)
  | .append a        => llistAppend list (.node a)
  | .addAfter prev a => llistAddAfter list (prev.map .node) (.node a)
  | .remove a        => llistRemove list (.node a)
  | .toTail a        => llistToTail list (.node a)

/-- `a` behind `p`. -/
def insertAfter (p a : ν) : List ν → List ν
  | []     => []
  | b :: l => if b = p then b :: a :: l else b :: insertAfter p a l

/-- What becomes of the sequence. -/
def seqStep (l : List ν) : LlistAct ν → List ν
  | .insert a            => a :: l
  | .append a            => l ++ [a]
  | .addAfter none a     => a :: l
  | .addAfter (some p) a => insertAfter p a l
  | .remove a            => l.erase a
  | .toTail a            => l.erase a ++ [a]

/-- A node that is added is no member, and one that is named otherwise is one. -/
def SeqAllowed (l : List ν) : LlistAct ν → Prop
  | .insert a        => a ∉ l
  | .append a        => a ∉ l
  | .addAfter prev a => a ∉ l ∧ ∀ p ∈ prev, p ∈ l
  | .remove a        => a ∈ l
  | .toTail a        => a ∈ l

/-- The list is this sequence: forwards from the head, backwards from the tail, with a null link at
both ends, and with a tail unless it is empty. -/
structure IsSequence (list : Llist ν) (l : List ν) : Prop where
  forwards : Seg list.next (llistHead list) (l.map .node) none
  backwards : Seg list.prev (llistTail list) (l.map .node).reverse none
  tail : llistTail list = none ↔ l = []

/-- Inserting behind the first `p`. -/
theorem insertAfter_append {p : ν} (a : ν) {l₁ : List ν} (l₂ : List ν) (hp : p ∉ l₁) :
    insertAfter p a (l₁ ++ p :: l₂) = l₁ ++ p :: a :: l₂ := by
  induction l₁ with
  | nil => exact if_pos rfl
  | cons b l₁ ih =>
      rw [List.mem_cons, not_or] at hp
      rw [List.cons_append, insertAfter, if_neg (Ne.symm hp.1), ih hp.2]
      rfl

section
variable {list : Llist ν} {l : List ν} {a : ν}

/-- An element is appended behind the tail. -/
theorem LlistIs.append (h : LlistIs list l) (ha : a ∉ l) :
    LlistIs (llistAppend list (.node a)) (l ++ [a]) := by
  have hlast : list.tail.getD .head = lastRef l := by
    rw [lastRef, show list.tail = (nodes l).getLast?.or none from h.links.last_eq, Option.or_none]
  rw [← List.append_nil l] at h ha
  exact h.insert ha hlast

/-- An element is taken out wherever it is. -/
theorem LlistIs.erase (h : LlistIs list l) (ha : a ∈ l) :
    LlistIs (llistRemove list (.node a)) (l.erase a) := by
  obtain ⟨l₁, l₂, hnot, rfl, herase⟩ := List.exists_erase_eq ha
  rw [herase]
  exact h.remove

/-- The step lemma. -/
theorem LlistIs.step (h : LlistIs list l) {act : LlistAct ν} (hact : SeqAllowed l act) :
    LlistIs (llistStep list act) (seqStep l act) := by
  cases act with
  | insert a => exact (show LlistIs _ ([] ++ _) from h).insert hact rfl
  | append a => exact h.append hact
  | addAfter prev a =>
      obtain ⟨ha, hprev⟩ := hact
      cases prev with
      | none => exact (show LlistIs _ ([] ++ _) from h).insert ha rfl
      | some p =>
          obtain ⟨l₁, l₂, hnot, rfl, -⟩ := List.exists_erase_eq (hprev p rfl)
          have hlast : LnodeRef.node p = lastRef (l₁ ++ [p]) := by simp [lastRef, nodes]
          show LlistIs _ (insertAfter p a (l₁ ++ p :: l₂))
          rw [insertAfter_append a l₂ hnot]
          rw [List.append_cons] at h ha ⊢
          exact h.insert ha hlast
  | remove a => exact h.erase hact
  | toTail a =>
      refine (h.erase hact).append ?_
      exact fun hmem => (h.nodup.mem_erase_iff.mp hmem).1 rfl

omit [DecidableEq ν] in
/-- What the pointers say of a list, in both directions. -/
theorem LlistIs.isSequence (h : LlistIs list l) : IsSequence list l := by
  refine ⟨h.links.seg_next, h.links.seg_prev, ?_⟩
  rw [h.links.last_eq, Option.or_none, List.getLast?_eq_none_iff, nodes, List.map_eq_nil_iff]

/-- An empty list, whatever the links of the nodes are. -/
theorem llistIs_init (list : Llist ν) : LlistIs (llistInit list) [] := by
  refine ⟨List.nodup_nil, ?_, rfl⟩
  show (llistInit list).next .head = none
  simp [llistInit]

end

/-- The linked list is the sequence that the operations make. -/
theorem llist_sequence (list : Llist ν) (acts : List (LlistAct ν))
    (hacts : AllSteps SeqAllowed seqStep [] acts) :
    IsSequence (run llistStep (llistInit list) acts) (run seqStep [] acts) := by
  have hrun : LlistIs (run llistStep (llistInit list) acts) (run seqStep [] acts) :=
    run_sim_of_allSteps (fun _ _ _ h hact => h.step hact) (llistIs_init list) hacts
  exact hrun.isSequence

end

/-- Nodes with links that lead nowhere. -/
def staleNodes : Llist Nat := ⟨fun r => some r, fun r => some r, some (.node 9)⟩

/-- Every operation, at the head, in the middle and at the tail, down to an empty list. -/
theorem llist_sequence_stale :
    IsSequence (run llistStep (llistInit staleNodes)
        [.append 1, .insert 2, .addAfter (some 2) 3, .addAfter none 4, .toTail 2, .remove 4, .remove 3,
          .toTail 1, .remove 2, .remove 1, .append 3, .insert 1])
      [1, 3] :=
  llist_sequence staleNodes _ (by simp [SeqAllowed, seqStep, insertAfter])

end Bklib
