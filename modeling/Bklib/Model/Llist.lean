import Mathlib.Logic.Function.Basic

/-!
# `Bklib.Model.Llist`: the linked list of `llist.h`

A node lies in a structure of the caller's. A pointer to a node leads to one of these, or to the
sentinel `list->head`. The links of all nodes are in the state, also of those that are in no list.
-/

set_option autoImplicit false

namespace Bklib

/-- Where a `lnode_t *` leads to that is not null: `&list->head`, or a node of the caller's. -/
inductive LnodeRef (ν : Type) where
  | head
  | node (a : ν)
  deriving DecidableEq

/-- `llist_t`, with the nodes of the callers. The links of the sentinel are `list->head`. -/
structure Llist (ν : Type) where
  next : LnodeRef ν → Option (LnodeRef ν)
  prev : LnodeRef ν → Option (LnodeRef ν)
  tail : Option (LnodeRef ν)

section
variable {ν : Type} [DecidableEq ν]

/-- `r->next = x`. -/
def Llist.setNext (list : Llist ν) (r : LnodeRef ν) (x : Option (LnodeRef ν)) : Llist ν :=
  { list with next := Function.update list.next r x }

/-- `r->prev = x`. -/
def Llist.setPrev (list : Llist ν) (r : LnodeRef ν) (x : Option (LnodeRef ν)) : Llist ν :=
  { list with prev := Function.update list.prev r x }

/-- `if( r ) r->next = x`. -/
def Llist.setNextAt (list : Llist ν) (r x : Option (LnodeRef ν)) : Llist ν :=
  match r with
  | some r => list.setNext r x
  | none   => list

/-- `if( r ) r->prev = x`. -/
def Llist.setPrevAt (list : Llist ν) (r x : Option (LnodeRef ν)) : Llist ν :=
  match r with
  | some r => list.setPrev r x
  | none   => list

/-- `llist_init`. -/
def llistInit (list : Llist ν) : Llist ν :=
  { (list.setNext .head none).setPrev .head none with tail := none }

/-- `llist_head`. -/
def llistHead (list : Llist ν) : Option (LnodeRef ν) := list.next .head

/-- `llist_tail`. -/
def llistTail (list : Llist ν) : Option (LnodeRef ν) := list.tail

/-- `llist_add_after`. -/
def llistAddAfter (list : Llist ν) (prev : Option (LnodeRef ν)) (node : LnodeRef ν) : Llist ν :=
  let prev := prev.getD .head
  let list :=
    { list with
      tail := if list.tail = none ∨ list.tail = some prev then some node else list.tail }
  let list := list.setPrev node (some prev)
  let list := list.setNext node (list.next prev)
  let list := list.setPrevAt (list.next prev) (some node)
  let list := list.setNext prev (some node)
  -- Break the link to the sentinel.
  if list.prev node = some .head then list.setPrev node none else list

/-- `llist_insert`. -/
def llistInsert (list : Llist ν) (node : LnodeRef ν) : Llist ν := llistAddAfter list (some .head) node

/-- `llist_append`. -/
def llistAppend (list : Llist ν) (node : LnodeRef ν) : Llist ν := llistAddAfter list list.tail node

/-- `llist_remove`. -/
def llistRemove (list : Llist ν) (node : LnodeRef ν) : Llist ν :=
  let list := { list with tail := if some node = list.tail then list.prev node else list.tail }
  -- Rejoin the link to the sentinel.
  let list := if list.next .head = some node then list.setPrev node (some .head) else list
  let list := list.setNextAt (list.prev node) (list.next node)
  let list := list.setPrevAt (list.next node) (list.prev node)
  -- Break the link to the sentinel.
  list.setPrevAt (list.next .head) none

/-- `llist_to_tail`. -/
def llistToTail (list : Llist ν) (node : LnodeRef ν) : Llist ν :=
  llistAppend (llistRemove list node) node

end

end Bklib
