import Mathlib.Data.List.Basic

/-!
# `Bklib.Model.Fdselect`: the registration table of `fdselect.c`

An entry holds a descriptor, the set of its registered events as a bit mask, and one function for
reading and one for writing, each with its argument. A function with its argument is a value of
`φ`; a null function is `none`.

`allocOk n` says whether the `n`-th allocation of a new entry succeeds. The operating-system event
of an entry is never set on Unix, and the time of the last event is never read, so neither is
modelled.
-/

set_option autoImplicit false

namespace Bklib

/-- A set of `fdselect_events`. -/
abbrev FdEvents := BitVec 32

/-- `FDSELECT_READ`. -/
def fdselectREAD : FdEvents := 1#32

/-- `FDSELECT_WRITE`. -/
def fdselectWRITE : FdEvents := 2#32

/-- `FDSELECT_ADDRESS_LIST_CHANGE`. -/
def fdselectADDRESS : FdEvents := 4#32

/-- `FDSELECT_ALL`. -/
def fdselectALL : FdEvents := BitVec.allOnes 32

/-- `fdselect_fd`. -/
structure FdselectFd (φ : Type) where
  fd : Int
  events : FdEvents
  readFunc : Option φ
  writeFunc : Option φ
  deriving DecidableEq

/-- `fdselect_t`. `allocs` counts the entries asked for so far. -/
structure Fdselect (φ : Type) where
  count : Int
  selectBreak : Bool
  fdArray : List (FdselectFd φ)
  allocs : Nat
  deriving DecidableEq

variable {φ : Type}

/-- `fdselect_init`. -/
def fdselectInit : Fdselect φ := ⟨0, false, [], 0⟩

/-- `fdselect_clear`. -/
def fdselectClear (sel : Fdselect φ) : Fdselect φ :=
  { sel with fdArray := [], count := 0, selectBreak := true }

/-- `fdselect_get`: the last entry of `fd` with one of `events`. -/
def fdselectGet (sel : Fdselect φ) (fd : Int) (events : FdEvents) : Option (FdselectFd φ) :=
  sel.fdArray.reverse.find? fun f => f.fd == fd && f.events &&& events != 0

/-- The search loop of `fdselect_set`: the position of the last entry of `fd` below `i`. -/
def fdselectFind (fdArray : List (FdselectFd φ)) (fd : Int) : Nat → Option Nat
  | 0     => none
  | i + 1 =>
      if fdArray[i]?.any (·.fd == fd) then some i else fdselectFind fdArray fd i

/-- What `fdselect_set` writes into the entry. -/
def FdselectFd.assign (f : FdselectFd φ) (events : FdEvents) (func : Option φ) : FdselectFd φ where
  fd := f.fd
  events := if func.isSome then f.events ||| events else f.events &&& ~~~events
  readFunc := if events &&& (fdselectREAD ||| fdselectADDRESS) ≠ 0 then func else f.readFunc
  writeFunc := if events &&& fdselectWRITE ≠ 0 then func else f.writeFunc

/-- The end of `fdselect_set` on entry `i`, which is `f`: an entry without events is removed. -/
def fdselectAssign (sel : Fdselect φ) (i : Nat) (f : FdselectFd φ) (events : FdEvents)
    (func : Option φ) : Fdselect φ :=
  if (f.assign events func).events = 0 then
    { sel with fdArray := sel.fdArray.eraseIdx i, count := sel.count - 1 }
  else { sel with fdArray := sel.fdArray.set i (f.assign events func) }

/-- No events mean reading and writing to `fdselect_set`. -/
def eventsOf (events : FdEvents) : FdEvents :=
  if events = 0 then fdselectREAD ||| fdselectWRITE else events

/-- `fdselect_set`. It fails when there is no memory for a new entry. `array_add` then leaves a null
`m_array` under a larger `m_max`, so the table is lost: the `-1` is the last thing the code is known
to do, and the table beside it is not one to call `fdselect_set` on again. -/
def fdselectSet (allocOk : Nat → Bool) (sel : Fdselect φ) (fd : Int) (events : FdEvents)
    (func : Option φ) : Fdselect φ × Int :=
  let sel := { sel with selectBreak := true }
  match fdselectFind sel.fdArray fd sel.fdArray.length with
  | some i =>
      match sel.fdArray[i]? with
      | some f => (fdselectAssign sel i f (eventsOf events) func, 0)
      | none   => (sel, -1)
  | none =>
      let f : FdselectFd φ := ⟨fd, 0, none, none⟩
      let ok := allocOk sel.allocs
      let sel := { sel with allocs := sel.allocs + 1 }
      if ok then
        let sel := { sel with fdArray := sel.fdArray ++ [f], count := sel.count + 1 }
        (fdselectAssign sel (sel.fdArray.length - 1) f (eventsOf events) func, 0)
      else (sel, -1)

/-- `fdselect_unset`. No events mean all events. -/
def fdselectUnset (allocOk : Nat → Bool) (sel : Fdselect φ) (fd : Int) (events : FdEvents) :
    Fdselect φ × Int :=
  let events := if events = 0 then fdselectALL else events
  fdselectSet allocOk { sel with selectBreak := true } fd events none

/-- The function that an event of an entry calls. -/
def FdselectFd.func (f : FdselectFd φ) (event : FdEvents) : Option φ :=
  if event = fdselectWRITE then f.writeFunc else f.readFunc

/-- The function that is registered for an event of `fd`. -/
def fdselectFunc (sel : Fdselect φ) (fd : Int) (event : FdEvents) : Option φ :=
  (fdselectGet sel fd event).bind (·.func event)

end Bklib
