import Mathlib.Order.Defs.LinearOrder
import Mathlib.Data.List.Basic

/-!
# `Bklib.Model.State`: the retry table of `state.c`

A table lists states with the number of tries in each, the time between them, and the state that
follows when there are no tries left. It ends at the first entry without tries. Times are exact
numbers of a type `T`. A pointer into the table is the entry that it points to; where the code follows
a null pointer, there is no result.
-/

set_option autoImplicit false

namespace Bklib

/-- `state_table_s`, without its argument. -/
structure StateTable (T : Type*) where
  state         : Int
  retryInterval : T
  retryMax      : Int
  timeoutNext   : Int
  deriving DecidableEq

/-- `state_s`. -/
structure StateS (T : Type*) where
  table        : List (StateTable T)
  current      : Option (StateTable T)
  retryTimeout : T
  retryCount   : Int
  deriving DecidableEq

/-- `state_poll_ret`. -/
inductive StatePollRet where
  | noop
  | retry
  | timeout
  deriving DecidableEq

variable {T : Type*} [Add T] [Zero T] [LT T] [DecidableLT T]

/-- The entries of a table up to its end. -/
def stateListed (table : List (StateTable T)) : List (StateTable T) :=
  table.takeWhile fun p => p.retryMax ≠ 0

/-- The entry of a state. -/
def stateFind (table : List (StateTable T)) (state : Int) : Option (StateTable T) :=
  (stateListed table).find? fun p => p.state = state

/-- `state_init`. -/
def stateInit (table : List (StateTable T)) : StateS T :=
  { table, current := table.head?, retryTimeout := 0, retryCount := 0 }

/-- `state_get`. -/
def stateGet (st : StateS T) : Int := (st.current.map (·.state)).getD 0

/-- `state_set`: the state, and the result. The time is not used. -/
def stateSet (st : StateS T) (newState : Int) (_now : T) : StateS T × Int :=
  match stateFind st.table newState with
  | none   => (st, -1)
  | some p => ({ st with current := some p, retryTimeout := 0, retryCount := p.retryMax }, 0)

/-- `state_timeout_next`. -/
def stateTimeoutNext (st : StateS T) (now : T) : Option (StateS T × Int) :=
  st.current.map fun cur => stateSet st cur.timeoutNext now

/-- `state_poll`. -/
def statePoll (st : StateS T) (now : T) (timeoutNext : Bool) : Option (StateS T × StatePollRet) :=
  if now < st.retryTimeout then some (st, .noop)
  else if st.retryCount ≤ 0 ∧ timeoutNext = false then some (st, .timeout)
  else
    -- what `state_timeout_next` returns is not looked at
    let next := if st.retryCount ≤ 0 then (stateTimeoutNext st now).map (·.1) else some st
    next.bind fun st =>
      st.current.map fun cur =>
        ({ st with retryCount := st.retryCount - 1, retryTimeout := now + cur.retryInterval }, .retry)

/-! ## Polls -/

/-- A poll as its caller sees it, with the entry that is current behind it. -/
structure StatePolled (T : Type*) where
  now   : T
  ret   : StatePollRet
  entry : StateTable T
  deriving DecidableEq

/-- Polls with `timeout_next` at the times of a list. -/
def statePolls : StateS T → List T → Option (List (StatePolled T))
  | _,  []           => some []
  | st, now :: times =>
      (statePoll st now true).bind fun r =>
        r.1.current.bind fun cur =>
          (statePolls r.1 times).map (⟨now, r.2, cur⟩ :: ·)

end Bklib
