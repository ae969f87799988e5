import Bklib.Model.Fdselect

/-!
# `Bklib.Model.FdselectSelect`: the calls on a table, and `fdselect_select_os`

A callback is any function that reads the table and its own state, a value of `σ`, and answers with
the calls it makes on the selector. The walk of `fdselect_select_os` keeps a pointer into the block
of the table: once a callback has changed the table, the pointer may lead anywhere, and a walk that
followed it would have no result. The entries of a table never lack the memory they need.

An `fd_set` is an array of `FD_SETSIZE` bits. Nothing in the code compares a descriptor with that, so
a descriptor without a bit makes `FD_SET` write outside of the sets on the stack, and then there is no
result either.
-/

set_option autoImplicit false

namespace Bklib

variable {φ σ : Type}

/-- A call on a selector. -/
inductive FdAct (φ : Type) where
  | set (fd : Int) (events : FdEvents) (func : Option φ)
  | unset (fd : Int) (events : FdEvents)
  | clear
  | brk

/-- `fdselect_break`. -/
def fdselectBreak (sel : Fdselect φ) : Fdselect φ := { sel with selectBreak := true }

/-- The table after a call. -/
def FdAct.run (sel : Fdselect φ) : FdAct φ → Fdselect φ
  | .set fd events func => (fdselectSet (fun _ => true) sel fd events func).1
  | .unset fd events    => (fdselectUnset (fun _ => true) sel fd events).1
  | .clear              => fdselectClear sel
  | .brk                => fdselectBreak sel

/-- The table after some calls. -/
def fdActs (sel : Fdselect φ) (acts : List (FdAct φ)) : Fdselect φ := acts.foldl FdAct.run sel

/-- Everything but `fdselect_break` may move or change the entries. -/
def FdAct.changes : FdAct φ → Bool
  | .brk => false
  | _    => true

/-- What a callback does: its new state, and the calls it makes. -/
abbrev FdCallback (φ σ : Type) := σ → Fdselect φ → φ → Int → FdEvents → σ × List (FdAct φ)

/-- One call of a callback, and the calls on the selector that came before it. -/
structure FdCall (φ : Type) where
  fd : Int
  event : FdEvents
  func : φ
  before : List (FdAct φ)

/-- `fdselect_select_os` on its way. `acts` are the calls on the selector so far, and `stale` says
that one of the callbacks changed the table. -/
structure FdWalk (φ σ : Type) where
  sel : Fdselect φ
  env : σ
  acts : List (FdAct φ)
  calls : List (FdCall φ)
  stale : Bool

/-- `f`, as long as it leads into the table. -/
def FdWalk.deref (w : FdWalk φ σ) (i : Nat) : Option (FdselectFd φ) :=
  if w.stale then none else w.sel.fdArray[i]?

/-- `func (sel, fd, event, farg)`, unless there is no function. -/
def FdWalk.invoke (callback : FdCallback φ σ) (w : FdWalk φ σ) (fd : Int) (event : FdEvents) :
    Option φ → FdWalk φ σ
  | none      => w
  | some func =>
      let (env, acts) := callback w.env w.sel func fd event
      { sel := fdActs w.sel acts
        env := env
        acts := w.acts ++ acts
        calls := w.calls ++ [⟨fd, event, func, w.acts⟩]
        stale := w.stale || acts.any FdAct.changes }

/-- `FD_SETSIZE`. -/
def FD_SETSIZE : Int := 1024

/-- An `fd_set` has a bit for the descriptor. -/
def FdInSet (fd : Int) : Prop := 0 ≤ fd ∧ fd < FD_SETSIZE

instance (fd : Int) : Decidable (FdInSet fd) := inferInstanceAs (Decidable (_ ∧ _))

/-- The sets for `select` are filled within their bounds. `FD_SET` is called for an entry with
`FDSELECT_READ` or `FDSELECT_WRITE`, and `select` goes up to the greatest descriptor of all. -/
def fdselectSetsFit (sel : Fdselect φ) : Bool :=
  sel.fdArray.all fun f =>
    f.fd < FD_SETSIZE && (f.events &&& (fdselectREAD ||| fdselectWRITE) == 0 || 0 ≤ f.fd)

/-- What `select` reports. -/
structure FdReady where
  nfds : Int
  rfds : Int → Bool
  wfds : Int → Bool

/-- The loop over the entries, from the last one on; `i` is one more than its counter. There is no
result when `f` is followed into a table that has changed, or `FD_ISSET` reads outside of a set. -/
def fdselectWalk (callback : FdCallback φ σ) (ready : FdReady) :
    Nat → FdWalk φ σ → Option (FdWalk φ σ)
  | 0,     w => some w
  | i + 1, w =>
      match w.deref i with
      | none   => none
      | some f =>
          if f.events = 0 then fdselectWalk callback ready i w
          else if ¬FdInSet f.fd then none
          else
            let w := if ready.rfds f.fd then w.invoke callback f.fd fdselectREAD f.readFunc else w
            if w.sel.selectBreak then some w
            else
              match w.deref i with
              | none   => none
              | some f =>
                  let w :=
                    if ready.wfds f.fd then w.invoke callback f.fd fdselectWRITE f.writeFunc else w
                  if w.sel.selectBreak then some w else fdselectWalk callback ready i w

/-- `FD_SET` for every entry with the event. -/
def fdselectWanted (sel : Fdselect φ) (event : FdEvents) (fd : Int) : Bool :=
  sel.fdArray.any fun f => f.fd == fd && f.events &&& event != 0

/-- What `select` leaves of the sets it was given. -/
def FdReady.within (ready : FdReady) (sel : Fdselect φ) : FdReady where
  nfds := ready.nfds
  rfds fd := ready.rfds fd && fdselectWanted sel fdselectREAD fd
  wfds fd := ready.wfds fd && fdselectWanted sel fdselectWRITE fd

/-- `fdselect_select_os` where `select` reports `ready`: the result, and the walk. -/
def fdselectSelectOs (callback : FdCallback φ σ) (ready : FdReady) (sel : Fdselect φ) (env : σ) :
    Option (Int × FdWalk φ σ) :=
  let sel := { sel with selectBreak := false }
  let w : FdWalk φ σ := ⟨sel, env, [], [], false⟩
  if !fdselectSetsFit sel then none
  else if ready.nfds < 0 then some (-1, w)
  else if ready.nfds = 0 then some (0, w)
  else (fdselectWalk callback (ready.within sel) sel.fdArray.length w).map fun w => (0, w)

end Bklib
