import Bklib.Model.FdselectSelect

/-!
# `Bklib.Model.FdselectLoop`: `fdselect_select`, again and again

A program that serves its descriptors calls `fdselect_select` in a loop. What `select` reports each
time is arbitrary. The table of the next round is the one that the callbacks have left.
-/

set_option autoImplicit false

namespace Bklib

variable {φ σ : Type}

/-- `fdselect_select` where `select` reports `ready`. -/
def fdselectSelect (callback : FdCallback φ σ) (ready : FdReady) (sel : Fdselect φ) (env : σ) :
    Option (Int × FdWalk φ σ) :=
  fdselectSelectOs callback ready { sel with selectBreak := false } env

/-- The program between two rounds. `acts` are all calls on the selector so far. -/
structure FdLoop (φ σ : Type) where
  sel : Fdselect φ
  env : σ
  acts : List (FdAct φ)

namespace FdLoop

/-- After the calls that set the selector up. -/
def start (acts : List (FdAct φ)) (env : σ) : FdLoop φ σ := ⟨fdActs fdselectInit acts, env, acts⟩

/-- One round, and the callbacks it calls. -/
def round (callback : FdCallback φ σ) (l : FdLoop φ σ) (ready : FdReady) :
    Option (FdLoop φ σ × List (FdCall φ)) :=
  (fdselectSelect callback ready l.sel l.env).map fun r =>
    (⟨r.2.sel, r.2.env, l.acts ++ r.2.acts⟩, r.2.calls)

/-- Some rounds. -/
def rounds (callback : FdCallback φ σ) : FdLoop φ σ → List FdReady → Option (FdLoop φ σ)
  | l, []               => some l
  | l, ready :: readies => (l.round callback ready).bind fun r => rounds callback r.1 readies

end FdLoop

end Bklib
