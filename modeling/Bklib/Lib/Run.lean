import Mathlib.Data.List.Basic

/-!
# `Bklib.Lib.Run`: runs of a step function and what they preserve

A run is a fold of `step` over a list of inputs. Two facts are packaged here, once for every
state machine of the development: an invariant that each step keeps holds after the run
(`run_inv`), and the same when a step keeps it only under a side condition on the state before
the step and its input (`run_inv_of_allSteps`).
-/

set_option autoImplicit false

namespace Bklib.Lib

variable {σ ι : Type*}

/-- The state after the inputs `is`, from `s`. -/
def run (step : σ → ι → σ) (s : σ) (is : List ι) : σ := is.foldl step s

@[simp] theorem run_nil (step : σ → ι → σ) (s : σ) : run step s [] = s := rfl

@[simp] theorem run_cons (step : σ → ι → σ) (s : σ) (i : ι) (is : List ι) :
    run step s (i :: is) = run step (step s i) is := rfl

theorem run_append (step : σ → ι → σ) (s : σ) (is js : List ι) :
    run step s (is ++ js) = run step (run step s is) js :=
  List.foldl_append

/-- Every step of the run from `s` meets the condition `P` on the state it starts from and its
input. -/
def AllSteps (P : σ → ι → Prop) (step : σ → ι → σ) : σ → List ι → Prop
  | _, []      => True
  | s, i :: is => P s i ∧ AllSteps P step (step s i) is

@[simp] theorem allSteps_nil (P : σ → ι → Prop) (step : σ → ι → σ) (s : σ) :
    AllSteps P step s [] := trivial

@[simp] theorem allSteps_cons (P : σ → ι → Prop) (step : σ → ι → σ) (s : σ) (i : ι)
    (is : List ι) :
    AllSteps P step s (i :: is) ↔ P s i ∧ AllSteps P step (step s i) is := Iff.rfl

/-- A condition on the steps of a run is one on its two parts, the second from where the first ends.
-/
theorem allSteps_append (P : σ → ι → Prop) (step : σ → ι → σ) (is js : List ι) :
    ∀ s, AllSteps P step s (is ++ js)
      ↔ AllSteps P step s is ∧ AllSteps P step (run step s is) js := by
  induction is with
  | nil => simp
  | cons i is ih => intro s; simp [ih, and_assoc]

/-- A condition that implies another one implies it along a run. -/
theorem AllSteps.mono {P Q : σ → ι → Prop} {step : σ → ι → σ} (h : ∀ s i, P s i → Q s i) :
    ∀ {s is}, AllSteps P step s is → AllSteps Q step s is
  | _, [],     _  => trivial
  | _, _ :: _, hp => ⟨h _ _ hp.1, AllSteps.mono h hp.2⟩

/-- Two conditions along one run. -/
theorem AllSteps.and {P Q : σ → ι → Prop} {step : σ → ι → σ} {is : List ι} :
    ∀ {s}, AllSteps P step s is → AllSteps Q step s is →
      AllSteps (fun s i => P s i ∧ Q s i) step s is := by
  induction is with
  | nil => intros; trivial
  | cons i is ih =>
      intro s hp hq
      exact ⟨⟨hp.1, hq.1⟩, ih hp.2 hq.2⟩

/-- A condition on the input alone holds along every run over such inputs. -/
theorem allSteps_of_forall_mem {P : ι → Prop} {step : σ → ι → σ} {is : List ι} :
    ∀ {s}, (∀ i ∈ is, P i) → AllSteps (fun _ i => P i) step s is := by
  induction is with
  | nil => intros; trivial
  | cons i is ih =>
      intro s h
      exact ⟨h i List.mem_cons_self, ih fun j hj => h j (List.mem_cons_of_mem i hj)⟩

/-- The run rule with a side condition: an invariant that every step meeting `P` keeps holds
after a run whose steps all meet `P`. Induction on the inputs, the state generalized. -/
theorem run_inv_of_allSteps {P : σ → ι → Prop} {step : σ → ι → σ} {I : σ → Prop}
    (hstep : ∀ s i, I s → P s i → I (step s i)) :
    ∀ {is s}, I s → AllSteps P step s is → I (run step s is) := by
  intro is
  induction is with
  | nil => intro s hs _; exact hs
  | cons i is ih => intro s hs hp; exact ih (hstep s i hs hp.1) hp.2

/-- What a step guarantees under the invariant and the side condition holds of every step of such a
run. -/
theorem allSteps_of_inv {P Q : σ → ι → Prop} {step : σ → ι → σ} {I : σ → Prop}
    (hstep : ∀ s i, I s → P s i → Q s i ∧ I (step s i)) :
    ∀ {is s}, I s → AllSteps P step s is → AllSteps Q step s is := by
  intro is
  induction is with
  | nil => intros; trivial
  | cons i is ih =>
      intro s hs hp
      obtain ⟨hq, hnext⟩ := hstep s i hs hp.1
      exact ⟨hq, ih hnext hp.2⟩

/-- Two conditions that agree under an invariant hold along the same runs. -/
theorem allSteps_congr_of_inv {P Q : σ → ι → Prop} {step : σ → ι → σ} {I : σ → Prop}
    (hstep : ∀ s i, I s → I (step s i)) (hiff : ∀ s i, I s → (P s i ↔ Q s i)) :
    ∀ {is s}, I s → (AllSteps P step s is ↔ AllSteps Q step s is) := by
  intro is
  induction is with
  | nil => intros; exact Iff.rfl
  | cons i is ih =>
      intro s hs
      rw [allSteps_cons, allSteps_cons, hiff s i hs, ih (hstep s i hs)]

/-- The run rule: an invariant that every step keeps holds after every run. -/
theorem run_inv {step : σ → ι → σ} {I : σ → Prop}
    (hstep : ∀ s i, I s → I (step s i)) {s : σ} (hs : I s) (is : List ι) :
    I (run step s is) :=
  run_inv_of_allSteps (P := fun _ _ => True) (fun s i h _ => hstep s i h) hs
    (allSteps_of_forall_mem fun _ _ => trivial)

/-- The rule for what is lost for good: when under the invariant `I` a step keeps `H` if and only if it
meets `P`, and never brings it back, `H` holds after exactly the runs whose steps all meet `P`. -/
theorem holds_run_iff_allSteps {P : σ → ι → Prop} {step : σ → ι → σ} {I H : σ → Prop}
    (hstep : ∀ s i, I s → I (step s i)) (hkeeps : ∀ s i, I s → H s → (H (step s i) ↔ P s i))
    (hlost : ∀ s i, I s → ¬H s → ¬H (step s i)) :
    ∀ {is s}, I s → H s → (H (run step s is) ↔ AllSteps P step s is) := by
  have hgone : ∀ {is s}, I s → ¬H s → ¬H (run step s is) := by
    intro is
    induction is with
    | nil => intro s _ hs; exact hs
    | cons i is ih => intro s hs hnot; exact ih (hstep s i hs) (hlost s i hs hnot)
  intro is
  induction is with
  | nil => intro s _ hh; exact iff_of_true hh trivial
  | cons i is ih =>
      intro s hs hh
      rw [run_cons, allSteps_cons, ← hkeeps s i hs hh]
      by_cases hnext : H (step s i)
      · rw [ih (hstep s i hs) hnext, and_iff_right hnext]
      · exact iff_of_false (hgone (hstep s i hs) hnext) fun hall => hnext hall.1

/-- The simulation rule with a side condition: two machines over the same inputs stay related when
each step meeting `P`, on the state of the second one, keeps them related. -/
theorem run_sim_of_allSteps {τ : Type*} {P : τ → ι → Prop} {step : σ → ι → σ}
    {step' : τ → ι → τ} {R : σ → τ → Prop}
    (hstep : ∀ s t i, R s t → P t i → R (step s i) (step' t i)) :
    ∀ {is s t}, R s t → AllSteps P step' t is → R (run step s is) (run step' t is) := by
  intro is
  induction is with
  | nil => intro s t h _; exact h
  | cons i is ih => intro s t h hp; exact ih (hstep s t i h hp.1) hp.2

/-- The simulation rule: two machines over the same inputs stay related when each step meeting
`P` keeps them related. -/
theorem run_sim {τ : Type*} {P : ι → Prop} {step : σ → ι → σ} {step' : τ → ι → τ}
    {R : σ → τ → Prop} (hstep : ∀ s t i, R s t → P i → R (step s i) (step' t i)) {is : List ι}
    {s : σ} {t : τ} (h : R s t) (hp : ∀ i ∈ is, P i) : R (run step s is) (run step' t is) :=
  run_sim_of_allSteps (P := fun _ i => P i) hstep h (allSteps_of_forall_mem hp)

end Bklib.Lib
