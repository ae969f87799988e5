import Mathlib.Data.List.Basic

/-!
# `Bklib.Lib.Scan`: loops that stop, and calls repeated on growing input

`scan` is a loop of at most `n` rounds that ends early in a stopped state. It splits at any round
(`scan_add`), a stopped state is final (`scan_of_stopped`), and two loop bodies that agree in every
state reached give the same loop (`scan_congr`). `Reaches` leaves the number of rounds open: where
a loop reaches a stopped state, every number of rounds that suffices ends there (`Reaches.scan_eq`),
and a measure says how many suffice (`scan_stops`).

`feed` calls a function on one piece of input after the other until its result is not pending. When
the result of a call is a function of a position alone, and that function is constant once it is not
pending, all ways of feeding that end at one position give one result (`feed_eq`).
-/

set_option autoImplicit false

namespace Bklib.Lib

section Scan

variable {σ : Type*} (step : σ → σ) (stopped : σ → Bool)

/-- At most `n` rounds of `step`, none from a stopped state on. -/
def scan : Nat → σ → σ
  | 0,     s => s
  | n + 1, s => if stopped s then s else scan n (step s)

variable {step stopped}

@[simp] theorem scan_zero (s : σ) : scan step stopped 0 s = s := rfl

theorem scan_succ {s : σ} (n : Nat) (h : stopped s = false) :
    scan step stopped (n + 1) s = scan step stopped n (step s) := by
  rw [scan, h]
  rfl

theorem scan_of_stopped {s : σ} (h : stopped s = true) (n : Nat) : scan step stopped n s = s := by
  cases n with
  | zero => rfl
  | succ n => rw [scan, if_pos h]

/-- The rounds after the first `m` start from where these ended. -/
theorem scan_add (m n : Nat) (s : σ) :
    scan step stopped (m + n) s = scan step stopped n (scan step stopped m s) := by
  induction m generalizing s with
  | zero => rw [Nat.zero_add, scan_zero]
  | succ m ih =>
      cases h : stopped s with
      | true => rw [scan_of_stopped h, scan_of_stopped h, scan_of_stopped h]
      | false => rw [Nat.succ_add, scan_succ _ h, scan_succ _ h, ih]

/-- A loop that has stopped after `m` rounds is where it is after any more. -/
theorem scan_of_le {m n : Nat} {s : σ} (h : stopped (scan step stopped m s) = true) (hmn : m ≤ n) :
    scan step stopped n s = scan step stopped m s := by
  obtain ⟨k, rfl⟩ := Nat.exists_eq_add_of_le hmn
  rw [scan_add, scan_of_stopped h]

/-- What every round keeps holds after the loop. `P` may depend on the number of rounds made. -/
theorem scan_inv {P : Nat → σ → Prop} {n : Nat} {s : σ} (h0 : P 0 s)
    (hstep : ∀ k t, k < n → stopped t = false → P k t → P (k + 1) (step t)) :
    stopped (scan step stopped n s) = false → P n (scan step stopped n s) := by
  induction n with
  | zero => exact fun _ => h0
  | succ n ih =>
      intro hrun
      rw [scan_add] at hrun ⊢
      cases hn : stopped (scan step stopped n s) with
      | true =>
          rw [scan_of_stopped hn, hn] at hrun
          exact absurd hrun (by simp)
      | false =>
          have hP := ih (fun k t hk => hstep k t (by omega)) hn
          rw [scan_succ _ hn]
          exact hstep n _ (by omega) hn hP

/-- What every round keeps holds after the loop, stopped or not. -/
theorem scan_preserves {P : σ → Prop} (hstep : ∀ t, stopped t = false → P t → P (step t)) (n : Nat) :
    ∀ {s}, P s → P (scan step stopped n s) := by
  induction n with
  | zero => exact fun h => h
  | succ n ih =>
      intro s h
      cases hstop : stopped s with
      | true => rwa [scan_of_stopped hstop]
      | false =>
          rw [scan_succ _ hstop]
          exact ih (hstep s hstop h)

/-- A loop whose rounds all bring a measure down has stopped after as many rounds. -/
theorem scan_stops (μ : σ → Nat) (hstep : ∀ s, stopped s = false → μ (step s) < μ s) {n : Nat} :
    ∀ {s}, μ s ≤ n → stopped (scan step stopped n s) = true := by
  induction n with
  | zero =>
      intro s hs
      cases hstop : stopped s with
      | true => exact hstop
      | false => exact absurd (hstep s hstop) (by omega)
  | succ n ih =>
      intro s hs
      cases hstop : stopped s with
      | true => rw [scan_of_stopped hstop, hstop]
      | false =>
          have hdown := hstep s hstop
          rw [scan_succ _ hstop]
          exact ih (by omega)

/-- Two bodies that agree in every state of the loop of the first. -/
theorem scan_congr {step' : σ → σ} {n : Nat} {s : σ}
    (h : ∀ k, k < n → stopped (scan step stopped k s) = false →
      step (scan step stopped k s) = step' (scan step stopped k s)) :
    scan step stopped n s = scan step' stopped n s := by
  induction n with
  | zero => rfl
  | succ n ih =>
      have hn := ih fun k hk => h k (by omega)
      rw [scan_add, @scan_add σ step' stopped n 1 s, ← hn]
      cases hstop : stopped (scan step stopped n s) with
      | true => rw [scan_of_stopped hstop, scan_of_stopped hstop]
      | false =>
          rw [scan_succ _ hstop, scan_succ _ hstop, scan_zero, scan_zero]
          exact h n (by omega) hstop

variable (step stopped) in
/-- The loop comes from `s` to `t`. -/
def Reaches (s t : σ) : Prop := ∃ n, scan step stopped n s = t

theorem Reaches.refl (s : σ) : Reaches step stopped s s := ⟨0, rfl⟩

theorem Reaches.cons {s t : σ} (hs : stopped s = false) (h : Reaches step stopped (step s) t) :
    Reaches step stopped s t := by
  obtain ⟨n, hn⟩ := h
  exact ⟨n + 1, by rw [scan_succ n hs, hn]⟩

theorem Reaches.trans {s t u : σ} (h : Reaches step stopped s t) (h' : Reaches step stopped t u) :
    Reaches step stopped s u := by
  obtain ⟨m, rfl⟩ := h
  obtain ⟨n, rfl⟩ := h'
  exact ⟨m + n, scan_add m n s⟩

/-- A stopped state that the loop reaches is reached from every state on the way. -/
theorem Reaches.tail {s t u : σ} (h : Reaches step stopped s t) (ht : stopped t = true)
    (hu : Reaches step stopped s u) : Reaches step stopped u t := by
  obtain ⟨m, rfl⟩ := h
  obtain ⟨k, rfl⟩ := hu
  refine ⟨m, ?_⟩
  rw [← scan_add, Nat.add_comm, scan_add, scan_of_stopped ht]

/-- A loop ends in one state only, after whatever number of rounds. -/
theorem Reaches.scan_eq {s t : σ} (h : Reaches step stopped s t) (ht : stopped t = true) {n : Nat}
    (hn : stopped (scan step stopped n s) = true) : scan step stopped n s = t := by
  obtain ⟨m, rfl⟩ := h
  cases Nat.le_total m n with
  | inl hmn => exact scan_of_le ht hmn
  | inr hnm => exact (scan_of_le hn hnm).symm

end Scan

section Feed

variable {σ ι β : Type*} (call : σ → ι → β) (next : β → σ) (pending : β → Bool)

/-- Calls on `i` and then on the rest of the list, until one is not pending; `next` is the state
that a call leaves. -/
def feed (s : σ) (i : ι) : List ι → β
  | []      => call s i
  | j :: js => if pending (call s i) then feed (next (call s i)) j js else call s i

variable {call next pending}

/-- All ways of feeding up to `N` have the result of the position `N`. -/
theorem feed_eq (pos : ι → Nat) {R : Nat → β} {N : Nat} {is : List ι} :
    ∀ {s i}, (∀ j ∈ i :: is, pos j ≤ N) → pos ((i :: is).getLast (by simp)) = N →
      (∀ s, ∀ j ∈ i :: is, call s j = R (pos j)) →
      (∀ m, m ≤ N → pending (R m) = false → R N = R m) →
      feed call next pending s i is = R N := by
  induction is with
  | nil =>
      intro s i _ hlast hcall _
      rw [feed, hcall s i (by simp)]
      exact congrArg R hlast
  | cons j js ih =>
      intro s i hle hlast hcall hstable
      rw [feed]
      cases hp : pending (call s i) with
      | true =>
          rw [if_pos rfl]
          exact ih (fun k hk => hle k (by simp [List.mem_cons.mp hk]))
            (by simpa using hlast) (fun s k hk => hcall s k (List.mem_cons_of_mem _ hk)) hstable
      | false =>
          have hi := hcall s i (by simp)
          rw [if_neg (by simp), hi, hstable (pos i) (hle i (by simp)) (by rw [← hi, hp])]

end Feed

end Bklib.Lib
