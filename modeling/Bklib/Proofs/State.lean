import Mathlib.Algebra.Ring.Int.Defs
import Mathlib.Data.Int.Order.Basic
import Mathlib.Data.List.Chain
import Mathlib.Order.Lattice
import Bklib.Model.State

/-!
# `Bklib.Proofs.State`: tries are counted and spaced

`timeoutChain` lists the entries that the timeouts of a table lead through. `statePolls_exact` says of
polls at any times that the entries in which they return `STATE_POLL_RETRY` are those of the chain, in
order and each as often as its `retry_max` says, and that a poll returns `STATE_POLL_RETRY` if and
only if it is not before the deadline that the last try has set.

The proof follows the polls from any state that `state_set` or a poll can leave. What is still to come
of the schedule there is the rest of the current entry's tries and the chain behind it.
-/

set_option autoImplicit false

namespace Bklib

variable {T : Type*}

/-! ## Schedules -/

section Schedule

variable (table : List (StateTable T))

/-- The first `k` entries that the timeouts lead through, from `e` on. -/
def timeoutChain : Nat → StateTable T → List (StateTable T)
  | 0,     _ => []
  | k + 1, e => e :: ((stateFind table e.timeoutNext).map (timeoutChain k)).getD []

/-- Each entry as often as there are tries in it. -/
def triesOf (entries : List (StateTable T)) : List (StateTable T) :=
  entries.flatMap fun e => List.replicate e.retryMax.toNat e

/-- In every listed state there are tries, and another listed state follows. -/
def TableOk : Prop :=
  ∀ e ∈ stateListed table, 0 < e.retryMax ∧ ∃ e' ∈ stateListed table, e'.state = e.timeoutNext

instance : Decidable (TableOk table) :=
  inferInstanceAs (Decidable (∀ e ∈ stateListed table, _))

end Schedule

/-! ## Polls that keep to a schedule -/

section Polls

/-- The polls that were tries. -/
def retries (polls : List (StatePolled T)) : List (StatePolled T) :=
  polls.filter fun p => p.ret = .retry

section

variable {p : StatePolled T} {polls : List (StatePolled T)}

theorem retries_cons_noop (hret : p.ret = .noop) : retries (p :: polls) = retries polls := by
  rw [retries, List.filter_cons_of_neg (by simp [hret])]
  rfl

theorem retries_cons_retry (hret : p.ret = .retry) :
    retries (p :: polls) = p :: retries polls := by
  rw [retries, List.filter_cons_of_pos (by simp [hret])]
  rfl

end

variable [Add T] [LinearOrder T]

/-- The deadline behind polls, from a deadline `d` on: the last try sets it. -/
def deadline (d : T) (polls : List (StatePolled T)) : T :=
  polls.foldl (fun d p => if p.ret = .retry then p.now + p.entry.retryInterval else d) d

/-- Polls from a deadline `d` and an entry `e` on: a poll is a try from the deadline on and
`STATE_POLL_NOOP` before it, and only a try can change the state. -/
structure PolledOnTime (d : T) (e : StateTable T) (polls : List (StatePolled T)) : Prop where
  ret : ∀ before p after, polls = before ++ p :: after →
    p.ret = if p.now < deadline d before then .noop else .retry
  stays : ∀ before p after, polls = before ++ p :: after → p.ret = .noop →
    p.entry = (before.getLast?.map (·.entry)).getD e

/-- The tries keep to the table, from `start` on: there are `retry_max` of them in each entry before
the next one is that of `timeout_next`, and two of them are apart by the interval of the first. -/
structure RetriesExact [Zero T] (table : List (StateTable T)) (start : StateTable T)
    (polls : List (StatePolled T)) : Prop where
  counted : ∃ k, (retries polls).map (·.entry) <+: triesOf (timeoutChain table k start)
  onTime  : PolledOnTime 0 start polls
  spaced  : (retries polls).IsChain fun p q => p.now + p.entry.retryInterval ≤ q.now

section Lemmas

variable {d : T} {e : StateTable T} {p : StatePolled T} {polls : List (StatePolled T)}

theorem PolledOnTime.nil : PolledOnTime d e [] where
  ret _ _ _ h   := absurd h (by simp)
  stays _ _ _ h := absurd h (by simp)

/-- A poll in front of others. -/
theorem PolledOnTime.cons (hret : p.ret = if p.now < d then .noop else .retry)
    (hstays : p.ret = .noop → p.entry = e) (h : PolledOnTime (deadline d [p]) p.entry polls) :
    PolledOnTime d e (p :: polls) where
  ret before q after hsplit := by
    cases before with
    | nil =>
        -- the first poll itself
        obtain ⟨rfl, -⟩ := List.cons.inj hsplit
        exact hret
    | cons b before =>
        obtain ⟨hb, hrest⟩ := List.cons.inj hsplit
        subst hb
        exact h.ret before q after hrest
  stays before q after hsplit hnoop := by
    cases before with
    | nil =>
        -- `stays` says nothing about the state before the first poll but that it is `e`
        obtain ⟨rfl, -⟩ := List.cons.inj hsplit
        exact hstays hnoop
    | cons b before =>
        obtain ⟨hb, hrest⟩ := List.cons.inj hsplit
        subst hb
        rw [h.stays before q after hrest hnoop]
        cases before with
        | nil      => rfl
        | cons b before =>
            -- behind two polls, the last one is behind the second
            rw [List.getLast?_cons_cons]
            obtain ⟨r, hr⟩ := Option.isSome_iff_exists.mp
              (List.getLast?_isSome.mpr (List.cons_ne_nil b before))
            rw [hr]
            rfl

end Lemmas

end Polls

/-! ## One poll -/

section Step

variable {table : List (StateTable T)} {e : StateTable T}

/-- The entry behind another one. -/
theorem stateFind_next (hok : TableOk table) (he : e ∈ stateListed table) :
    ∃ e', stateFind table e.timeoutNext = some e' ∧ e' ∈ stateListed table := by
  obtain ⟨-, e₁, hmem, hstate⟩ := hok e he
  have hsome : (stateFind table e.timeoutNext).isSome := by
    rw [stateFind, List.find?_isSome]
    exact ⟨e₁, hmem, by simp [hstate]⟩
  obtain ⟨e', he'⟩ := Option.isSome_iff_exists.mp hsome
  exact ⟨e', he', List.mem_of_find?_eq_some he'⟩

variable [Add T] [Zero T] [LinearOrder T] {st : StateS T} {now : T}

theorem statePoll_noop (h : now < st.retryTimeout) : statePoll st now true = some (st, .noop) := by
  rw [statePoll, if_pos h]

/-- A try in the current entry. -/
theorem statePoll_retry (h : ¬now < st.retryTimeout) (hcur : st.current = some e)
    (hcount : 0 < st.retryCount) :
    statePoll st now true = some ({ st with
      retryCount := st.retryCount - 1, retryTimeout := now + e.retryInterval }, .retry) := by
  have hleft : ¬st.retryCount ≤ 0 := Int.not_le.mpr hcount
  simp [statePoll, h, hleft, hcur]

/-- The first try in the next entry. -/
theorem statePoll_next {e' : StateTable T} (h : ¬now < st.retryTimeout) (hcur : st.current = some e)
    (hcount : st.retryCount ≤ 0) (hnext : stateFind st.table e.timeoutNext = some e') :
    statePoll st now true = some ({ st with
      current := some e', retryCount := e'.retryMax - 1, retryTimeout := now + e'.retryInterval },
      .retry) := by
  simp [statePoll, stateTimeoutNext, stateSet, h, hcount, hcur, hnext]

end Step

/-! ## Runs -/

section Runs

section

variable [Add T] [LinearOrder T]

/-- What holds of polls from a deadline `d` on, with the entries of `schedule` still to be tried. -/
structure PolledFrom (d : T) (e : StateTable T) (schedule : Nat → List (StateTable T))
    (polls : List (StatePolled T)) : Prop where
  counted : ∃ k, (retries polls).map (·.entry) <+: schedule k
  onTime  : PolledOnTime d e polls
  spaced  : (retries polls).IsChain fun p q => p.now + p.entry.retryInterval ≤ q.now
  first   : ∀ q, (retries polls).head? = some q → d ≤ q.now

namespace PolledFrom

variable {d : T} {e : StateTable T} {schedule : Nat → List (StateTable T)} {p : StatePolled T}
  {polls : List (StatePolled T)}

theorem nil : PolledFrom d e schedule [] where
  counted   := ⟨0, List.nil_prefix⟩
  onTime    := .nil
  spaced    := .nil
  first _ h := absurd h (by simp [retries])

/-- A poll before its time that does nothing is one more of the same schedule. -/
theorem cons_noop (hret : p.ret = .noop) (hnow : p.now < d) (he : p.entry = e)
    (h : PolledFrom d e schedule polls) : PolledFrom d e schedule (p :: polls) where
  counted := by
    rw [retries_cons_noop hret]
    exact h.counted
  onTime := by
    refine .cons (by rw [hret, if_pos hnow]) (fun _ => he) ?_
    have hsame : deadline d [p] = d := if_neg (by simp [hret])
    rw [hsame, he]
    exact h.onTime
  spaced := by
    rw [retries_cons_noop hret]
    exact h.spaced
  first q hq := by
    rw [retries_cons_noop hret] at hq
    exact h.first q hq

/-- A try takes the first entry off the schedule and sets the deadline. -/
theorem cons_retry {schedule' : Nat → List (StateTable T)} (hret : p.ret = .retry)
    (hnow : ¬p.now < d) (hschedule : ∀ k, ∃ k', schedule' k' = p.entry :: schedule k)
    (h : PolledFrom (p.now + p.entry.retryInterval) p.entry schedule polls) :
    PolledFrom d e schedule' (p :: polls) where
  counted := by
    obtain ⟨k, hprefix⟩ := h.counted
    obtain ⟨k', hk'⟩ := hschedule k
    refine ⟨k', ?_⟩
    rw [retries_cons_retry hret, hk', List.map_cons, List.cons_prefix_cons]
    exact ⟨rfl, hprefix⟩
  onTime := by
    refine .cons (by rw [hret, if_neg hnow]) (fun hnoop => absurd (hret.symm.trans hnoop) (by simp)) ?_
    have hnext : deadline d [p] = p.now + p.entry.retryInterval := if_pos hret
    rw [hnext]
    exact h.onTime
  spaced := by
    rw [retries_cons_retry hret]
    -- the next try is not before the deadline, which is an interval behind this one
    exact List.isChain_cons.mpr ⟨h.first, h.spaced⟩
  first q hq := by
    rw [retries_cons_retry hret] at hq
    obtain rfl := Option.some.inj hq
    exact not_lt.mp hnow

end PolledFrom

end

section

variable {table : List (StateTable T)}

/-- What is left of a schedule: `count` tries in `e`, and the chain behind it. -/
def triesLeft (table : List (StateTable T)) (e : StateTable T) (count : Int) (k : Nat) :
    List (StateTable T) :=
  List.replicate count.toNat e ++
    triesOf (((stateFind table e.timeoutNext).map (timeoutChain table k)).getD [])

theorem triesLeft_pos (e : StateTable T) {count : Int} (hcount : 0 < count) (k : Nat) :
    triesLeft table e count k = e :: triesLeft table e (count - 1) k := by
  have hnat : count.toNat = (count - 1).toNat + 1 := by omega
  rw [triesLeft, triesLeft, hnat, List.replicate_succ, List.cons_append]

/-- All the tries of an entry, and those of the chain behind it. -/
theorem triesOf_timeoutChain (e : StateTable T) (k : Nat) :
    triesOf (timeoutChain table (k + 1) e) = triesLeft table e e.retryMax k := by
  rw [timeoutChain, triesOf, List.flatMap_cons]
  rfl

/-- With no tries left the tries of the next state count. -/
theorem triesLeft_zero {e e' : StateTable T} (hnext : stateFind table e.timeoutNext = some e')
    {count : Int} (hcount : count ≤ 0) (k : Nat) :
    triesLeft table e count (k + 1) = triesLeft table e' e'.retryMax k := by
  have hnat : count.toNat = 0 := by omega
  rw [triesLeft, hnat, List.replicate_zero, List.nil_append, hnext, Option.map_some, Option.getD_some]
  exact triesOf_timeoutChain e' k

end

/-- Polls at the times of a list, from any state with a current entry. -/
theorem statePolls_from [Add T] [Zero T] [LinearOrder T] {table : List (StateTable T)}
    (hok : TableOk table) (times : List T) :
    ∀ (st : StateS T) {e : StateTable T}, st.table = table → st.current = some e →
      e ∈ stateListed table →
      ∃ polls, statePolls st times = some polls ∧ polls.map (·.now) = times ∧
        PolledFrom st.retryTimeout e (triesLeft table e st.retryCount) polls := by
  induction times with
  | nil => exact fun _ _ _ _ _ => ⟨[], rfl, rfl, .nil⟩
  | cons now times ih =>
      intro st e htable hcur he
      by_cases hnow : now < st.retryTimeout
      · -- before the deadline, the poll leaves everything as it is
        obtain ⟨polls, hpolls, hnows, hfrom⟩ := ih st htable hcur he
        refine ⟨⟨now, .noop, e⟩ :: polls, ?_, ?_, hfrom.cons_noop rfl hnow rfl⟩
        · simp [statePolls, statePoll_noop hnow, hcur, hpolls]
        · rw [List.map_cons, hnows]
      · -- a try, in the current entry or in the one behind it
        obtain ⟨st', e', htry, htable', hcur', he', htimeout, hleft⟩ : ∃ st' e',
            statePoll st now true = some (st', .retry) ∧ st'.table = table ∧
              st'.current = some e' ∧ e' ∈ stateListed table ∧
              st'.retryTimeout = now + e'.retryInterval ∧
              ∀ k, ∃ k', triesLeft table e st.retryCount k'
                = e' :: triesLeft table e' st'.retryCount k := by
          -- with no try left, `state_timeout_next` sets the next state and the poll goes on in it
          by_cases hcount : 0 < st.retryCount
          · exact ⟨_, e, statePoll_retry hnow hcur hcount, htable, hcur, he, rfl,
              fun k => ⟨k, triesLeft_pos e hcount k⟩⟩
          · obtain ⟨e', hnext, he'⟩ := stateFind_next hok he
            refine ⟨_, e', statePoll_next hnow hcur (Int.not_lt.mp hcount) (htable ▸ hnext), htable,
              rfl, he', rfl, fun k => ⟨k + 1, ?_⟩⟩
            rw [triesLeft_zero hnext (Int.not_lt.mp hcount), triesLeft_pos e' (hok e' he').1]
        obtain ⟨polls, hpolls, hnows, hfrom⟩ := ih st' htable' hcur' he'
        rw [htimeout] at hfrom
        refine ⟨⟨now, .retry, e'⟩ :: polls, ?_, ?_, hfrom.cons_retry rfl hnow hleft⟩
        · simp [statePolls, htry, hcur', hpolls]
        · rw [List.map_cons, hnows]

end Runs

/-- Tries are counted and spaced exactly, from `state_set` to a listed state on, whatever the times of
the polls are. -/
theorem statePolls_exact [Add T] [Zero T] [LinearOrder T] (st : StateS T) {newState : Int}
    (hok : TableOk st.table) (hlisted : ∃ e ∈ stateListed st.table, e.state = newState) (now : T)
    (times : List T) :
    ∃ start polls, stateFind st.table newState = some start ∧
      statePolls (stateSet st newState now).1 times = some polls ∧ polls.map (·.now) = times ∧
      RetriesExact st.table start polls := by
  obtain ⟨start, hfind⟩ : ∃ start, stateFind st.table newState = some start := by
    obtain ⟨e, hmem, hstate⟩ := hlisted
    rw [← Option.isSome_iff_exists, stateFind, List.find?_isSome]
    exact ⟨e, hmem, by simp [hstate]⟩
  -- `state_set` leaves the deadline at 0 and all the tries of the entry
  have hset : (stateSet st newState now).1 =
      { st with current := some start, retryTimeout := 0, retryCount := start.retryMax } := by
    rw [stateSet, hfind]
  obtain ⟨polls, hpolls, hnows, hfrom⟩ := statePolls_from hok times
    (stateSet st newState now).1 (by rw [hset]) (by rw [hset])
    (List.mem_of_find?_eq_some hfind)
  rw [hset] at hfrom
  obtain ⟨k, hprefix⟩ := hfrom.counted
  refine ⟨start, polls, hfind, hpolls, hnows, ⟨k + 1, ?_⟩, hfrom.onTime, hfrom.spaced⟩
  rw [triesOf_timeoutChain]
  exact hprefix

/-- Two states that lead to each other, with a poll before the deadline. -/
theorem statePolls_exact_two :
    ∃ start polls, stateFind [⟨0, (2 : Int), 2, 1⟩, ⟨1, 1, 1, 0⟩, ⟨0, 0, 0, 0⟩] 0 = some start ∧
      statePolls (stateSet (stateInit [⟨0, (2 : Int), 2, 1⟩, ⟨1, 1, 1, 0⟩, ⟨0, 0, 0, 0⟩]) 0 0).1
        [0, 1, 2, 4, 5] = some polls ∧
      polls.map (·.now) = [0, 1, 2, 4, 5] ∧
      RetriesExact [⟨0, (2 : Int), 2, 1⟩, ⟨1, 1, 1, 0⟩, ⟨0, 0, 0, 0⟩] start polls :=
  statePolls_exact (stateInit [⟨0, (2 : Int), 2, 1⟩, ⟨1, 1, 1, 0⟩, ⟨0, 0, 0, 0⟩])
    (by decide) (by decide) 0 [0, 1, 2, 4, 5]

end Bklib
