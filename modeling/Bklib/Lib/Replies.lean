import Mathlib.Data.List.GetD

/-!
# `Bklib.Lib.Replies`: a caller and the routine it calls

A caller is given as the calls it makes for each way of answering them. It is `Causal` when a call
depends on nothing but the answers before it. A routine has a state, and a call changes the state
and gets an answer. `replies` are the answers that the routine gives to the caller: with them each
call gets its answer in the state that the calls before it have left (`replies_eq`).

A caller that is a program is put together from steps that read its state and make a call at a time
(`Asks`), so that it is causal (`Asks.causal`). Where it stops at an answer that is not `go`, its
calls are a `Dialogue` with the routine (`dialogue_of_replies`).
-/

set_option autoImplicit false

namespace Bklib.Lib

variable {α γ σ : Type*}

/-- Where the first `k` answers are the same, so are the first `k + 1` calls. -/
def Causal (calls : (Nat → α) → List γ) : Prop :=
  ∀ f g k, (∀ i, i < k → f i = g i) → (calls f).take (k + 1) = (calls g).take (k + 1)

section Replies

variable (calls : (Nat → α) → List γ) (routine : σ → γ → σ × α) (s : σ) (a : α)

/-- The state behind some calls. -/
def stateAfter (cs : List γ) : σ := cs.foldl (fun s c => (routine s c).1) s

/-- The first `k` answers. A call that is not made is answered with `a`. -/
def firstReplies : Nat → List α
  | 0     => []
  | k + 1 =>
      let answers := firstReplies k
      let cs := calls fun i => answers.getD i a
      answers ++ [match cs[k]? with
        | none   => a
        | some c => (routine (stateAfter routine s (cs.take k)) c).2]

/-- The answer to call number `k`. -/
def replies (k : Nat) : α := (firstReplies calls routine s a (k + 1)).getD k a

variable {calls routine s a}

theorem length_firstReplies (k : Nat) : (firstReplies calls routine s a k).length = k := by
  induction k with
  | zero => rfl
  | succ k ih => rw [firstReplies, List.length_append, ih, List.length_singleton]

/-- The first replies agree with the replies, place by place. -/
theorem firstReplies_getD (k : Nat) :
    ∀ i, i < k → (firstReplies calls routine s a k).getD i a = replies calls routine s a i := by
  induction k with
  | zero => exact fun i hi => absurd hi (Nat.not_lt_zero i)
  | succ k ih =>
      intro i hi
      rcases Nat.lt_succ_iff_lt_or_eq.mp hi with hlt | rfl
      · rw [firstReplies, List.getD_append _ _ _ _ (by rwa [length_firstReplies])]
        exact ih i hlt
      · rfl

/-- Every call gets the answer of the routine. -/
theorem replies_eq (hcausal : Causal calls) {k : Nat} {c : γ}
    (hc : (calls (replies calls routine s a))[k]? = some c) :
    replies calls routine s a k
      = (routine (stateAfter routine s ((calls (replies calls routine s a)).take k)) c).2 := by
  have hsame := hcausal (fun i => (firstReplies calls routine s a k).getD i a)
    (replies calls routine s a) k (firstReplies_getD k)
  have hget : (calls fun i => (firstReplies calls routine s a k).getD i a)[k]? = some c := by
    rw [← List.getElem?_take_of_lt (Nat.lt_succ_self k), hsame,
      List.getElem?_take_of_lt (Nat.lt_succ_self k), hc]
  have htake := congrArg (List.take k) hsame
  rw [List.take_take, List.take_take, Nat.min_eq_left (Nat.le_succ k)] at htake
  have hlen : (firstReplies calls routine s a k).length = k := length_firstReplies k
  rw [replies, firstReplies, List.getD_append_right _ _ _ _ (Nat.le_of_eq hlen), hlen, Nat.sub_self]
  simp only [hget, htake, List.getD_cons_zero]

theorem getD_replicate_self (k i : Nat) : (List.replicate k a).getD i a = a := by
  rw [List.getD_eq_getElem?_getD, List.getElem?_replicate]
  split <;> rfl

/-- Where every call is answered `a` when all are, all of them are. -/
theorem replies_const
    (h : ∀ k c, (calls fun _ => a)[k]? = some c →
      (routine (stateAfter routine s ((calls fun _ => a).take k)) c).2 = a) :
    replies calls routine s a = fun _ => a := by
  have hfirst : ∀ k, firstReplies calls routine s a k = List.replicate k a := by
    intro k
    induction k with
    | zero => rfl
    | succ k ih =>
        have hanswers : (fun i => (List.replicate k a).getD i a) = fun _ => a := by
          funext i
          exact getD_replicate_self k i
        rw [firstReplies, ih, List.replicate_succ']
        simp only [hanswers]
        cases hc : (calls fun _ => a)[k]? with
        | none => rfl
        | some c => exact congrArg (List.replicate k a ++ [·]) (h k c hc)
  funext k
  rw [replies, hfirst, getD_replicate_self]

end Replies

/-! ## Programs that make calls -/

section Asks

variable {S : Type*} (calls : S → List γ)

/-- Two runs that have made the same calls up to number `k`, or are still the same. -/
def Twin (k : Nat) (s t : S) : Prop :=
  s = t ∨ k < (calls s).length ∧ k < (calls t).length ∧
    (calls s).take (k + 1) = (calls t).take (k + 1)

/-- A part of a program: it adds calls at the end, and looks at an answer when its call is made. -/
structure Asks (F : (Nat → α) → S → S) : Prop where
  grows : ∀ f s, calls s <+: calls (F f s)
  twin : ∀ f g k s, (∀ i, i < k → f i = g i) → Twin calls k (F f s) (F g s)

variable {calls}

theorem take_of_prefix {xs ys : List γ} {k : Nat} (h : xs <+: ys) (hk : k < xs.length) :
    k < ys.length ∧ ys.take (k + 1) = xs.take (k + 1) := by
  obtain ⟨zs, rfl⟩ := h
  rw [List.length_append]
  exact ⟨by omega, List.take_append_of_le_length hk⟩

/-- No call is made. -/
theorem Asks.quiet (F : S → S) (h : ∀ s, calls (F s) = calls s) :
    Asks calls fun (_ : Nat → α) s => F s where
  grows _ s := (h s).symm ▸ List.prefix_refl _
  twin _ _ _ _ _ := Or.inl rfl

/-- One call is made, and the answer is stored. -/
theorem Asks.call (put : S → α → S) (c : S → γ) (h : ∀ s a, calls (put s a) = calls s ++ [c s]) :
    Asks calls fun f s => put s (f (calls s).length) where
  grows f s := ⟨[c s], (h s _).symm⟩
  twin f g k s hfg := by
    by_cases hlt : (calls s).length < k
    · exact Or.inl (by rw [hfg _ hlt])
    · refine Or.inr ?_
      rw [h, h, List.length_append, List.length_singleton]
      exact ⟨by omega, by omega, rfl⟩

/-- One part and then another. -/
theorem Asks.comp {F G : (Nat → α) → S → S} (hF : Asks calls F) (hG : Asks calls G) :
    Asks calls fun f s => G f (F f s) where
  grows f s := (hF.grows f s).trans (hG.grows f _)
  twin f g k s hfg := by
    rcases hF.twin f g k s hfg with heq | ⟨hlt, hlt', htake⟩
    · rw [heq]
      exact hG.twin f g k _ hfg
    · -- from here on the runs may differ, and the first calls stay
      obtain ⟨hs, hstake⟩ := take_of_prefix (hG.grows f (F f s)) hlt
      obtain ⟨ht, httake⟩ := take_of_prefix (hG.grows g (F g s)) hlt'
      exact Or.inr ⟨hs, ht, hstake.trans (htake.trans httake.symm)⟩

/-- A part that is chosen by what is in the state. -/
theorem Asks.choose {D : Type*} (d : S → D) (F : D → (Nat → α) → S → S)
    (h : ∀ x, Asks calls (F x)) : Asks calls fun f s => F (d s) f s where
  grows f s := (h (d s)).grows f s
  twin f g k s hfg := (h (d s)).twin f g k s hfg

/-- A branch. -/
theorem Asks.ite (p : S → Prop) [DecidablePred p] {F G : (Nat → α) → S → S} (hF : Asks calls F)
    (hG : Asks calls G) : Asks calls fun f s => if p s then F f s else G f s where
  grows f s := by
    split
    · exact hF.grows f s
    · exact hG.grows f s
  twin f g k s hfg := by
    by_cases hp : p s
    · simp only [if_pos hp]
      exact hF.twin f g k s hfg
    · simp only [if_neg hp]
      exact hG.twin f g k s hfg

/-- The number of calls of a computation that asks depends on the answers causally. -/
theorem Asks.causal {F : (Nat → α) → S → S} (h : Asks calls F) (s : S) :
    Causal fun f => calls (F f s) := by
  intro f g k hfg
  rcases h.twin f g k s hfg with heq | ⟨-, -, htake⟩
  · exact congrArg (fun t => (calls t).take (k + 1)) heq
  · exact htake

end Asks

/-! ## Dialogues -/

section Dialogue

variable (routine : σ → γ → σ × α) (go : α)

/-- Calls that are answered `go`, the last one maybe excepted, with the state behind them and the
last answer. -/
inductive Dialogue : σ → List γ → σ → α → Prop where
  | nil (s : σ) : Dialogue s [] s go
  | last {s t : σ} {c : γ} {a : α} (h : routine s c = (t, a)) : Dialogue s [c] t a
  | cons {s t u : σ} {c : γ} {cs : List γ} {a : α} (h : routine s c = (t, go))
      (hrest : Dialogue t cs u a) : Dialogue s (c :: cs) u a

variable {routine go}

/-- What every call keeps is kept by a dialogue: `P` while the answers are `go`, and `Q` with the
answer that ends it. -/
theorem Dialogue.run {P : σ → Prop} {Q : σ → α → Prop} {C : γ → Prop}
    (hstep : ∀ s c, P s → C c → (routine s c).2 = go ∧ P (routine s c).1 ∨
      (routine s c).2 ≠ go ∧ Q (routine s c).1 (routine s c).2)
    {s t : σ} {cs : List γ} {a : α} (h : Dialogue routine go s cs t a) (hs : P s)
    (hcs : ∀ c ∈ cs, C c) : a = go ∧ P t ∨ a ≠ go ∧ Q t a := by
  induction h with
  | nil s => exact Or.inl ⟨rfl, hs⟩
  | @last s t c a h =>
      have hnext := hstep s c hs (hcs c List.mem_cons_self)
      rwa [h] at hnext
  | @cons s t u c cs a h _ ih =>
      have hnext := hstep s c hs (hcs c List.mem_cons_self)
      rw [h] at hnext
      rcases hnext with ⟨-, hP⟩ | ⟨hne, -⟩
      · exact ih hP fun c' hc' => hcs c' (List.mem_cons_of_mem _ hc')
      · exact absurd rfl hne

/-- Calls whose answers are those of the routine, up to the first that is not `go`. -/
theorem dialogue_of_answers (cs : List γ) {answers : Nat → α} {s : σ}
    (hanswers : ∀ k c, cs[k]? = some c →
      answers k = (routine (stateAfter routine s (cs.take k)) c).2)
    (hgo : ∀ k, k + 1 < cs.length → answers k = go) :
    Dialogue routine go s cs (stateAfter routine s cs)
      (if cs = [] then go else answers (cs.length - 1)) := by
  induction cs generalizing s answers with
  | nil => exact .nil s
  | cons c cs ih =>
      have hfirst : answers 0 = (routine s c).2 := hanswers 0 c rfl
      have hrest := @ih (fun k => answers (k + 1)) (routine s c).1
        (fun k d hd => hanswers (k + 1) d hd) fun k hk => hgo (k + 1) (Nat.succ_lt_succ hk)
      cases cs with
      | nil => exact .last (Prod.ext rfl hfirst.symm)
      | cons d ds =>
          refine .cons (Prod.ext rfl ?_) hrest
          rw [← hfirst]
          exact hgo 0 (Nat.succ_lt_succ (Nat.zero_lt_succ _))

end Dialogue

end Bklib.Lib
