import Bklib.Model.FdselectLoop
import Bklib.Proofs.FdselectSelect

/-!
# `Bklib.Proofs.FdselectLoop`: a program around `fdselect_select` serves its descriptors

No round calls anything but what is registered when it begins, as the walk stops behind the first
callback that makes a call on the selector. If there is no such callback, the round has served all
that `select` reported, and if something registered was reported, it has served something. The
callbacks may set, unset and clear what they like, so this holds in every round of every run
(`fdselectLoop_serves`). Only descriptors with a bit in an `fd_set` are ever set.
-/

set_option autoImplicit false

namespace Bklib

variable {φ σ : Type}

/-- `select` reports the event of the descriptor. -/
def FdReady.Reports (ready : FdReady) (fd : Int) (event : FdEvents) : Prop :=
  0 < ready.nfds ∧
    (event = fdselectREAD ∧ ready.rfds fd = true ∨ event = fdselectWRITE ∧ ready.wfds fd = true)

/-- What a round calls where `m` is registered. -/
structure RoundServes (m : RegMap φ) (ready : FdReady) (calls : List (FdCall φ)) (quiet : Prop) :
    Prop where
  once       : (calls.map FdCall.key).Nodup
  registered : ∀ c ∈ calls, m c.fd c.event = some c.func ∧ ready.Reports c.fd c.event
  all        : quiet → ∀ fd event func, ready.Reports fd event → m fd event = some func →
    ⟨fd, event, func, []⟩ ∈ calls
  progress   : ∀ fd event func, ready.Reports fd event → m fd event = some func → calls ≠ []

/-- Where `select` reports nothing, nothing is called. -/
theorem roundServes_nil (m : RegMap φ) {ready : FdReady} (hnone : ¬0 < ready.nfds) (quiet : Prop) :
    RoundServes m ready [] quiet :=
  ⟨List.nodup_nil, fun _ hc => absurd hc List.not_mem_nil,
    fun _ _ _ _ hreports => absurd hreports.1 hnone, fun _ _ _ hreports => absurd hreports.1 hnone⟩

/-- What is registered and reported is one of the calls of its entry. -/
theorem call_of_registered {sel : Fdselect φ} (hwf : sel.Wf) {ready : FdReady} {fd : Int}
    {event : FdEvents} {func : φ} (hreports : ready.Reports fd event)
    (hfunc : fdselectFunc sel fd event = some func) :
    ⟨fd, event, func, []⟩ ∈ sel.fdArray.reverse.flatMap (entryCalls (ready.within sel)) := by
  rw [hwf.fdselectFunc_eq] at hfunc
  obtain ⟨f, hentry, hown⟩ := Option.bind_eq_some_iff.mp hfunc
  obtain ⟨hf, rfl⟩ := hwf.entry_eq_some.mp hentry
  unfold FdselectFd.funcOf at hown
  split at hown
  · rename_i hevent
    have hwanted : fdselectWanted sel event f.fd = true := by
      refine List.any_eq_true.mpr ⟨f, hf, ?_⟩
      rw [beq_self_eq_true, Bool.true_and, bne_iff_ne]
      exact hevent
    refine List.mem_flatMap.mpr ⟨f, List.mem_reverse.mpr hf, List.mem_append.mpr ?_⟩
    rcases hreports.2 with ⟨rfl, hready⟩ | ⟨rfl, hready⟩
    · exact Or.inl (mem_callOf.mpr
        ⟨Bool.and_eq_true_iff.mpr ⟨hready, hwanted⟩, rfl, rfl, hown, rfl⟩)
    · exact Or.inr (mem_callOf.mpr
        ⟨Bool.and_eq_true_iff.mpr ⟨hready, hwanted⟩, rfl, rfl, hown, rfl⟩)
  · cases hown

/-- What a walk over the table calls. -/
theorem FdWalk.Served.serves {callback : FdCallback φ σ} {sel : Fdselect φ} {m : RegMap φ}
    (hm : Faithful sel m) {ready : FdReady} (hnfds : 0 < ready.nfds) {w w' : FdWalk φ σ}
    {calls : List (FdCall φ)} (hw : w.calls = [])
    (h : FdWalk.Served callback sel (sel.fdArray.reverse.flatMap (entryCalls (ready.within sel)))
      w w' calls) : RoundServes m ready w'.calls (w'.acts = []) := by
  have hmade := h.made
  rw [hw, List.nil_append] at hmade
  rw [hmade]
  have hfunc : ∀ {fd event}, ready.Reports fd event → fdselectFunc sel fd event = m fd event := by
    intro fd event hreports
    refine hm.func fd event ?_
    rcases hreports.2 with ⟨hread, -⟩ | ⟨hwrite, -⟩
    · exact Or.inl hread
    · exact Or.inr (Or.inl hwrite)
  have hcall : ∀ fd event func, ready.Reports fd event → m fd event = some func →
      ⟨fd, event, func, []⟩ ∈ sel.fdArray.reverse.flatMap (entryCalls (ready.within sel)) :=
    fun fd event func hreports hreg =>
      call_of_registered hm.wf hreports ((hfunc hreports).trans hreg)
  refine ⟨(h.first.sublist.map FdCall.key).nodup (nodup_key_calls hm.wf _), fun c hc => ?_,
    fun hquiet fd event func hreports hreg => ?_, fun fd event func hreports hreg hnil => ?_⟩
  · obtain ⟨f, hf, hcf⟩ := List.mem_flatMap.mp (h.first.subset hc)
    obtain ⟨-, -, hreg, hevent⟩ := mem_entryCalls hm.wf (List.mem_reverse.mp hf) hcf
    have hreports : ready.Reports c.fd c.event := ⟨hnfds, hevent⟩
    exact ⟨(hfunc hreports).symm.trans hreg, hreports⟩
  · rw [h.whole hquiet]
    exact hcall fd event func hreports hreg
  · -- A round that calls nothing has come to its end.
    have hmem := hcall fd event func hreports hreg
    rw [← h.whole (h.quiet hnil), hnil] at hmem
    exact absurd hmem List.not_mem_nil

/-- `select_break` is not part of the map. -/
theorem Faithful.unbroken {sel : Fdselect φ} {m : RegMap φ} (h : Faithful sel m) :
    Faithful { sel with selectBreak := false } m :=
  ⟨⟨h.wf.nodup, h.wf.events, h.wf.count⟩, h.served, h.func⟩

/-- One call of `fdselect_select`. -/
theorem fdselectSelect_serves (callback : FdCallback φ σ) (ready : FdReady) {sel : Fdselect φ}
    {m : RegMap φ} (h : Faithful sel m) (haddress : ∀ fd, m fd fdselectADDRESS = none)
    (hin : m.InSets) (env : σ) :
    ∃ r w, fdselectSelect callback ready sel env = some (r, w) ∧
      w.sel = fdActs { sel with selectBreak := false } w.acts ∧
      (∀ act ∈ w.acts, ∃ env sel func fd event, act ∈ (callback env sel func fd event).2) ∧
      RoundServes m ready w.calls (w.acts = []) := by
  have hnone : ∀ act ∈ ([] : List (FdAct φ)),
      ∃ env sel func fd event, act ∈ (callback env sel func fd event).2 :=
    fun _ hact => absurd hact List.not_mem_nil
  have hm := h.unbroken
  have hsets := (hm.inSets_iff haddress).mp hin
  unfold fdselectSelect fdselectSelectOs
  dsimp only
  rw [(hm.setsFit_iff haddress).mpr hin, Bool.not_true, if_neg Bool.false_ne_true]
  split
  · exact ⟨_, _, rfl, rfl, hnone, roundServes_nil m (by omega) _⟩
  · split
    · exact ⟨_, _, rfl, rfl, hnone, roundServes_nil m (by omega) _⟩
    · obtain ⟨w, calls, hrun, hserved⟩ := fdselectWalk_calls callback
        (ready.within { sel with selectBreak := false }) hm.wf hsets rfl
        (w := ⟨{ sel with selectBreak := false }, env, [], [], false⟩) ⟨rfl, rfl, rfl⟩
      exact ⟨0, w, by rw [hrun]; rfl, hserved.table, hserved.own, hserved.serves hm (by omega) rfl⟩

/-! ## Rounds -/

/-- The callbacks are about reading and writing. -/
def FdCallback.Rw (callback : FdCallback φ σ) : Prop :=
  ∀ env sel func fd event, ∀ act ∈ (callback env sel func fd event).2, act.Rw

/-- A call that sets a callback for a descriptor only if it has a bit in an `fd_set`. -/
def FdAct.InSet : FdAct φ → Prop
  | .set fd _ (some _) => FdInSet fd
  | _                  => True

/-- The callbacks make no other calls. -/
def FdCallback.InSet (callback : FdCallback φ σ) : Prop :=
  ∀ env sel func fd event, ∀ act ∈ (callback env sel func fd event).2, act.InSet

/-- Such a call keeps the descriptors of the map in the sets. -/
theorem FdAct.InSet.register {m : RegMap φ} (h : m.InSets) {act : FdAct φ} (hact : act.InSet) :
    (act.register m).InSets := by
  intro fd' event func' hrw hfunc
  cases act with
  | set fd events func =>
      simp only [FdAct.register, RegMap.set] at hfunc
      split at hfunc
      · rename_i hsame
        rw [hfunc] at hact
        rw [hsame.1]
        exact hact
      · exact h fd' event func' hrw hfunc
  | unset fd events =>
      simp only [FdAct.register, RegMap.set] at hfunc
      split at hfunc
      · exact absurd hfunc (by simp)
      · exact h fd' event func' hrw hfunc
  | clear => exact absurd hfunc (by simp [FdAct.register])
  | brk => exact h fd' event func' hrw hfunc

/-- And so do several, one after the other. -/
theorem inSets_foldl {m : RegMap φ} (h : m.InSets) {acts : List (FdAct φ)}
    (hacts : ∀ act ∈ acts, act.InSet) : (acts.foldl FdAct.register m).InSets := by
  induction acts generalizing m with
  | nil => exact h
  | cons act acts ih =>
      exact ih ((hacts act List.mem_cons_self).register h)
        fun a ha => hacts a (List.mem_cons_of_mem act ha)

/-- Between two rounds the table is the map of all calls on the selector. -/
structure FdLoop.Ok (l : FdLoop φ σ) : Prop where
  faithful : Faithful l.sel (regMap l.acts)
  address  : ∀ fd, regMap l.acts fd fdselectADDRESS = none
  sets     : (regMap l.acts).InSets

/-- The start: nothing was set before the calls that set the selector up. -/
theorem FdLoop.ok_start {acts : List (FdAct φ)} (hacts : ∀ act ∈ acts, act.Rw)
    (hsets : ∀ act ∈ acts, act.InSet) (env : σ) : (FdLoop.start acts env).Ok := by
  obtain ⟨hfaithful, haddress⟩ := register_rw faithful_fdselectInit (fun _ => rfl) hacts
  exact ⟨hfaithful, haddress, inSets_foldl (fun _ _ _ _ hfunc => absurd hfunc (by simp)) hsets⟩

/-- The step lemma. -/
theorem FdLoop.Ok.round {callback : FdCallback φ σ} (hcallback : callback.Rw)
    (hset : callback.InSet) {l : FdLoop φ σ} (h : l.Ok) (ready : FdReady) :
    ∃ l' calls, l.round callback ready = some (l', calls) ∧ l'.Ok ∧
      RoundServes (regMap l.acts) ready calls (l'.acts = l.acts) := by
  obtain ⟨r, w, hrun, htable, hown, hserves⟩ :=
    fdselectSelect_serves callback ready h.faithful h.address h.sets l.env
  have hacts : ∀ act ∈ w.acts, act.Rw := by
    intro act hact
    obtain ⟨env, sel, func, fd, event, hmem⟩ := hown act hact
    exact hcallback env sel func fd event act hmem
  have hsets : ∀ act ∈ w.acts, act.InSet := by
    intro act hact
    obtain ⟨env, sel, func, fd, event, hmem⟩ := hown act hact
    exact hset env sel func fd event act hmem
  have hmap : regMap (l.acts ++ w.acts) = w.acts.foldl FdAct.register (regMap l.acts) :=
    List.foldl_append
  have hquiet : l.acts ++ w.acts = l.acts ↔ w.acts = [] := by simp
  obtain ⟨hfaithful, haddress⟩ := register_rw h.faithful.unbroken h.address hacts
  refine ⟨⟨w.sel, w.env, l.acts ++ w.acts⟩, w.calls, by rw [FdLoop.round, hrun]; rfl,
    ⟨?_, ?_, ?_⟩, ?_⟩
  · dsimp only
    rw [hmap, htable]
    exact hfaithful
  · dsimp only
    rw [hmap]
    exact haddress
  · dsimp only
    rw [hmap]
    exact inSets_foldl h.sets hsets
  · dsimp only
    rw [hquiet]
    exact hserves

/-- The run lemma: there are always further rounds. -/
theorem FdLoop.Ok.rounds {callback : FdCallback φ σ} (hcallback : callback.Rw)
    (hset : callback.InSet) (readies : List FdReady) {l : FdLoop φ σ} (h : l.Ok) :
    ∃ l', l.rounds callback readies = some l' ∧ l'.Ok := by
  induction readies generalizing l with
  | nil => exact ⟨l, rfl, h⟩
  | cons ready readies ih =>
      obtain ⟨l₁, calls, hround, hok, -⟩ := h.round hcallback hset ready
      obtain ⟨l', hrounds, hok'⟩ := ih hok
      refine ⟨l', ?_, hok'⟩
      rw [FdLoop.rounds, hround, Option.bind_some]
      exact hrounds

/-- In every run of a program around `fdselect_select` that sets callbacks only for descriptors with a
bit in an `fd_set`, whatever `select` reports and the callbacks set, unset and clear: a round calls only what is registered when it begins and was reported, and
each at most once. It calls all of that unless one of its callbacks makes a call on the selector, and
it calls something if there is something. -/
theorem fdselectLoop_serves (callback : FdCallback φ σ) (hcallback : callback.Rw)
    (hset : callback.InSet) {acts : List (FdAct φ)} (hacts : ∀ act ∈ acts, act.Rw)
    (hsets : ∀ act ∈ acts, act.InSet) (env : σ) (readies : List FdReady) (ready : FdReady) :
    ∃ l l' calls, (FdLoop.start acts env).rounds callback readies = some l ∧
      l.round callback ready = some (l', calls) ∧
      RoundServes (regMap l.acts) ready calls (l'.acts = l.acts) := by
  obtain ⟨l, hrounds, hok⟩ := (FdLoop.ok_start hacts hsets env).rounds hcallback hset readies
  obtain ⟨l', calls, hround, -, hserves⟩ := hok.round hcallback hset ready
  exact ⟨l, l', calls, hrounds, hround, hserves⟩

/-- Reading is over after the first time. -/
def readOnce : FdCallback Char Nat := fun n _ _ fd event =>
  (n + 1, if event = fdselectREAD then [.unset fd fdselectREAD] else [])

/-- The sample's calls are about reading and writing. -/
theorem readOnce_rw : readOnce.Rw := by
  intro n sel func fd event act hact
  unfold readOnce at hact
  dsimp only at hact
  split at hact
  · rw [List.mem_singleton.mp hact]
    show fdselectREAD &&& ~~~(fdselectREAD ||| fdselectWRITE) = 0
    decide
  · exact absurd hact List.not_mem_nil

/-- The sample's calls set no callback for a descriptor out of the sets. -/
theorem readOnce_inSet : readOnce.InSet := by
  intro n sel func fd event act hact
  unfold readOnce at hact
  dsimp only at hact
  split at hact
  · rw [List.mem_singleton.mp hact]
    trivial
  · exact absurd hact List.not_mem_nil

/-- Two rounds, with the callbacks of two descriptors. -/
theorem fdselectLoop_serves_a :
    ∃ l l' calls, (FdLoop.start [.set 5 fdselectREAD (some 'a'), .set 6 fdselectWRITE (some 'b')]
        0).rounds readOnce [⟨2, fun _ => true, fun _ => true⟩] = some l ∧
      l.round readOnce ⟨1, fun _ => false, fun _ => true⟩ = some (l', calls) ∧
      RoundServes (regMap l.acts) ⟨1, fun _ => false, fun _ => true⟩ calls (l'.acts = l.acts) := by
  have hacts : ∀ act ∈ [FdAct.set 5 fdselectREAD (some 'a'), .set 6 fdselectWRITE (some 'b')],
      act.Rw := by
    simp [FdAct.Rw]
    decide
  have hsets : ∀ act ∈ [FdAct.set 5 fdselectREAD (some 'a'), .set 6 fdselectWRITE (some 'b')],
      act.InSet := by
    simp [FdAct.InSet]
    decide
  exact fdselectLoop_serves readOnce readOnce_rw readOnce_inSet hacts hsets 0
    [⟨2, fun _ => true, fun _ => true⟩] ⟨1, fun _ => false, fun _ => true⟩

end Bklib
