import Bklib.Lib.Scan
import Bklib.Model.Http

/-!
# `Bklib.Proofs.HttpScan`: runs of the header automaton

The loop of `http_header_parse` is a `scan` of one step a character (`httpLoop_eq_scan`). The rest of
the module says how far a run gets on a piece of text:

* `httpRuns_stay`: on characters that a state stays on, only `ptr` moves.
* `httpRuns_token`: from the gap in front of a token to its end.
* `httpRuns_round`: a character that ends a token, in terms of the `switch` alone. One lemma for
  each token applies it.

`HttpRuns buf s n t` is `n` characters from `s` to `t`. It leaves open which line `t` is on, since
only the report of an error depends on that.
-/

set_option autoImplicit false

namespace Bklib

open Bklib.Lib

/-! ## The loop as a scan -/

/-- The work on one character, and on to the next one. -/
def httpStep (buf : List UInt8) (s : HttpScan) : HttpScan := { httpChar buf s with ptr := s.ptr + 1 }

/-- The parser's loop is a scan that stops. -/
theorem httpLoop_eq_scan (buf : List UInt8) (n : Nat) (s : HttpScan) :
    httpLoop buf n s = scan (httpStep buf) HttpScan.stopped n s := by
  induction n generalizing s with
  | zero => rfl
  | succ n ih =>
      rw [httpLoop, scan]
      split
      · rfl
      · exact ih _

theorem httpLoop_add (buf : List UInt8) (m n : Nat) (s : HttpScan) :
    httpLoop buf (m + n) s = httpLoop buf n (httpLoop buf m s) := by
  simp only [httpLoop_eq_scan, scan_add]

theorem httpLoop_of_stopped {s : HttpScan} (h : s.stopped = true) (buf : List UInt8) (n : Nat) :
    httpLoop buf n s = s := by
  rw [httpLoop_eq_scan, scan_of_stopped h]

/-! ## Where a scan stands -/

namespace HttpScan

variable {buf : List UInt8} {s : HttpScan}

/-- The loop has neither stepped back nor read a null string. -/
def Ready (s : HttpScan) : Prop := s.back = false ∧ s.fault = false

theorem Ready.stopped (h : s.Ready) (hd : s.state ≠ .done) (he : s.state ≠ .error) :
    s.stopped = false := by
  simp [HttpScan.stopped, hd, he, h.2]

/-- The character at the cursor is the first of the rest. -/
theorem cur_eq {c : UInt8} {r : List UInt8} (h : buf.drop s.ptr = c :: r) :
    s.cur buf = c := by
  have hget : (buf.drop s.ptr)[0]? = some c := by rw [h]; rfl
  rw [List.getElem?_drop, Nat.add_zero] at hget
  rw [cur, List.getD_eq_getElem?_getD, hget]
  rfl

theorem token_eq {w r : List UInt8} (h : buf.drop s.word = w ++ r)
    (hptr : s.ptr = s.word + w.length) : s.token buf = w := by
  rw [token, h, hptr, Nat.add_sub_cancel_left, List.take_left']
  rfl

/-- A token goes on with the text that the loop passes. -/
theorem token_extend {p w : Nat} {x r : List UInt8} (h : buf.drop p = x ++ r) (hw : w ≤ p) :
    (buf.drop w).take (p + x.length - w) = (buf.drop w).take (p - w) ++ x := by
  have hrest : (buf.drop w).drop (p - w) = x ++ r := by
    rw [List.drop_drop, Nat.add_sub_cancel' hw, h]
  rw [Nat.sub_add_comm hw, List.take_add, hrest, List.take_left]

end HttpScan

section ParseError

variable (s : HttpScan)

namespace HttpScan

@[simp] theorem parseError_ptr : s.parseError.ptr = s.ptr := rfl

@[simp] theorem parseError_word : s.parseError.word = s.word := rfl

@[simp] theorem parseError_back : s.parseError.back = s.back := rfl

@[simp] theorem parseError_fault : s.parseError.fault = s.fault := rfl

@[simp] theorem parseError_state : s.parseError.state = .error := rfl

@[simp] theorem parseError_op : s.parseError.http.op = s.http.op := rfl

@[simp] theorem parseError_opCode : s.parseError.http.opCode = s.http.opCode := rfl

@[simp] theorem parseError_responseCode :
    s.parseError.http.responseCode = s.http.responseCode := rfl

@[simp] theorem parseError_errorState : s.parseError.http.errorState = s.state.code := rfl

end HttpScan

end ParseError

/-- What lies behind a piece of text. -/
theorem drop_add_length {buf x r : List UInt8} {p : Nat} (h : buf.drop p = x ++ r) :
    buf.drop (p + x.length) = r := by
  rw [← List.drop_drop, h, List.drop_left']
  rfl

/-! ## Characters that a state stays on -/

/-- The characters on which nothing happens. -/
def HttpState.stays (e : HttpState) (c : UInt8) : Bool :=
  c == 13 ||
    match e with
    | .init            => isBlank c || isNl c
    | .space           => isBlank c
    | .op              => !isBlank c && !isNl c
    | .responseCode    => !isBlank c && !isNl c
    | .uri             => !isBlank c && !isNl c
    | .version         => !isBlank c && !isNl c
    | .responseMessage => !isNl c
    | .headerVal       => !isNl c
    | .headerName      => isalnum c || c == 45
    | .headerBol       => false
    | .header          => false
    | .done            => false
    | .error           => false

theorem stays_init {c : UInt8} :
    HttpState.init.stays c = true ↔ isBlank c = true ∨ isNl c = true ∨ c = 13 := by
  simp only [HttpState.stays, Bool.or_eq_true, beq_iff_eq]
  rw [or_comm, or_assoc]

theorem stays_space {c : UInt8} : HttpState.space.stays c = true ↔ isBlank c = true ∨ c = 13 := by
  simp only [HttpState.stays, Bool.or_eq_true, beq_iff_eq]
  exact or_comm

/-- A word goes on up to a blank or the end of the line. -/
theorem stays_op {c : UInt8} :
    HttpState.op.stays c = true ↔ isBlank c = false ∧ isNl c = false := by
  by_cases hc : c = 13
  · subst hc
    decide
  · simp [HttpState.stays, hc]

/-- A character of the word the scan is in changes nothing. -/
theorem httpSwitch_stay {buf : List UInt8} {s : HttpScan} {c : UInt8} (hcur : s.cur buf = c)
    (hc : c ≠ 13) (h : s.state.stays c = true) : httpSwitch buf (isBlank c) (isNl c) s = s := by
  unfold httpSwitch
  cases hst : s.state with
  | init =>
      have hgap : (!isBlank c && !isNl c) = false := by
        have hor : (isBlank c || isNl c) = true := by simpa [HttpState.stays, hst, hc] using h
        rw [← Bool.not_or, hor]
        rfl
      simp only [HttpScan.caseInit, hgap, Bool.false_eq_true, if_false]
  | space => simp_all [HttpState.stays, HttpScan.caseSpace]
  | op => simp_all [HttpState.stays, HttpScan.caseOp]
  | responseCode => simp_all [HttpState.stays, HttpScan.caseResponseCode]
  | responseMessage => simp_all [HttpState.stays, HttpScan.caseResponseMessage]
  | uri => simp_all [HttpState.stays, HttpScan.caseUri]
  | version => simp_all [HttpState.stays, HttpScan.caseVersion]
  | headerBol => simp_all [HttpState.stays]
  | header => simp_all [HttpState.stays]
  | headerName =>
      have hname : (isalnum c || c == 45) = true := by simp_all [HttpState.stays]
      simp only [HttpScan.caseHeaderName, hcur, hname, Bool.not_true, Bool.false_eq_true, if_false]
  | headerVal => simp_all [HttpState.stays, HttpScan.caseHeaderVal]
  | done => rfl
  | error => rfl

/-! ## Runs -/

/-- The scan without the line it is on. -/
def HttpScan.core (s : HttpScan) : HttpScan := { s with line := 0, linePtr := 0 }

/-- The loop gets from `s` to `t` in `n` characters, whatever line `t` is said to be on. -/
def HttpRuns (buf : List UInt8) (s : HttpScan) (n : Nat) (t : HttpScan) : Prop :=
  (httpLoop buf n s).core = t.core

namespace HttpRuns

variable {buf : List UInt8} {s t u : HttpScan}

theorem refl (buf : List UInt8) (s : HttpScan) : HttpRuns buf s 0 s := rfl

/-- A run of rounds is a run of the loop, up to the line it counts. -/
theorem exists_line {n : Nat} (h : HttpRuns buf s n t) :
    ∃ l p, httpLoop buf n s = { t with line := l, linePtr := p } := by
  refine ⟨(httpLoop buf n s).line, (httpLoop buf n s).linePtr, ?_⟩
  unfold HttpRuns HttpScan.core at h
  simp only [HttpScan.mk.injEq] at h
  cases hs : httpLoop buf n s
  simp_all

/-- Runs of rounds go on from each other. -/
theorem trans {m n : Nat} (h : HttpRuns buf s m t)
    (h' : ∀ l p, HttpRuns buf { t with line := l, linePtr := p } n u) :
    HttpRuns buf s (m + n) u := by
  obtain ⟨l, p, hs⟩ := h.exists_line
  rw [HttpRuns, httpLoop_add, hs]
  exact h' l p

end HttpRuns

section Runs

variable {buf r : List UInt8} {s : HttpScan} {c : UInt8}

/-- A round is the `switch`, but for the line. -/
theorem httpRound_eq_switch (hcur : s.cur buf = c) :
    ∃ l p, httpRound buf s
      = httpSwitch buf (isBlank c) (isNl c) { s with line := l, linePtr := p } := by
  unfold httpRound
  rw [hcur]
  dsimp only
  split
  · exact ⟨_, _, rfl⟩
  · exact ⟨s.line, s.linePtr, rfl⟩

/-- A round is what the switch does, whatever the line. -/
theorem httpRound_eq {t : HttpScan} (hcur : s.cur buf = c)
    (ht : ∀ l p, httpSwitch buf (isBlank c) (isNl c) { s with line := l, linePtr := p }
      = { t with line := l, linePtr := p }) :
    ∃ l p, httpRound buf s = { t with line := l, linePtr := p } := by
  obtain ⟨l, p, h⟩ := httpRound_eq_switch hcur
  exact ⟨l, p, h.trans (ht l p)⟩

/-- One character that the `switch` looks at once. -/
theorem httpLoop_one (hstop : s.stopped = false) (hcur : buf.drop s.ptr = c :: r) (hc : c ≠ 13)
    (hback : ∀ l p, (httpSwitch buf (isBlank c) (isNl c)
      { s with line := l, linePtr := p }).back = false) :
    ∃ l p, httpLoop buf 1 s
      = { httpSwitch buf (isBlank c) (isNl c) { s with line := l, linePtr := p } with
          ptr := s.ptr + 1 } := by
  obtain ⟨l, p, hround⟩ := httpRound_eq_switch (HttpScan.cur_eq hcur)
  refine ⟨l, p, ?_⟩
  rw [httpLoop, hstop, if_neg (by simp), httpLoop, httpChar, HttpScan.cur_eq hcur, if_neg hc, hround]
  simp only [hback, Bool.false_eq_true, if_false]

/-- A round that stands at a character, by what the switch does there. -/
theorem httpRuns_round {t : HttpScan} (hstop : s.stopped = false)
    (hcur : buf.drop s.ptr = c :: r) (hc : c ≠ 13)
    (ht : ∀ l p, httpSwitch buf (isBlank c) (isNl c) { s with line := l, linePtr := p }
      = { t with line := l, linePtr := p })
    (hback : t.back = false) : HttpRuns buf s 1 { t with ptr := s.ptr + 1 } := by
  obtain ⟨l, p, h⟩ := httpLoop_one hstop hcur hc fun l p => by rw [ht]; exact hback
  rw [HttpRuns, h, ht]
  rfl

/-- A character of the word the scan is in is passed. -/
theorem httpRuns_stay_one (hstop : s.stopped = false) (hback : s.back = false)
    (hcur : buf.drop s.ptr = c :: r) (hstay : s.state.stays c = true) :
    HttpRuns buf s 1 { s with ptr := s.ptr + 1 } := by
  by_cases hc : c = 13
  · rw [HttpRuns, httpLoop, hstop, if_neg (by simp), httpLoop, httpChar, HttpScan.cur_eq hcur,
      if_pos hc]
  · exact httpRuns_round hstop hcur hc
      (fun l p => httpSwitch_stay (HttpScan.cur_eq hcur) hc hstay) hback

/-- The rest of a token, or of a gap. -/
theorem httpRuns_stay {x : List UInt8} (hstop : s.stopped = false) (hback : s.back = false)
    (hseg : buf.drop s.ptr = x ++ r) (hstay : ∀ c ∈ x, s.state.stays c = true) :
    HttpRuns buf s x.length { s with ptr := s.ptr + x.length } := by
  induction x generalizing s with
  | nil => exact HttpRuns.refl buf s
  | cons c x ih =>
      have hone := httpRuns_stay_one hstop hback hseg (hstay c (by simp))
      have hnext : buf.drop (s.ptr + 1) = x ++ r := drop_add_length (x := [c]) hseg
      rw [List.length_cons, Nat.add_comm x.length, ← Nat.add_assoc]
      exact hone.trans fun l p =>
        ih (s := { s with ptr := s.ptr + 1, line := l, linePtr := p }) hstop hback hnext
          fun d hd => hstay d (List.mem_cons_of_mem _ hd)

/-- Where a gap ends, the `switch` goes to the state behind it and steps back. -/
theorem httpSwitch_enter {e : HttpState}
    (hst : s.state = .init ∧ e = .op ∨ s.state = .space ∧ s.stateNext = e)
    (hgap : s.state.stays c = false) :
    httpSwitch buf (isBlank c) (isNl c) s
      = { s with state := e, word := s.ptr, back := true } := by
  rcases hst with ⟨hst, rfl⟩ | ⟨hst, rfl⟩
  · have : (!isBlank c && !isNl c) = true := by simp_all [HttpState.stays]
    simp only [httpSwitch, hst, HttpScan.caseInit, this, if_true]
  · have : (!isBlank c) = true := by simp_all [HttpState.stays]
    simp only [httpSwitch, hst, HttpScan.caseSpace, this, if_true]

/-- A character that the `switch` looks at twice, because a gap ends at it. -/
theorem httpLoop_one_twice {e : HttpState} (hr : s.Ready)
    (hst : s.state = .init ∧ e = .op ∨ s.state = .space ∧ s.stateNext = e)
    (hcur : buf.drop s.ptr = c :: r) (hgap : s.state.stays c = false) :
    ∃ l p, httpLoop buf 1 s
      = { httpSwitch buf (isBlank c) (isNl c)
            { s with state := e, word := s.ptr, line := l, linePtr := p } with
          ptr := s.ptr + 1 } := by
  have hstop : s.stopped = false := by
    rcases hst with ⟨h, _⟩ | ⟨h, _⟩ <;> exact hr.stopped (by simp [h]) (by simp [h])
  have hc : c ≠ 13 := by
    rintro rfl
    exact absurd hgap (by simp [HttpState.stays])
  obtain ⟨l, p, hfirst⟩ := httpRound_eq (s := s)
    (t := { s with state := e, word := s.ptr, back := true }) (HttpScan.cur_eq hcur)
    fun l p => httpSwitch_enter (s := { s with line := l, linePtr := p }) hst hgap
  -- `back` has the character looked at again, in the state behind the gap
  obtain ⟨l', p', hsecond⟩ := httpRound_eq_switch
    (s := { s with state := e, word := s.ptr, line := l, linePtr := p }) (HttpScan.cur_eq hcur)
  have hback : s.back = false := hr.1
  refine ⟨l', p', ?_⟩
  rw [httpLoop, hstop, if_neg (by simp), httpLoop, httpChar, HttpScan.cur_eq hcur, if_neg hc, hfirst]
  simp only [if_true]
  rw [← hback, hsecond]

/-- A character at which a gap ends is looked at as if the scan had been in the state behind the gap
all along. -/
theorem httpLoop_enter {e : HttpState} (hr : s.Ready)
    (hst : s.state = .init ∧ e = .op ∨ s.state = .space ∧ s.stateNext = e)
    (hrun : e ≠ .done ∧ e ≠ .error) (hcur : buf.drop s.ptr = c :: r)
    (hgap : s.state.stays c = false)
    (hback : ∀ l p, (httpSwitch buf (isBlank c) (isNl c)
      { s with state := e, word := s.ptr, line := l, linePtr := p }).back = false) :
    ∃ l p, httpLoop buf 1 s
      = httpLoop buf 1 { s with state := e, word := s.ptr, line := l, linePtr := p } := by
  have hstop : s.stopped = false := by
    rcases hst with ⟨h, _⟩ | ⟨h, _⟩ <;> exact hr.stopped (by simp [h]) (by simp [h])
  have hc : c ≠ 13 := by
    rintro rfl
    exact absurd hgap (by simp [HttpState.stays])
  have hcur' := HttpScan.cur_eq hcur
  obtain ⟨l, p, hfirst⟩ := httpRound_eq (s := s)
    (t := { s with state := e, word := s.ptr, back := true }) hcur'
    fun l p => httpSwitch_enter (s := { s with line := l, linePtr := p }) hst hgap
  refine ⟨l, p, ?_⟩
  generalize hx : { s with state := e, word := s.ptr, line := l, linePtr := p } = x
  have hxcur : x.cur buf = c := by rw [← hx]; exact hcur'
  have hxstop : x.stopped = false := by
    rw [← hx]
    exact HttpScan.Ready.stopped hr hrun.1 hrun.2
  -- the second look is the only one from `x`
  have hsecond : (httpRound buf x).back = false := by
    obtain ⟨l', p', hround⟩ := httpRound_eq_switch hxcur
    rw [hround, ← hx]
    exact hback l' p'
  have hptr : x.ptr = s.ptr := by rw [← hx]
  have hagain : { s with
      state := e, word := s.ptr, back := false, line := l, linePtr := p } = x := by
    rw [← hx, ← hr.1]
  have hleft : httpLoop buf 1 s = { httpRound buf x with ptr := s.ptr + 1 } := by
    rw [httpLoop, hstop, if_neg (by simp), httpLoop, httpChar, hcur', if_neg hc, hfirst]
    simp only [if_true, hagain]
  have hright : httpLoop buf 1 x = { httpRound buf x with ptr := s.ptr + 1 } := by
    rw [httpLoop, hxstop, if_neg (by simp), httpLoop, httpChar, hxcur, if_neg hc, hptr]
    simp only [hsecond, Bool.false_eq_true, if_false]
  rw [hleft, hright]

/-- The first character behind a gap takes two turns: one leaves the gap, one starts the word. -/
theorem httpRuns_round_twice {e : HttpState} {t : HttpScan} (hr : s.Ready)
    (hst : s.state = .init ∧ e = .op ∨ s.state = .space ∧ s.stateNext = e)
    (hcur : buf.drop s.ptr = c :: r) (hgap : s.state.stays c = false)
    (ht : ∀ l p, httpSwitch buf (isBlank c) (isNl c)
        { s with state := e, word := s.ptr, line := l, linePtr := p }
      = { t with line := l, linePtr := p }) :
    HttpRuns buf s 1 { t with ptr := s.ptr + 1 } := by
  obtain ⟨l, p, h⟩ := httpLoop_one_twice hr hst hcur hgap
  rw [HttpRuns, h, ht]
  rfl

/-- A word is entered at its first character. -/
theorem httpRuns_enter {e : HttpState} (hr : s.Ready)
    (hst : s.state = .init ∧ e = .op ∨ s.state = .space ∧ s.stateNext = e)
    (hcur : buf.drop s.ptr = c :: r) (hgap : s.state.stays c = false)
    (hstay : e.stays c = true) :
    HttpRuns buf s 1 { s with state := e, word := s.ptr, ptr := s.ptr + 1 } := by
  have hc : c ≠ 13 := by
    rintro rfl
    exact absurd hgap (by simp [HttpState.stays])
  exact httpRuns_round_twice (t := { s with state := e, word := s.ptr }) hr hst hcur hgap
    fun l p => httpSwitch_stay
      (s := { s with state := e, word := s.ptr, line := l, linePtr := p })
      (HttpScan.cur_eq hcur) hc hstay

/-- A gap and the token behind it. -/
theorem httpRuns_token {e : HttpState} {g w : List UInt8} (hr : s.Ready)
    (hst : s.state = .init ∧ e = .op ∨ s.state = .space ∧ s.stateNext = e)
    (hrun : e ≠ .done ∧ e ≠ .error)
    (htext : buf.drop s.ptr = g ++ (w ++ r)) (hgap : ∀ c ∈ g, s.state.stays c = true)
    (hne : w ≠ []) (hfirst : ∀ c, w.head? = some c → s.state.stays c = false)
    (hstay : ∀ c ∈ w, e.stays c = true) :
    HttpRuns buf s (g.length + w.length)
      { s with
        state := e, word := s.ptr + g.length, ptr := s.ptr + g.length + w.length } := by
  have hstop : s.stopped = false := by
    rcases hst with ⟨h, _⟩ | ⟨h, _⟩ <;> exact hr.stopped (by simp [h]) (by simp [h])
  obtain ⟨c, w, rfl⟩ := List.exists_cons_of_ne_nil hne
  have htok := drop_add_length htext
  rw [List.length_cons, Nat.add_comm w.length]
  -- the gap, its end at the first character, and the rest of the token
  refine (httpRuns_stay hstop hr.1 htext hgap).trans fun l p => ?_
  refine (httpRuns_enter (s := { s with ptr := s.ptr + g.length, line := l, linePtr := p }) hr hst
    htok (hfirst c rfl) (hstay c (by simp))).trans fun l p => ?_
  have hrest : buf.drop (s.ptr + g.length + 1) = w ++ r :=
    drop_add_length (x := [c]) htok
  have := httpRuns_stay (s := { s with
      state := e, word := s.ptr + g.length, ptr := s.ptr + g.length + 1
      line := l, linePtr := p })
    (HttpScan.Ready.stopped hr hrun.1 hrun.2) hr.1 hrest
    fun d hd => hstay d (List.mem_cons_of_mem _ hd)
  rw [← Nat.add_assoc]
  exact this

/-- A gap, the token behind it, and the character `c` that ends the token. -/
theorem httpRuns_word {e : HttpState} {g w : List UInt8} {t : HttpScan} (hr : s.Ready)
    (hst : s.state = .init ∧ e = .op ∨ s.state = .space ∧ s.stateNext = e)
    (hrun : e ≠ .done ∧ e ≠ .error)
    (htext : buf.drop s.ptr = g ++ (w ++ c :: r))
    (hgap : ∀ c ∈ g, s.state.stays c = true) (hne : w ≠ [])
    (hfirst : ∀ c, w.head? = some c → s.state.stays c = false)
    (hstay : ∀ c ∈ w, e.stays c = true) (hc : c ≠ 13)
    (ht : ∀ l q,
      HttpScan.token buf
        { s with
          state := e, word := s.ptr + g.length, ptr := s.ptr + g.length + w.length
          line := l, linePtr := q } = w →
      httpSwitch buf (isBlank c) (isNl c)
        { s with
          state := e, word := s.ptr + g.length, ptr := s.ptr + g.length + w.length
          line := l, linePtr := q }
      = { t with line := l, linePtr := q })
    (hback : t.back = false) :
    HttpRuns buf s (g.length + w.length + 1)
      { t with ptr := s.ptr + g.length + w.length + 1 } := by
  have htok := drop_add_length htext
  refine (httpRuns_token hr hst hrun htext hgap hne hfirst hstay).trans fun l q => ?_
  exact httpRuns_round
    (s := { s with
      state := e, word := s.ptr + g.length, ptr := s.ptr + g.length + w.length
      line := l, linePtr := q })
    (HttpScan.Ready.stopped hr hrun.1 hrun.2) (drop_add_length htok) hc
    (fun l q => ht l q (HttpScan.token_eq htok rfl)) hback

end Runs

/-! ## Characters that end a token -/

section Turns

variable {buf : List UInt8} {s : HttpScan} {c : UInt8} {w : List UInt8}

/-- The end of a method. -/
theorem httpSwitch_op {op : List UInt8} (hst : s.state = .op) (hc : isBlank c = true)
    (hn : isNl c = false) (htok : s.token buf = w) (hop : httpStrdup w = some op)
    (hreq : strncmpEq op (bytes "HTTP/") 5 = false) :
    httpSwitch buf (isBlank c) (isNl c) s
      = { s with
          http := { s.http with op := some op, opCode := HttpScan.opCodeOf op }
          state := .space, stateNext := .uri } := by
  simp [httpSwitch, hst, HttpScan.caseOp, hc, hn, htok, hop, hreq]

/-- The end of the version that starts a response. -/
theorem httpSwitch_op_response {op : List UInt8} (hst : s.state = .op) (hc : isBlank c = true)
    (hn : isNl c = false) (htok : s.token buf = w) (hop : httpStrdup w = some op)
    (hres : strncmpEq op (bytes "HTTP/") 5 = true) :
    httpSwitch buf (isBlank c) (isNl c) s
      = { s with
          http := { s.http with op := none, httpVersion := some op, opCode := .response }
          state := .space, stateNext := .responseCode } := by
  simp [httpSwitch, hst, HttpScan.caseOp, hc, hn, htok, hop, hres]

/-- The end of a word that has no copy. -/
theorem httpSwitch_op_none (hst : s.state = .op) (hc : isBlank c = true)
    (hn : isNl c = false) (htok : s.token buf = w) (hop : httpStrdup w = none) :
    httpSwitch buf (isBlank c) (isNl c) s = { s with fault := true } := by
  simp [httpSwitch, hst, HttpScan.caseOp, hc, hn, htok, hop]

/-- The end of a status code that `strtoul` finds. -/
theorem httpSwitch_responseCode {n k : Nat} (hst : s.state = .responseCode)
    (hc : isBlank c = true ∨ isNl c = true) (hr : strtoul (buf.drop s.word) = (n, k))
    (hk : k ≠ 0) :
    httpSwitch buf (isBlank c) (isNl c) s
      = { s with
          http := { s.http with responseCode := natToInt32 n }
          state := if isNl c then .header else .space, stateNext := .responseMessage } := by
  have hor : (isBlank c || isNl c) = true := by simpa using hc
  simp only [httpSwitch, hst, HttpScan.caseResponseCode, hor, if_true, hr, if_neg hk]

/-- The end of a status code in which `strtoul` finds no number. -/
theorem httpSwitch_responseCode_error {n : Nat} (hst : s.state = .responseCode)
    (hc : isBlank c = true ∨ isNl c = true) (hr : strtoul (buf.drop s.word) = (n, 0)) :
    httpSwitch buf (isBlank c) (isNl c) s
      = HttpScan.parseError { s with http := { s.http with responseCode := natToInt32 n } } := by
  have hor : (isBlank c || isNl c) = true := by simpa using hc
  simp only [httpSwitch, hst, HttpScan.caseResponseCode, hor, if_true, hr]

/-- The message of a response ends at its line's end. -/
theorem httpSwitch_responseMessage (hst : s.state = .responseMessage) (hn : isNl c = true)
    (htok : s.token buf = w) :
    httpSwitch buf (isBlank c) (isNl c) s
      = { s with
          http := { s.http with responseMessage := httpStrdup w }, state := .header } := by
  simp [httpSwitch, hst, HttpScan.caseResponseMessage, hn, htok]

/-- The resource ends at a blank. -/
theorem httpSwitch_uri (hst : s.state = .uri) (hc : isBlank c = true) (hn : isNl c = false)
    (htok : s.token buf = w) :
    httpSwitch buf (isBlank c) (isNl c) s
      = { s with
          http := { s.http with uri := httpStrdup w }
          state := .space, stateNext := .version } := by
  simp [httpSwitch, hst, HttpScan.caseUri, hc, hn, htok]

/-- A URI that ends the line. -/
theorem httpSwitch_uri_newline (hst : s.state = .uri) (hn : isNl c = true)
    (htok : s.token buf = w) :
    httpSwitch buf (isBlank c) (isNl c) s
      = { s with
          http := { s.http with uri := httpStrdup w }
          state := .space, stateNext := .header } := by
  simp [httpSwitch, hst, HttpScan.caseUri, hn, htok]

theorem httpSwitch_version (hst : s.state = .version) (hn : isNl c = true)
    (htok : s.token buf = w) :
    httpSwitch buf (isBlank c) (isNl c) s
      = { s with http := { s.http with httpVersion := httpStrdup w }, state := .header } := by
  simp [httpSwitch, hst, HttpScan.caseVersion, hn, htok]

/-- The first character of a field name. The value of the field before ends here. -/
theorem httpSwitch_header (hst : s.state = .header) (hc : isBlank c = false) (hn : isNl c = false)
    (htok : s.token buf = w) :
    httpSwitch buf (isBlank c) (isNl c) s
      = { s with
          http := { s.http with
            headers := httpSetLast (fun h => { h with val := httpStrdup w }) s.http.headers
              ++ [⟨none, none⟩] }
          word := s.ptr, state := .headerName } := by
  simp [httpSwitch, hst, HttpScan.caseHeader, hc, hn, htok]

/-- A blank at the start of a line. The value goes on. -/
theorem httpSwitch_header_blank (hst : s.state = .header) (hc : isBlank c = true) :
    httpSwitch buf (isBlank c) (isNl c) s = { s with state := .headerVal } := by
  simp [httpSwitch, hst, HttpScan.caseHeader, hc]

/-- The empty line. -/
theorem httpSwitch_header_done (hst : s.state = .header) (hc : isBlank c = false)
    (hn : isNl c = true) (htok : s.token buf = w) :
    httpSwitch buf (isBlank c) (isNl c) s
      = { s with
          http := { s.http with
            headers := httpSetLast (fun h => { h with val := httpStrdup w }) s.http.headers }
          state := .done } := by
  simp [httpSwitch, hst, HttpScan.caseHeader, hc, hn, htok]

/-- The colon behind a field name. -/
theorem httpSwitch_headerName (hst : s.state = .headerName) (hcur : s.cur buf = 58)
    (htok : s.token buf = w) :
    httpSwitch buf (isBlank c) (isNl c) s
      = { s with
          http := { s.http with
            headers := httpSetLast (fun h => { h with key := httpStrdup w }) s.http.headers }
          state := .space, stateNext := .headerVal } := by
  have hname : isalnum 58 = false := by decide
  simp [httpSwitch, hst, HttpScan.caseHeaderName, hcur, hname, htok]

/-- A character that no name has, and that is no colon. -/
theorem httpSwitch_headerName_error (hst : s.state = .headerName) (hcur : s.cur buf = c)
    (hname : HttpState.headerName.stays c = false) (hc : c ≠ 58) :
    httpSwitch buf (isBlank c) (isNl c) s = s.parseError := by
  have hno : (isalnum c || c == 45) = false := by
    rw [HttpState.stays, Bool.or_eq_false_iff] at hname
    exact hname.2
  simp only [httpSwitch, hst, HttpScan.caseHeaderName, hcur, hno, Bool.not_false, if_true, ne_eq, hc,
    not_false_eq_true]

/-- The end of a line of a value. The value may go on with the next line. -/
theorem httpSwitch_headerVal (hst : s.state = .headerVal) (hn : isNl c = true) :
    httpSwitch buf (isBlank c) (isNl c) s = { s with state := .header } := by
  simp [httpSwitch, hst, HttpScan.caseHeaderVal, hn]

end Turns

/-! ## Behind the method -/

/-- The states that `state_next` takes. -/
def HttpState.follows : HttpState → Prop
  | .init  => False
  | .space => False
  | .op    => False
  | .done  => False
  | .error => False
  | _      => True

/-- What the `switch` leads to, in the states behind the method. -/
structure HttpScan.Leads (s t : HttpScan) : Prop where
  ptr : t.ptr = s.ptr
  back : t.back = s.back
  word : t.word = s.word ∨ t.word = s.ptr
  init : t.state ≠ .init
  op : t.state ≠ .op
  space : t.state = .space → t.stateNext.follows ∧ t.stateNext ≠ .responseCode
  code : t.state = .responseCode → s.state = .responseCode
  http : t.http.op = s.http.op ∧ t.http.opCode = s.http.opCode
  responseCode : s.state ≠ .responseCode → t.http.responseCode = s.http.responseCode

/-- `HTTP_STATE_RESPONSE_CODE`, for any number that `strtoul` could find in `k` characters. -/
theorem httpScan_leads_responseCode {s : HttpScan} {isSpace isNl : Bool} (code : Int) (k : Nat)
    (hs : s.state = .responseCode) :
    s.Leads
      (if (isSpace || isNl) = true then
        if k = 0 then
          HttpScan.parseError { s with http := { s.http with responseCode := code } }
        else
          { s with
            http := { s.http with responseCode := code }
            state := if isNl then .header else .space, stateNext := .responseMessage }
      else s) := by
  split
  · split
    · constructor <;> simp [hs]
    · cases isNl <;> constructor <;> simp [HttpState.follows, hs]
  · constructor <;> simp [hs]

/-- A turn goes to the state that follows, or stays. -/
theorem httpSwitch_leads {buf : List UInt8} {c : UInt8} {s : HttpScan} (hst : s.state.follows) :
    s.Leads (httpSwitch buf (isBlank c) (isNl c) s) := by
  unfold httpSwitch
  cases hs : s.state with
  | init => simp [hs, HttpState.follows] at hst
  | space => simp [hs, HttpState.follows] at hst
  | op => simp [hs, HttpState.follows] at hst
  | done => simp [hs, HttpState.follows] at hst
  | error => simp [hs, HttpState.follows] at hst
  | responseCode => exact httpScan_leads_responseCode _ _ hs
  | responseMessage =>
      dsimp only [HttpScan.caseResponseMessage]
      split <;> constructor <;> simp [hs]
  | uri =>
      dsimp only [HttpScan.caseUri]
      split
      · cases isNl c <;> constructor <;> simp [HttpState.follows]
      · constructor <;> simp [hs]
  | version =>
      dsimp only [HttpScan.caseVersion]
      split
      · split <;> constructor <;> simp [HttpState.follows]
      · constructor <;> simp [hs]
  | headerBol =>
      dsimp only [HttpScan.caseHeaderBol]
      split <;> constructor <;> simp
  | header =>
      dsimp only [HttpScan.caseHeader]
      split
      · constructor <;> simp
      · split <;> constructor <;> simp
  | headerName =>
      dsimp only [HttpScan.caseHeaderName]
      split
      · split <;> constructor <;> simp [HttpState.follows]
      · constructor <;> simp [hs]
  | headerVal =>
      dsimp only [HttpScan.caseHeaderVal]
      split <;> constructor <;> simp [hs]

/-! ## Errors, and the end -/

/-- The `switch` steps back with `back` alone. -/
theorem httpSwitch_ptr (buf : List UInt8) (isSpace isNl : Bool) (s : HttpScan) :
    (httpSwitch buf isSpace isNl s).ptr = s.ptr := by
  unfold httpSwitch
  cases s.state with
  | error => rfl
  | done => rfl
  | init => dsimp only [HttpScan.caseInit]; split <;> rfl
  | space => dsimp only [HttpScan.caseSpace]; split <;> rfl
  | op =>
      dsimp only [HttpScan.caseOp]
      split
      · rfl
      · split
        · split
          · rfl
          · split <;> rfl
        · rfl
  | responseCode =>
      dsimp only [HttpScan.caseResponseCode]
      split
      · split <;> rfl
      · rfl
  | responseMessage => dsimp only [HttpScan.caseResponseMessage]; split <;> rfl
  | uri => dsimp only [HttpScan.caseUri]; split <;> rfl
  | version =>
      dsimp only [HttpScan.caseVersion]
      split
      · split <;> rfl
      · rfl
  | headerBol => dsimp only [HttpScan.caseHeaderBol]; split <;> rfl
  | header =>
      dsimp only [HttpScan.caseHeader]
      split
      · rfl
      · split <;> rfl
  | headerName =>
      dsimp only [HttpScan.caseHeaderName]
      split
      · split <;> rfl
      · rfl
  | headerVal => dsimp only [HttpScan.caseHeaderVal]; split <;> rfl

theorem httpRound_ptr (buf : List UInt8) (s : HttpScan) : (httpRound buf s).ptr = s.ptr := by
  obtain ⟨l, p, hround⟩ : ∃ l p, httpRound buf s = _ := httpRound_eq_switch rfl
  rw [hround, httpSwitch_ptr]

/-- What a round keeps, and what does not look at `ptr` and `back`, is kept by the loop: it makes one
round or two of each character. -/
theorem httpLoop_keeps (buf : List UInt8) {P : HttpScan → Prop}
    (hmove : ∀ s p b, P s → P { s with ptr := p, back := b })
    (hround : ∀ s, P s → P (httpRound buf s)) {s : HttpScan} (hs : P s) (n : Nat) :
    P (httpLoop buf n s) := by
  rw [httpLoop_eq_scan]
  refine scan_preserves (P := P) (fun t _ ht => ?_) n hs
  unfold httpStep httpChar
  split
  · exact hmove t (t.ptr + 1) t.back ht
  · dsimp only
    split
    · have htwice := hround _ (hmove _ (httpRound buf t).ptr false (hround t ht))
      exact hmove _ (t.ptr + 1) _ htwice
    · exact hmove _ (t.ptr + 1) _ (hround t ht)

/-- An error has a positive number, and no gap leads to the end or to an error. -/
structure HttpScan.Sane (s : HttpScan) : Prop where
  next : s.stateNext ≠ .done ∧ s.stateNext ≠ .error
  error : s.state = .error → 0 < s.http.errorState

namespace HttpScan.Sane

variable {s : HttpScan}

theorem of_state (hnext : s.stateNext ≠ .done ∧ s.stateNext ≠ .error) (hst : s.state ≠ .error) :
    s.Sane := ⟨hnext, fun herror => absurd herror hst⟩

theorem of_error (hnext : s.stateNext ≠ .done ∧ s.stateNext ≠ .error) (hcode : 0 < s.state.code) :
    s.parseError.Sane := ⟨hnext, fun _ => hcode⟩

/-- The `switch` gets to the end at a newline only. -/
theorem switch (buf : List UInt8) (isSpace isNl : Bool) (hs : s.Sane) :
    (httpSwitch buf isSpace isNl s).Sane ∧
      (s.state ≠ .done → isNl = false → (httpSwitch buf isSpace isNl s).state ≠ .done) := by
  have hnext := hs.next
  unfold httpSwitch
  cases hst : s.state with
  | error => exact ⟨hs, fun _ _ => by simp [hst]⟩
  | done => exact ⟨hs, fun h => absurd rfl h⟩
  | init =>
      dsimp only [caseInit]
      split
      · exact ⟨of_state hnext (by simp), fun _ _ => by simp⟩
      · exact ⟨hs, fun _ _ => by simp [hst]⟩
  | space =>
      dsimp only [caseSpace]
      split
      · exact ⟨of_state hnext hnext.2, fun _ _ => hnext.1⟩
      · exact ⟨hs, fun _ _ => by simp [hst]⟩
  | op =>
      dsimp only [caseOp]
      split
      · exact ⟨of_error hnext (by simp [hst, HttpState.code]), fun _ _ => by simp⟩
      · split
        · cases httpStrdup (s.token buf) with
          | none => exact ⟨⟨hnext, hs.error⟩, fun _ _ => by simp [hst]⟩
          | some op =>
              dsimp only
              split <;> exact ⟨of_state (by simp) (by simp), fun _ _ => by simp⟩
        · exact ⟨hs, fun _ _ => by simp [hst]⟩
  | responseCode =>
      dsimp only [caseResponseCode]
      split
      · split
        · exact ⟨of_error hnext (by simp [hst, HttpState.code]), fun _ _ => by simp⟩
        · exact ⟨of_state (by simp) (by dsimp only; split <;> simp),
            fun _ _ => by dsimp only; split <;> simp⟩
      · exact ⟨hs, fun _ _ => by simp [hst]⟩
  | responseMessage =>
      dsimp only [caseResponseMessage]
      split
      · exact ⟨of_state hnext (by simp), fun _ _ => by simp⟩
      · exact ⟨hs, fun _ _ => by simp [hst]⟩
  | uri =>
      dsimp only [caseUri]
      split
      · exact ⟨of_state (by dsimp only; split <;> simp) (by simp), fun _ _ => by simp⟩
      · exact ⟨hs, fun _ _ => by simp [hst]⟩
  | version =>
      dsimp only [caseVersion]
      split
      · split
        · exact ⟨of_state hnext (by simp), fun _ _ => by simp⟩
        · exact ⟨of_state (by simp) (by simp), fun _ _ => by simp⟩
      · exact ⟨hs, fun _ _ => by simp [hst]⟩
  | headerBol =>
      dsimp only [caseHeaderBol]
      split
      · exact ⟨of_error hnext (by simp [hst, HttpState.code]), fun _ _ => by simp⟩
      · exact ⟨of_state hnext (by simp), fun _ _ => by simp⟩
  | header =>
      dsimp only [caseHeader]
      split
      · exact ⟨of_state hnext (by simp), fun _ _ => by simp⟩
      · split
        -- an empty line is the end
        next hnl => exact ⟨of_state hnext (by simp), fun _ h => absurd hnl (by simp [h])⟩
        · exact ⟨of_state hnext (by simp), fun _ _ => by simp⟩
  | headerName =>
      dsimp only [caseHeaderName]
      split
      · split
        · exact ⟨of_error hnext (by simp [hst, HttpState.code]), fun _ _ => by simp⟩
        · exact ⟨of_state (by simp) (by simp), fun _ _ => by simp⟩
      · exact ⟨hs, fun _ _ => by simp [hst]⟩
  | headerVal =>
      dsimp only [caseHeaderVal]
      split
      · exact ⟨of_state hnext (by simp), fun _ _ => by simp⟩
      · exact ⟨hs, fun _ _ => by simp [hst]⟩

/-- A round keeps the scan sane, and only a line end can finish it. -/
theorem round (buf : List UInt8) (hs : s.Sane) :
    (httpRound buf s).Sane ∧
      (s.state ≠ .done → s.cur buf ≠ 10 → (httpRound buf s).state ≠ .done) := by
  obtain ⟨l, p, hround⟩ : ∃ l p, httpRound buf s = _ := httpRound_eq_switch rfl
  have hswitch := switch buf (isBlank (s.cur buf)) (isNl (s.cur buf))
    (s := { s with line := l, linePtr := p }) ⟨hs.next, hs.error⟩
  rw [hround]
  exact ⟨hswitch.1, fun hdone hcur => hswitch.2 hdone (by simpa [isNl] using hcur)⟩

/-- A step keeps the scan sane, and only a line end can finish it. -/
theorem step (buf : List UInt8) (hs : s.Sane) :
    (httpStep buf s).Sane ∧
      (s.state ≠ .done → s.cur buf ≠ 10 → (httpStep buf s).state ≠ .done) := by
  unfold httpStep httpChar
  split
  · exact ⟨⟨hs.next, hs.error⟩, fun hdone _ => hdone⟩
  · have hone := round buf hs
    dsimp only
    split
    · -- the second look is at the same character
      have htwo := round buf (s := { httpRound buf s with back := false })
        ⟨hone.1.next, hone.1.error⟩
      have hsame : HttpScan.cur buf { httpRound buf s with back := false } = s.cur buf := by
        rw [HttpScan.cur, HttpScan.cur, httpRound_ptr]
      exact ⟨⟨htwo.1.next, htwo.1.error⟩,
        fun hdone hcur => htwo.2 (hone.2 hdone hcur) (by rwa [hsame])⟩
    · exact ⟨⟨hone.1.next, hone.1.error⟩, hone.2⟩

theorem loop (buf : List UInt8) (hs : s.Sane) (n : Nat) : (httpLoop buf n s).Sane := by
  rw [httpLoop_eq_scan]
  exact scan_preserves (P := HttpScan.Sane) (fun t _ ht => (ht.step buf).1) n hs

end HttpScan.Sane

end Bklib
