import Bklib.Proofs.HttpScan
import Bklib.Proofs.Strtoul

/-!
# `Bklib.Proofs.HttpFeed`: the header parser on growing input

Callers of `http_header_parse` collect bytes and parse them again after every read, until a call
returns something else than 0. `httpFeed` is that loop, with any lengths and any bytes behind them.
The result of a call should depend on the `len` bytes alone, and the outcome should not depend on how
the bytes were cut (`HttpIndependent`).

There is one place where the automaton looks further than `ptr`: the status code is read by
`strtoul`, which skips space, line ends included. So a status code that is all space is read from
behind its line. `HttpBlankCode` says in terms of the bytes when that happens, and
`httpHeaderParse_independent_iff` that nothing else goes wrong.

* `HttpScan.Consumed`: what a scan says about the bytes read so far. Every character keeps it.
* `httpChar_local`: a character does the same whatever lies behind it, unless the scan overruns.
* `httpBlankCode_of_overruns`: a scan overruns only in a blank status code.
-/

set_option autoImplicit false

namespace Bklib

open Bklib.Lib

/-! ## Statement -/

/-- A call that found the header incomplete. -/
def httpPending (r : Option (HttpHeader × Int)) : Bool := r.any fun r => r.2 == 0

/-- A call on the first `n` bytes of `s`, with `behind` after them in memory. -/
def httpCall (s : List UInt8) (http : HttpHeader) (call : Nat × List UInt8) :
    Option (HttpHeader × Int) :=
  httpHeaderParse http (s.take call.1 ++ call.2) call.1

/-- Calls on prefixes of `s`, on one parser state, until one of them returns nonzero. -/
def httpFeed (s : List UInt8) (http : HttpHeader) (call : Nat × List UInt8)
    (calls : List (Nat × List UInt8)) : Option (HttpHeader × Int) :=
  feed (httpCall s) (fun r => (r.map Prod.fst).getD http) httpPending http call calls

/-- Growing prefixes of `s`, the last of which is all of it. -/
def HttpFeeding (s : List UInt8) (call : Nat × List UInt8) (calls : List (Nat × List UInt8)) : Prop :=
  List.Pairwise (fun a b => a.1 < b.1) (call :: calls) ∧
    ((call :: calls).getLast (by simp)).1 = s.length

/-- The parser does not depend on how the bytes of `s` arrive, nor on what lies beyond them. -/
structure HttpIndependent (s : List UInt8) : Prop where
  behind : ∀ n, n ≤ s.length → ∀ http http' r r',
    httpHeaderParse http (s.take n ++ r) n = httpHeaderParse http' (s.take n ++ r') n
  verdict : ∀ http call calls call' calls', HttpFeeding s call calls → HttpFeeding s call' calls' →
    (httpFeed s http call calls).map Prod.snd = (httpFeed s http call' calls').map Prod.snd
  header : ∀ http call calls call' calls', HttpFeeding s call calls → HttpFeeding s call' calls' →
    ∀ h, httpFeed s http call calls = some (h, 1) → httpFeed s http call' calls' = some (h, 1)

/-- The bytes up to the status code: a word that starts with `HTTP/`, a blank, and more blanks. -/
def HttpStatusStart (front : List UInt8) : Prop :=
  ∃ lead version blank gap v, front = lead ++ (version ++ blank :: gap) ∧
    (∀ c ∈ lead, isBlank c = true ∨ isNl c = true ∨ c = 13) ∧
    version ≠ [] ∧ version.head? ≠ some 13 ∧
    (∀ c ∈ version, isBlank c = false ∧ isNl c = false) ∧
    httpStrdup version = some v ∧ strncmpEq v (bytes "HTTP/") 5 = true ∧
    isBlank blank = true ∧ ∀ c ∈ gap, isBlank c = true ∨ c = 13

/-- The bytes have a status line whose code is nothing but `\v`, `\f` and `\r`, or not there. -/
def HttpBlankCode (s : List UInt8) : Prop :=
  ∃ front code t rest, s = front ++ (code ++ t :: rest) ∧ HttpStatusStart front ∧
    (∀ c ∈ code, isspace c = true ∧ isBlank c = false ∧ isNl c = false) ∧
    code.head? ≠ some 13 ∧ (isNl t = true ∨ isBlank t = true ∧ code ≠ [])

/-! ## What has been read -/

/-- What the state of a scan says about the bytes `p` before `ptr`. -/
def HttpScan.Phase (p : List UInt8) (s : HttpScan) : Prop :=
  match s.state with
  | .init         => ∀ c ∈ p, HttpState.init.stays c = true
  | .op           =>
      ∃ lead op, p = lead ++ op ∧ (∀ c ∈ lead, HttpState.init.stays c = true) ∧ op ≠ [] ∧
        (∀ c, op.head? = some c → HttpState.init.stays c = false) ∧
        (∀ c ∈ op, HttpState.op.stays c = true) ∧ s.word = lead.length
  | .space        => s.stateNext.follows ∧ (s.stateNext = .responseCode → HttpStatusStart p)
  | .responseCode =>
      ∃ front code, p = front ++ code ∧ HttpStatusStart front ∧ code ≠ [] ∧
        (∀ c, code.head? = some c → HttpState.space.stays c = false) ∧
        (∀ c ∈ code, HttpState.responseCode.stays c = true) ∧ s.word = front.length
  | _             => True

/-- A scan that has read the bytes `p`. -/
structure HttpScan.Consumed (p : List UInt8) (s : HttpScan) : Prop where
  ptr : s.ptr = p.length
  word_le : s.word ≤ s.ptr
  back : s.back = false
  phase : s.Phase p

theorem httpScan_consumed_start (http : HttpHeader) : HttpScan.Consumed [] (httpStart http) :=
  ⟨rfl, Nat.le_refl _, rfl, by simp [HttpScan.Phase, httpStart]⟩

/-- A character that the state stays on adds to what was read. -/
theorem HttpScan.Phase.stay {p : List UInt8} {c : UInt8} {s : HttpScan} (h : s.Phase p)
    (hstay : s.state.stays c = true) : s.Phase (p ++ [c]) := by
  unfold HttpScan.Phase at h ⊢
  -- only four states say anything of the bytes behind them
  cases hst : s.state with
  | init =>
      simp only [hst] at h hstay ⊢
      intro d hd
      rcases List.mem_append.mp hd with hd | hd
      · exact h d hd
      · rwa [List.mem_singleton.mp hd]
  | op =>
      simp only [hst] at h hstay ⊢
      obtain ⟨lead, op, rfl, hlead, hne, hfirst, hop, hword⟩ := h
      refine ⟨lead, op ++ [c], by simp, hlead, by simp, ?_, ?_, hword⟩
      · rwa [List.head?_append_of_ne_nil _ hne]
      · intro d hd
        rcases List.mem_append.mp hd with hd | hd
        · exact hop d hd
        · rwa [List.mem_singleton.mp hd]
  | space =>
      simp only [hst] at h hstay ⊢
      refine ⟨h.1, fun hnext => ?_⟩
      obtain ⟨lead, version, blank, gap, v, rfl, hlead, hne, h13, hver, hv, hpre, hb, hgap⟩ :=
        h.2 hnext
      refine ⟨lead, version, blank, gap ++ [c], v, by simp, hlead, hne, h13, hver, hv, hpre, hb, ?_⟩
      intro d hd
      rcases List.mem_append.mp hd with hd | hd
      · exact hgap d hd
      · rw [List.mem_singleton.mp hd]
        simpa [HttpState.stays, or_comm] using hstay
  | responseCode =>
      simp only [hst] at h hstay ⊢
      obtain ⟨front, code, rfl, hfront, hne, hfirst, hcode, hword⟩ := h
      refine ⟨front, code ++ [c], by simp, hfront, by simp, ?_, ?_, hword⟩
      · rwa [List.head?_append_of_ne_nil _ hne]
      · intro d hd
        rcases List.mem_append.mp hd with hd | hd
        · exact hcode d hd
        · rwa [List.mem_singleton.mp hd]
  | _ => trivial

/-- Where a phase is left, no state behind it but the status code says anything. -/
theorem HttpScan.Leads.phase {s t : HttpScan} {p : List UInt8} (h : s.Leads t)
    (hcode : t.state ≠ .responseCode) : t.Phase p := by
  unfold HttpScan.Phase
  cases ht : t.state with
  | init => exact absurd ht h.init
  | op => exact absurd ht h.op
  | space => exact ⟨(h.space ht).1, fun hnext => absurd hnext (h.space ht).2⟩
  | responseCode => exact absurd ht hcode
  | _ => trivial

/-- The character that ends a status code leaves that state. -/
theorem httpSwitch_responseCode_ne {buf : List UInt8} {c : UInt8} {s : HttpScan}
    (hst : s.state = .responseCode) (hstay : s.state.stays c = false) :
    (httpSwitch buf (isBlank c) (isNl c) s).state ≠ .responseCode := by
  have hterm : isBlank c = true ∨ isNl c = true := by
    rw [hst] at hstay
    by_contra hno
    simp_all [HttpState.stays]
  cases hnum : strtoul (buf.drop s.word) with
  | mk v k =>
      cases k with
      | zero =>
          rw [httpSwitch_responseCode_error hst hterm hnum]
          simp [HttpScan.parseError]
      | succ k =>
          rw [httpSwitch_responseCode hst hterm hnum (by simp)]
          split <;> simp

/-! ## One character -/

section Step

variable {p r : List UInt8} {c : UInt8} {s : HttpScan}

theorem cur_append (hptr : s.ptr = p.length) : s.cur (p ++ c :: r) = c :=
  HttpScan.cur_eq (r := r) (by rw [hptr, List.drop_left])

/-- What the character `c` behind `p` must leave for the next one. -/
structure HttpScan.Passes (p : List UInt8) (c : UInt8) (t : HttpScan) : Prop where
  ptr : t.ptr = p.length
  word_le : t.word ≤ p.length
  back : t.back = false
  phase : t.stopped = false → t.Phase (p ++ [c])

/-- The end of a method. -/
theorem httpSwitch_op_passes (hs : s.Consumed p) (hst : s.state = .op)
    (hstay : s.state.stays c = false) :
    HttpScan.Passes p c (httpSwitch (p ++ c :: r) (isBlank c) (isNl c) s) := by
  have hphase := hs.phase
  rw [HttpScan.Phase, hst] at hphase
  obtain ⟨lead, op, rfl, hlead, hne, hfirst, hop, hword⟩ := hphase
  have htok : s.token ((lead ++ op) ++ c :: r) = op := by
    refine HttpScan.token_eq (r := c :: r) ?_ (by rw [hs.ptr, hword, List.length_append])
    rw [hword, List.append_assoc, List.drop_left]
  have hptr := hs.ptr
  have hbase := hs.ptr ▸ hs.word_le
  simp only [httpSwitch, hst, HttpScan.caseOp, htok]
  cases hn : isNl c with
  | true =>
      rw [if_pos rfl]
      exact ⟨hptr, hbase, hs.back, fun h => absurd h (by simp [HttpScan.stopped, HttpScan.parseError])⟩
  | false =>
      have hb : isBlank c = true := by
        cases hb : isBlank c with
        | true => rfl
        | false => exact absurd (stays_op.mpr ⟨hb, hn⟩) (by rw [hst] at hstay; simp [hstay])
      rw [if_neg (by simp), if_pos hb]
      cases hv : httpStrdup op with
      | none => exact ⟨hptr, hbase, hs.back, fun h => absurd h (by simp [HttpScan.stopped])⟩
      | some v =>
          dsimp only
          cases hpre : strncmpEq v (bytes "HTTP/") 5 with
          | true =>
              refine ⟨hptr, hbase, hs.back, fun _ => ?_⟩
              refine ⟨trivial, fun _ => ⟨lead, op, c, [], v, by simp, ?_, hne, ?_, ?_, hv, hpre, hb,
                by simp⟩⟩
              · exact fun d hd => stays_init.mp (hlead d hd)
              · intro h13
                exact absurd (hfirst 13 h13) (by simp [HttpState.stays])
              · exact fun d hd => stays_op.mp (hop d hd)
          | false =>
              refine ⟨hptr, hbase, hs.back, fun _ => ?_⟩
              exact ⟨trivial, fun h => absurd h (by simp)⟩

/-- A character in a state behind the method, whether it ends a token or not. -/
theorem httpSwitch_follows_passes (hst : s.state.follows) (hptr : s.ptr = p.length)
    (hword : s.word ≤ s.ptr) (hback : s.back = false)
    (hphase : s.state.stays c = true → s.Phase (p ++ [c])) (hc : c ≠ 13) :
    HttpScan.Passes p c (httpSwitch (p ++ c :: r) (isBlank c) (isNl c) s) := by
  cases hstay : s.state.stays c with
  | true =>
      rw [httpSwitch_stay (cur_append hptr) hc hstay]
      exact ⟨hptr, by omega, hback, fun _ => hphase hstay⟩
  | false =>
      have h : s.Leads (httpSwitch (p ++ c :: r) (isBlank c) (isNl c) s) := httpSwitch_leads hst
      refine ⟨h.ptr.trans hptr, ?_, h.back.trans hback, fun _ => h.phase ?_⟩
      · rcases h.word with hw | hw <;> omega
      · exact fun hcode => httpSwitch_responseCode_ne (h.code hcode) hstay hcode

/-- A round that does not step back. -/
theorem httpRound_passes (hs : s.Consumed p)
    (hst : s.state = .init ∨ s.state = .space → s.state.stays c = true)
    (hstop : s.stopped = false) (hc : c ≠ 13) :
    HttpScan.Passes p c (httpRound (p ++ c :: r) s) := by
  have hkey : ∀ s' : HttpScan, s'.Consumed p → s'.state = s.state →
      HttpScan.Passes p c (httpSwitch (p ++ c :: r) (isBlank c) (isNl c) s') := by
    intro s' hs' hst'
    cases hstay : s'.state.stays c with
    | true =>
        rw [httpSwitch_stay (cur_append hs'.ptr) hc hstay]
        exact ⟨hs'.ptr, hs'.ptr ▸ hs'.word_le, hs'.back, fun _ => hs'.phase.stay hstay⟩
    | false =>
        by_cases hop : s'.state = .op
        · exact httpSwitch_op_passes hs' hop hstay
        · have hfollows : s'.state.follows := by
            rw [hst'] at hstay hop ⊢
            rw [HttpScan.stopped] at hstop
            cases h : s.state <;> simp_all [HttpState.follows]
          exact httpSwitch_follows_passes hfollows hs'.ptr hs'.word_le hs'.back hs'.phase.stay hc
  unfold httpRound
  rw [cur_append hs.ptr]
  dsimp only
  split
  · exact hkey { s with line := s.line + 1, linePtr := s.ptr }
      ⟨hs.ptr, hs.word_le, hs.back, hs.phase⟩ rfl
  · exact hkey s hs rfl

/-- The second round, in the state `st` behind a gap that `c` ends. -/
theorem httpRound_enter_passes {st : HttpState} (hs : s.Consumed p)
    (hst : s.state = .init ∧ st = .op ∨ s.state = .space ∧ s.stateNext = st)
    (hgap : s.state.stays c = false) (hc : c ≠ 13) (l q : Nat) :
    HttpScan.Passes p c (httpRound (p ++ c :: r)
      { s with state := st, word := s.ptr, line := l, linePtr := q }) := by
  have hphase := hs.phase
  -- a word that starts here is the one character
  have henter : ∀ l q, st.stays c = true → HttpScan.Phase (p ++ [c])
      { s with state := st, word := s.ptr, line := l, linePtr := q } := by
    intro l q hstay
    unfold HttpScan.Phase at hphase ⊢
    rcases hst with ⟨hs0, rfl⟩ | ⟨hs0, rfl⟩
    · rw [hs0] at hphase hgap
      refine ⟨p, [c], rfl, hphase, by simp, ?_, ?_, hs.ptr⟩
      · simpa using hgap
      · simpa using hstay
    · rw [hs0] at hphase hgap
      cases hnext : s.stateNext with
      | responseCode =>
          exact ⟨p, [c], rfl, hphase.2 hnext, by simp, by simpa using hgap,
            by simpa [hnext] using hstay, hs.ptr⟩
      | init => exact absurd hphase.1 (by simp [hnext, HttpState.follows])
      | space => exact absurd hphase.1 (by simp [hnext, HttpState.follows])
      | op => exact absurd hphase.1 (by simp [hnext, HttpState.follows])
      | _ => trivial
  have hkey : ∀ l q, HttpScan.Passes p c (httpSwitch (p ++ c :: r) (isBlank c) (isNl c)
      { s with state := st, word := s.ptr, line := l, linePtr := q }) := by
    intro l q
    cases hstay : st.stays c with
    | true =>
        rw [httpSwitch_stay
          (s := { s with state := st, word := s.ptr, line := l, linePtr := q })
          (cur_append hs.ptr) hc hstay]
        exact ⟨hs.ptr, Nat.le_of_eq hs.ptr, hs.back, fun _ => henter l q hstay⟩
    | false =>
        have hfollows : st.follows := by
          rcases hst with ⟨hs0, rfl⟩ | ⟨hs0, rfl⟩
          · -- the first character of a method is one that a method goes on with
            rw [hs0] at hgap
            have hop : isBlank c = false ∧ isNl c = false := by
              simpa [HttpState.stays, hc] using hgap
            exact absurd (stays_op.mpr hop) (by simp [hstay])
          · rw [HttpScan.Phase, hs0] at hphase
            exact hphase.1
        exact httpSwitch_follows_passes hfollows hs.ptr (Nat.le_refl _) hs.back (henter l q) hc
  unfold httpRound
  rw [cur_append (s := { s with state := st, word := s.ptr, line := l, linePtr := q }) hs.ptr]
  dsimp only
  split
  · exact hkey (l + 1) s.ptr
  · exact hkey l q

/-- The first round goes on to the next character, or steps back at the end of a gap. -/
theorem httpRound_cases (hs : s.Consumed p) (hstop : s.stopped = false) (hc : c ≠ 13) :
    HttpScan.Passes p c (httpRound (p ++ c :: r) s) ∨
      ∃ st l q, (s.state = .init ∧ st = .op ∨ s.state = .space ∧ s.stateNext = st) ∧
        s.state.stays c = false ∧
        httpRound (p ++ c :: r) s
          = { s with state := st, word := s.ptr, back := true, line := l, linePtr := q } := by
  by_cases hgap : (s.state = .init ∨ s.state = .space) ∧ s.state.stays c = false
  · obtain ⟨st, hst⟩ : ∃ st, s.state = .init ∧ st = .op ∨ s.state = .space ∧ s.stateNext = st :=
      hgap.1.elim (fun h => ⟨_, Or.inl ⟨h, rfl⟩⟩) (fun h => ⟨_, Or.inr ⟨h, rfl⟩⟩)
    obtain ⟨l, q, hround⟩ := httpRound_eq (t := { s with state := st, word := s.ptr, back := true })
      (cur_append (r := r) hs.ptr)
      fun l q => httpSwitch_enter (s := { s with line := l, linePtr := q }) hst hgap.2
    exact Or.inr ⟨st, l, q, hst, hgap.2, hround⟩
  · exact Or.inl (httpRound_passes hs (fun h => by simpa [h] using hgap) hstop hc)

/-- A character that the loop reads adds to what was read. -/
theorem httpChar_passes (hs : s.Consumed p) (hstop : s.stopped = false) :
    HttpScan.Passes p c (httpChar (p ++ c :: r) s) := by
  rw [httpChar, cur_append hs.ptr]
  by_cases hc : c = 13
  · rw [if_pos hc]
    exact ⟨hs.ptr, hs.ptr ▸ hs.word_le, hs.back,
      fun _ => hs.phase.stay (by simp [hc, HttpState.stays])⟩
  · rw [if_neg hc]
    dsimp only
    rcases httpRound_cases (r := r) hs hstop hc with hpass | ⟨st, l, q, hst, hgap, hround⟩
    · rw [if_neg (by simp [hpass.back])]
      exact hpass
    · have hsecond := httpRound_enter_passes (r := r) hs hst hgap hc l q
      rw [hround]
      simp only [if_true]
      rwa [← hs.back]

/-- A step that does not stop consumes its character. -/
theorem httpStep_consumed (hs : s.Consumed p) (hstop : s.stopped = false)
    (hnext : (httpStep (p ++ c :: r) s).stopped = false) :
    (httpStep (p ++ c :: r) s).Consumed (p ++ [c]) := by
  have h := httpChar_passes (r := r) (c := c) hs hstop
  refine ⟨?_, ?_, h.back, h.phase hnext⟩
  · simp [httpStep, hs.ptr]
  · exact h.word_le.trans (by simp [httpStep, hs.ptr])

/-- The loop looks at a character at most twice: the round after `ptr--` does not step back. -/
theorem httpChar_back (hs : s.Consumed p) (hstop : s.stopped = false) :
    (httpChar (p ++ c :: r) s).back = false :=
  (httpChar_passes hs hstop).back

/-! ## Where the scan looks -/

/-- `strtoul` is called at `c` and finds nothing but space before it. -/
def HttpScan.Overruns (p : List UInt8) (c : UInt8) (s : HttpScan) : Prop :=
  s.state = .responseCode ∧ (isBlank c = true ∨ isNl c = true) ∧
    ∀ d ∈ p.drop s.word, isspace d = true

theorem isspace_of_blank_or_nl (h : isBlank c = true ∨ isNl c = true) : isspace c = true := by
  have : c = 32 ∨ c = 9 ∨ c = 10 := by simpa [isBlank, isNl, or_assoc] using h
  rcases this with rfl | rfl | rfl <;> decide

/-- The token read so far is a piece of what is consumed. -/
theorem token_append (hptr : s.ptr = p.length) (hword : s.word ≤ s.ptr) :
    s.token (p ++ c :: r) = p.drop s.word := by
  refine HttpScan.token_eq (r := c :: r) ?_ ?_
  · rw [List.drop_append_of_le_length (by omega)]
  · rw [List.length_drop]
    omega

/-- A round looks at nothing behind the character, unless it overruns. -/
theorem httpRound_local (r r' : List UInt8) (hptr : s.ptr = p.length) (hword : s.word ≤ s.ptr)
    (h : ¬ s.Overruns p c) : httpRound (p ++ c :: r) s = httpRound (p ++ c :: r') s := by
  have hkey : ∀ s' : HttpScan, s'.ptr = s.ptr → s'.word = s.word → s'.state = s.state →
      httpSwitch (p ++ c :: r) (isBlank c) (isNl c) s'
        = httpSwitch (p ++ c :: r') (isBlank c) (isNl c) s' := by
    intro s' hp hw hst
    have htok : ∀ r, s'.token (p ++ c :: r) = p.drop s'.word := fun r =>
      token_append (hp.trans hptr) (by omega)
    have hcur : ∀ r, s'.cur (p ++ c :: r) = c := fun r => cur_append (hp.trans hptr)
    by_cases hcode : s'.state = .responseCode
    · by_cases hterm : isBlank c = true ∨ isNl c = true
      · -- something before `c` is no space, so `strtoul` stops at `c`
        have hnum : ∀ r, strtoul ((p ++ c :: r).drop s'.word) = strtoul (p.drop s'.word) := by
          intro r
          rw [List.drop_append_of_le_length (by omega)]
          refine strtoul_append_space ?_ (isspace_of_blank_or_nl hterm) r
          by_contra hall
          refine h ⟨hst ▸ hcode, hterm, fun d hd => ?_⟩
          by_contra hd'
          exact hall ⟨d, hw ▸ hd, by simpa using hd'⟩
        simp only [httpSwitch, hcode, HttpScan.caseResponseCode, hnum]
      · have hno : (isBlank c || isNl c) = false := by simpa using hterm
        simp only [httpSwitch, hcode, HttpScan.caseResponseCode, hno, Bool.false_eq_true, if_false]
    · unfold httpSwitch
      cases hs : s'.state with
      | responseCode => exact absurd hs hcode
      | _ =>
          simp only [HttpScan.caseOp, HttpScan.caseResponseMessage, HttpScan.caseUri,
            HttpScan.caseVersion, HttpScan.caseHeader, HttpScan.caseHeaderName, htok, hcur]
  unfold httpRound
  rw [cur_append hptr, cur_append hptr]
  dsimp only
  split
  · exact hkey { s with line := s.line + 1, linePtr := s.ptr } rfl rfl rfl
  · exact hkey s rfl rfl rfl

/-- The scan overruns at `c`, in the state it is in or in the one behind the gap that `c` ends. -/
def HttpScan.CharOverruns (p : List UInt8) (c : UInt8) (s : HttpScan) : Prop :=
  s.Overruns p c ∨ s.state = .space ∧ s.stateNext = .responseCode ∧ isNl c = true

/-- A character that does not overrun is taken without a look at what follows it. -/
theorem httpChar_local (r r' : List UInt8) (hs : s.Consumed p) (hstop : s.stopped = false)
    (h : ¬ s.CharOverruns p c) : httpChar (p ++ c :: r) s = httpChar (p ++ c :: r') s := by
  have hfirst := httpRound_local r r' hs.ptr hs.word_le fun h' => h (Or.inl h')
  rw [httpChar, httpChar, cur_append hs.ptr, cur_append hs.ptr]
  by_cases hc : c = 13
  · rw [if_pos hc, if_pos hc]
  · rw [if_neg hc, if_neg hc, ← hfirst]
    dsimp only
    rcases httpRound_cases (r := r) hs hstop hc with hpass | ⟨st, l, q, hst, hgap, hround⟩
    · rw [if_neg (by simp [hpass.back]), if_neg (by simp [hpass.back])]
    · rw [hround]
      simp only [if_true]
      refine httpRound_local r r' hs.ptr (Nat.le_refl _) fun hover => h (Or.inr ?_)
      obtain ⟨hcode, hterm, _⟩ := hover
      have hst' : st = .responseCode := hcode
      rcases hst with ⟨_, hop⟩ | ⟨hspace, hnext⟩
      · rw [hop] at hst'
        exact absurd hst' (by simp)
      · refine ⟨hspace, hnext.trans hst', hterm.resolve_left fun hb => ?_⟩
        rw [hspace] at hgap
        rw [stays_space.mpr (Or.inl hb)] at hgap
        exact absurd hgap (by simp)

/-- The scan overruns only where the bytes have a blank status code. -/
theorem httpBlankCode_of_overruns (hs : s.Consumed p) (h : s.CharOverruns p c)
    (rest : List UInt8) : HttpBlankCode (p ++ c :: rest) := by
  have hphase := hs.phase
  rcases h with ⟨hst, hterm, hall⟩ | ⟨hst, hnext, hnl⟩
  · rw [HttpScan.Phase, hst] at hphase
    obtain ⟨front, code, rfl, hfront, hne, hfirst, hcode, hword⟩ := hphase
    rw [hword, List.drop_left] at hall
    refine ⟨front, code, c, rest, by simp, hfront, fun d hd => ?_, fun h13 => ?_, ?_⟩
    · exact ⟨hall d hd, stays_op.mp (hcode d hd)⟩
    · exact absurd (hfirst 13 h13) (by simp [HttpState.stays])
    · exact hterm.elim (fun hb => Or.inr ⟨hb, hne⟩) Or.inl
  · rw [HttpScan.Phase, hst] at hphase
    exact ⟨p, [], c, rest, rfl, hphase.2 hnext, by simp, by simp, Or.inl hnl⟩

end Step

/-! ## Runs -/

section Feeds

variable {s : List UInt8}

theorem take_cons_drop {k : Nat} (h : k < s.length) :
    s.take k ++ s[k] :: s.drop (k + 1) = s := by
  rw [← List.drop_eq_getElem_cons h, List.take_append_drop]

/-- Memory with the bytes up to `n`, seen from an earlier place. -/
theorem take_append_split {k n : Nat} (h : k < s.length) (hkn : k < n) (r : List UInt8) :
    ∃ r', s.take n ++ r = s.take k ++ s[k] :: r' := by
  have hk : k < (s.take n).length := by
    rw [List.length_take]
    omega
  refine ⟨(s.take n).drop (k + 1) ++ r, ?_⟩
  have hsplit := take_cons_drop hk
  rw [List.take_take, Nat.min_eq_left (by omega), List.getElem_take] at hsplit
  conv_lhs => rw [← hsplit]
  simp

/-- What a running loop has read. -/
theorem httpLoop_consumed (http : HttpHeader) {n : Nat} (hn : n ≤ s.length)
    (hstop : (httpLoop s n (httpStart http)).stopped = false) :
    (httpLoop s n (httpStart http)).Consumed (s.take n) := by
  rw [httpLoop_eq_scan] at hstop ⊢
  refine scan_inv (P := fun k t => t.stopped = false → t.Consumed (s.take k))
    (fun _ => httpScan_consumed_start http) ?_ hstop hstop
  intro k t hk hrun hP hnext
  have hlt : k < s.length := by omega
  have hstep := httpStep_consumed (c := s[k]) (r := s.drop (k + 1)) (hP hrun) hrun
  rw [take_cons_drop hlt] at hstep
  rw [List.take_succ_eq_append_getElem hlt]
  exact hstep hnext

/-- Without a blank status code, the loop looks at nothing behind its bytes. -/
theorem httpLoop_local (hblank : ¬ HttpBlankCode s) (http : HttpHeader) {n : Nat}
    (hn : n ≤ s.length) (r : List UInt8) :
    httpLoop (s.take n ++ r) n (httpStart http) = httpLoop s n (httpStart http) := by
  rw [httpLoop_eq_scan, httpLoop_eq_scan]
  refine (scan_congr fun k hk hrun => ?_).symm
  rw [← httpLoop_eq_scan] at hrun ⊢
  have hlt : k < s.length := by omega
  have hcons := httpLoop_consumed http (by omega : k ≤ s.length) hrun
  obtain ⟨r', htake⟩ := take_append_split hlt hk r
  have hchar := httpChar_local (c := s[k]) (s.drop (k + 1)) r' hcons hrun fun hover =>
    hblank (take_cons_drop hlt ▸ httpBlankCode_of_overruns hcons hover (s.drop (k + 1)))
  rw [take_cons_drop hlt, ← htake] at hchar
  rw [httpStep, httpStep, hchar]

theorem httpHeaderParse_local (hblank : ¬ HttpBlankCode s) {n : Nat} (hn : n ≤ s.length)
    (http : HttpHeader) (r : List UInt8) :
    httpHeaderParse http (s.take n ++ r) n = httpFinish (httpLoop s n (httpStart http)) := by
  rw [httpHeaderParse, httpLoop_local hblank http hn]

/-- The parser clears what it is given. -/
theorem httpStart_eq (http http' : HttpHeader) : httpStart http = httpStart http' := rfl

/-- Once a call has an outcome, calls on more bytes have the same. -/
theorem httpFinish_stable (http : HttpHeader) {m n : Nat} (hmn : m ≤ n)
    (h : httpPending (httpFinish (httpLoop s m (httpStart http))) = false) :
    httpFinish (httpLoop s n (httpStart http)) = httpFinish (httpLoop s m (httpStart http)) := by
  have hstop : (httpLoop s m (httpStart http)).stopped = true := by
    by_contra hrun
    simp only [HttpScan.stopped, Bool.not_eq_true, decide_eq_false_iff_not, not_or] at hrun
    obtain ⟨hdone, herror, hfault⟩ := hrun
    rw [httpFinish, if_neg (by simp [hfault]), if_neg herror, if_pos hdone] at h
    exact absurd h (by simp [httpPending])
  rw [httpLoop_eq_scan] at hstop ⊢
  rw [httpLoop_eq_scan, scan_of_le hstop hmn]

/-- Every call of a feeding is inside the text. -/
theorem HttpFeeding.le {call calls} (h : HttpFeeding s call calls) {j : Nat × List UInt8}
    (hj : j ∈ call :: calls) : j.1 ≤ s.length := by
  obtain ⟨hgrow, hlast⟩ := h
  have hsplit := List.dropLast_append_getLast (List.cons_ne_nil call calls)
  rw [← hsplit] at hgrow hj
  rw [← hlast]
  rcases List.mem_append.mp hj with hj | hj
  · exact Nat.le_of_lt ((List.pairwise_append.mp hgrow).2.2 j hj _ (List.mem_singleton_self _))
  · rw [List.mem_singleton.mp hj]

/-- However a text is fed, the result is the one of the whole text. -/
theorem httpFeed_eq (hblank : ¬ HttpBlankCode s) (http : HttpHeader) {call calls}
    (h : HttpFeeding s call calls) :
    httpFeed s http call calls = httpFinish (httpLoop s s.length (httpStart http)) := by
  refine feed_eq Prod.fst (R := fun n => httpFinish (httpLoop s n (httpStart http)))
    (fun j hj => h.le hj) h.2 ?_ ?_
  · exact fun http' j hj => httpHeaderParse_local hblank (h.le hj) http' j.2
  · exact fun m hm hpend => httpFinish_stable http hm hpend

/-- A text whose code is not blank is parsed the same in every feeding. -/
theorem httpIndependent_of_not_blankCode (hblank : ¬ HttpBlankCode s) : HttpIndependent s where
  behind n hn http http' r r' := by
    rw [httpHeaderParse_local hblank hn, httpHeaderParse_local hblank hn, httpStart_eq http http']
  verdict http call calls call' calls' h h' := by
    rw [httpFeed_eq hblank http h, httpFeed_eq hblank http h']
  header http call calls call' calls' h h' r hr := by
    rw [httpFeed_eq hblank http h']
    rwa [httpFeed_eq hblank http h] at hr

/-! ## A blank status code -/

/-- The loop gets to the status code, whatever is behind it. -/
theorem httpRuns_statusStart {front : List UInt8} (h : HttpStatusStart front)
    (tail : List UInt8) (http : HttpHeader) :
    ∃ t, HttpRuns (front ++ tail) (httpStart http) front.length t ∧ t.Ready ∧ t.state = .space ∧
      t.stateNext = .responseCode ∧ t.ptr = front.length := by
  obtain ⟨lead, version, blank, gap, v, rfl, hlead, hne, h13, hver, hv, hpre, hb, hgap⟩ := h
  set buf := lead ++ (version ++ blank :: gap) ++ tail with hbuf
  have hversion : buf.drop lead.length = version ++ blank :: (gap ++ tail) := by simp [hbuf]
  have hnl : isNl blank = false := by
    rcases (by simpa [isBlank] using hb : blank = 32 ∨ blank = 9) with rfl | rfl <;> decide
  have hfirst : ∀ c, version.head? = some c → HttpState.init.stays c = false := by
    intro c hc
    have hver' := hver c (List.mem_of_mem_head? hc)
    have hc13 : c ≠ 13 := fun h => h13 (h ▸ hc)
    simp [HttpState.stays, hver', hc13]
  -- the word in the place of a method, and the blank that makes it a version
  have htext : buf.drop (httpStart http).ptr = lead ++ (version ++ blank :: (gap ++ tail)) := by
    simp [hbuf, httpStart]
  have hop := httpRuns_word (s := httpStart http) (e := .op)
    (t := { httpStart http with
      http := { httpHeaderClear http with op := none, httpVersion := some v, opCode := .response }
      word := 0 + lead.length, state := .space, stateNext := .responseCode
      ptr := 0 + lead.length + version.length })
    ⟨rfl, rfl⟩ (Or.inl ⟨rfl, rfl⟩) (by simp) htext
    (fun c hc => stays_init.mpr (hlead c hc)) hne hfirst (fun c hc => stays_op.mpr (hver c hc))
    (fun h13 => by simp [h13, isBlank] at hb)
    (fun l q htok => httpSwitch_op_response rfl hb hnl htok hv hpre)
    rfl
  have hrest : ∀ l q, HttpRuns buf
      { httpStart http with
        http := { httpHeaderClear http with op := none, httpVersion := some v, opCode := .response }
        word := 0 + lead.length, state := .space, stateNext := .responseCode
        ptr := 0 + lead.length + version.length + 1, line := l, linePtr := q } gap.length
      { httpStart http with
        http := { httpHeaderClear http with op := none, httpVersion := some v, opCode := .response }
        word := 0 + lead.length, state := .space, stateNext := .responseCode
        ptr := 0 + lead.length + version.length + 1 + gap.length } := fun l q =>
    httpRuns_stay rfl rfl (r := tail)
      (drop_add_length (x := [blank]) (drop_add_length (x := version) (by simp [hversion])))
      fun c hc => stays_space.mpr (hgap c hc)
  have hrun := hop.trans hrest
  have hlen : lead.length + version.length + 1 + gap.length
      = (lead ++ (version ++ blank :: gap)).length := by
    simp only [List.length_append, List.length_cons]
    omega
  rw [hlen] at hrun
  exact ⟨_, hrun, ⟨rfl, rfl⟩, rfl, rfl, by rw [← hlen]; simp⟩

/-- The character that ends the status code is looked at with `word` at the start of the code. -/
theorem httpLoop_blankCode {front code : List UInt8} {t : UInt8} (hfront : HttpStatusStart front)
    (hcode : ∀ c ∈ code, isspace c = true ∧ isBlank c = false ∧ isNl c = false)
    (h13 : code.head? ≠ some 13) (ht : isNl t = true ∨ isBlank t = true ∧ code ≠ [])
    (tail : List UInt8) (http : HttpHeader) :
    ∃ s p, s.state = .responseCode ∧ s.word = front.length ∧ s.fault = false ∧
      httpLoop (front ++ (code ++ t :: tail)) (front.length + (code.length + 1)) (httpStart http)
        = { httpSwitch (front ++ (code ++ t :: tail)) (isBlank t) (isNl t) s with ptr := p } := by
  have hterm : isBlank t = true ∨ isNl t = true := ht.elim Or.inr fun h => Or.inl h.1
  have ht13 : t ≠ 13 := by
    rintro rfl
    exact absurd hterm (by decide)
  obtain ⟨u, hu, hready, hspace, hnext, hptr⟩ :=
    httpRuns_statusStart hfront (code ++ t :: tail) http
  obtain ⟨l, q, hloop⟩ := hu.exists_line
  rw [httpLoop_add, hloop]
  by_cases hne : code = []
  · -- the gap goes on to the end of the line
    subst hne
    have hnl : isNl t = true := ht.resolve_right fun h => h.2 rfl
    have hstay : u.state.stays t = false := by
      rw [hspace, Bool.eq_false_iff, Ne, stays_space]
      intro h
      rcases h with h | h
      · simp only [isBlank, isNl, Bool.or_eq_true, beq_iff_eq] at h hnl
        rw [hnl] at h
        exact absurd h (by decide)
      · exact ht13 h
    have hend : (front ++ ([] ++ t :: tail)).drop u.ptr = t :: tail := by simp [hptr]
    obtain ⟨l', q', hone⟩ := httpLoop_one_twice (s := { u with line := l, linePtr := q })
      (e := .responseCode) hready (Or.inr ⟨hspace, hnext⟩) hend hstay
    exact ⟨{ u with state := .responseCode, word := u.ptr, line := l', linePtr := q' }, u.ptr + 1,
      rfl, hptr, hready.2, hone⟩
  · have hfirst : ∀ c, code.head? = some c → u.state.stays c = false := by
      intro c hc
      have hc' := hcode c (List.mem_of_mem_head? hc)
      rw [hspace, Bool.eq_false_iff, Ne, stays_space]
      rintro (h | h)
      · rw [hc'.2.1] at h
        exact absurd h (by simp)
      · exact h13 (h ▸ hc)
    have hword : (front ++ (code ++ t :: tail)).drop u.ptr = [] ++ (code ++ t :: tail) := by
      simp [hptr]
    have hend : (front ++ (code ++ t :: tail)).drop (u.ptr + 0 + code.length) = t :: tail :=
      drop_add_length (drop_add_length hword)
    have htok := httpRuns_token (s := { u with line := l, linePtr := q }) (e := .responseCode)
      hready (Or.inr ⟨hspace, hnext⟩) (by simp) hword (by simp) hne
      hfirst fun c hc => stays_op.mpr (hcode c hc).2
    obtain ⟨l', q', hloop'⟩ := htok.exists_line
    rw [List.length_nil, Nat.zero_add] at hloop'
    rw [httpLoop_add, hloop']
    obtain ⟨l'', q'', hone⟩ := httpLoop_one
      (s := { u with
        state := .responseCode, word := u.ptr + 0, ptr := u.ptr + 0 + code.length
        line := l', linePtr := q' })
      (HttpScan.Ready.stopped hready (by simp) (by simp)) hend
      ht13 fun l q => (httpSwitch_leads (s := { u with
        state := .responseCode, word := u.ptr + 0, ptr := u.ptr + 0 + code.length
        line := l, linePtr := q }) trivial).back.trans hready.1
    exact ⟨{ u with
        state := .responseCode, word := u.ptr + 0, ptr := u.ptr + 0 + code.length
        line := l'', linePtr := q'' }, u.ptr + 0 + code.length + 1,
      rfl, hptr, hready.2, hone⟩

section BlankCode

variable {front code : List UInt8} {t : UInt8} (hfront : HttpStatusStart front)
  (hcode : ∀ c ∈ code, isspace c = true ∧ isBlank c = false ∧ isNl c = false)
  (h13 : code.head? ≠ some 13) (ht : isNl t = true ∨ isBlank t = true ∧ code ≠ [])
include hfront hcode h13 ht

omit hfront h13 in
/-- `strtoul` skips the code with its line end. -/
theorem strtoul_blankCode (front : List UInt8) {c : UInt8} (hc : isspace c = false)
    (tail : List UInt8) :
    strtoul ((front ++ (code ++ t :: c :: tail)).drop front.length)
      = (strtoulSigned (c :: tail)).elim (0, 0) fun r => (r.1, (code ++ [t]).length + r.2) := by
  have hspaces : ∀ d ∈ code ++ [t], isspace d = true := by
    intro d hd
    rcases List.mem_append.mp hd with hd | hd
    · exact (hcode d hd).1
    · rw [List.mem_singleton.mp hd]
      exact isspace_of_blank_or_nl (ht.elim Or.inr fun h => Or.inl h.1)
  have h := strtoul_spaces_append _ hspaces hc tail
  rw [List.append_assoc, List.singleton_append] at h
  rw [List.drop_left, h]

/-- A digit behind the line is taken for the status code, and the header is incomplete. -/
theorem httpHeaderParse_blankCode_digit (http : HttpHeader) :
    httpHeaderParse http (front ++ (code ++ t :: [53])) (front.length + (code.length + 1))
      = some (httpHeaderClear http, 0) := by
  obtain ⟨s, p, hst, hword, hfault, hloop⟩ :=
    httpLoop_blankCode hfront hcode h13 ht [53] http
  have hterm : isBlank t = true ∨ isNl t = true := ht.elim Or.inr fun h => Or.inl h.1
  have hnum := strtoul_blankCode hcode ht front (c := 53) (by decide) []
  rw [← hword] at hnum
  have hfive : strtoulSigned [53] = some (5, 1) := by decide
  rw [hfive, Option.elim_some] at hnum
  rw [httpHeaderParse, hloop, httpSwitch_responseCode hst hterm hnum (by simp)]
  cases hn : isNl t <;> simp [httpFinish, hfault, httpHeaderClear]

/-- A letter behind the line makes the status code an error. -/
theorem httpHeaderParse_blankCode_letter (http : HttpHeader) :
    ∃ h, httpHeaderParse http (front ++ (code ++ t :: [88])) (front.length + (code.length + 1))
      = some (h, -4) := by
  obtain ⟨s, p, hst, hword, hfault, hloop⟩ :=
    httpLoop_blankCode hfront hcode h13 ht [88] http
  have hterm : isBlank t = true ∨ isNl t = true := ht.elim Or.inr fun h => Or.inl h.1
  have hnum := strtoul_blankCode hcode ht front (c := 88) (by decide) []
  have hnone : strtoulSigned [88] = none := by decide
  rw [← hword, hnone, Option.elim_none] at hnum
  rw [httpHeaderParse, hloop, httpSwitch_responseCode_error hst hterm hnum]
  simp [httpFinish, HttpScan.parseError, hfault, hst, HttpState.code]

end BlankCode

/-- What is behind a blank status code decides whether the parser goes on or fails. -/
theorem not_httpIndependent_of_blankCode (h : HttpBlankCode s) : ¬ HttpIndependent s := by
  obtain ⟨front, code, t, rest, rfl, hfront, hcode, h13, ht⟩ := h
  intro hind
  have htake : (front ++ (code ++ t :: rest)).take (front.length + (code.length + 1))
      = front ++ (code ++ [t]) := by
    simp [List.take_append, List.take_of_length_le]
  have hbehind := hind.behind (front.length + (code.length + 1)) (by simp) default default [53] [88]
  obtain ⟨h, hletter⟩ := httpHeaderParse_blankCode_letter hfront hcode h13 ht default
  rw [htake] at hbehind
  simp only [List.append_assoc, List.cons_append, List.nil_append] at hbehind
  rw [httpHeaderParse_blankCode_digit hfront hcode h13 ht default, hletter] at hbehind
  simp at hbehind

/-- The parser depends on the bytes alone exactly when no status code is blank. -/
theorem httpHeaderParse_independent_iff (s : List UInt8) :
    HttpIndependent s ↔ ¬ HttpBlankCode s :=
  ⟨fun h hblank => not_httpIndependent_of_blankCode hblank h, httpIndependent_of_not_blankCode⟩

/-- A status line that ends behind the version. -/
theorem httpHeaderParse_not_independent : ¬ HttpIndependent (bytes "HTTP/1.0 \n") := by
  intro h
  have hbehind := h.behind 10 (by decide) default default (bytes "5") (bytes "X")
  revert hbehind
  decide +kernel

end Feeds

end Bklib
