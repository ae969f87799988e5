import Bklib.Proofs.HttpMessage

/-!
# `Bklib.Proofs.HttpText`: what an accepted header says, line by line

`httpHead` reads a header from its text without the automaton: the first line, then a line for each
field, lines that continue a value, and the empty line at the end. A header that `http_header_parse`
accepts has the fields of its text (`httpHeaderParse_text`): each name and each value is what
`http_strdup` makes of a piece of the text.

The value of a field goes from its first character to the start of the next field, so the ends of its
lines are in it, and the carriage returns in front of the next line.

`HttpEnds buf s t` is that the loop gets from `s` to the end of the header in `t`. A run from `s` leads
to another such state (`HttpEnds.after`), so the proof follows the text from line to line and never
counts the characters that are left.
-/

set_option autoImplicit false

namespace Bklib

open Bklib.Lib

/-! ## Texts -/

/-- What is passed over in front of a word. -/
def isGap (c : UInt8) : Bool := c == 13 || isBlank c

/-- What the lines from some line of a header on say. `more` is what they add to the value of the
field before, and `length` is up to the end of the empty line. -/
structure HttpText where
  more : List UInt8
  fields : List (List UInt8 × List UInt8)
  length : Nat

/-- A line of a header that has nothing but carriage returns is the empty one. A line that starts
with a blank continues a value, and any other line is a field. -/
def httpText : List (List UInt8) → HttpText
  | []            => ⟨[], [], 0⟩
  | line :: lines =>
      match line.dropWhile (· == 13) with
      | []     => ⟨line, [], line.length + 1⟩
      | c :: r =>
          let next := httpText lines
          if isBlank c then ⟨line ++ 10 :: next.more, next.fields, line.length + 1 + next.length⟩
          else
            let value := ((r.dropWhile (· != 58)).drop 1).dropWhile isGap
            ⟨line.takeWhile (· == 13),
              (c :: r.takeWhile (· != 58), value ++ 10 :: next.more) :: next.fields,
              line.length + 1 + next.length⟩

/-- Whether a first line is a method and a URI with nothing behind it. The blanks that the next line
starts with are lost then. -/
def httpBare (line : List UInt8) : Bool :=
  let op := line.takeWhile (!isBlank ·)
  let uri := (line.dropWhile (!isBlank ·)).dropWhile isGap
  !(httpStrdup op).any (strncmpEq · (bytes "HTTP/") 5) && uri.all (!isBlank ·)

/-- The text behind the first line. -/
def httpBehindFirst (buf : List UInt8) : List UInt8 :=
  let text := buf.dropWhile fun c => isGap c || c == 10
  let rest := (text.dropWhile (· != 10)).drop 1
  if httpBare (text.takeWhile (· != 10)) then rest.dropWhile isGap else rest

/-- The header at the start of a text. -/
def httpHead (buf : List UInt8) : HttpText :=
  let rest := httpBehindFirst buf
  let text := httpText (rest.splitOn 10)
  { text with length := buf.length - rest.length + text.length }

/-- What the parser stores for a field. -/
def httpStored (field : List UInt8 × List UInt8) : HttpKeyval :=
  ⟨httpStrdup field.1, httpStrdup field.2⟩

section Text

variable {crs line r name v : List UInt8} {c : UInt8} (lines : List (List UInt8))

theorem httpText_empty (hcr : ∀ c ∈ line, c = 13) :
    httpText (line :: lines) = ⟨line, [], line.length + 1⟩ := by
  have hdrop : line.dropWhile (· == 13) = [] :=
    List.dropWhile_eq_nil_iff.mpr fun c hc => by simpa using hcr c hc
  rw [httpText, hdrop]

/-- The carriage returns that a line starts with. -/
theorem span_cr (hcr : ∀ c ∈ crs, c = 13) (hc : c ≠ 13) (r : List UInt8) :
    (crs ++ c :: r).dropWhile (· == 13) = c :: r ∧ (crs ++ c :: r).takeWhile (· == 13) = crs := by
  have hall : ∀ d ∈ crs, (d == 13) = true := fun d hd => by simpa using hcr d hd
  rw [List.dropWhile_append_of_pos hall, List.takeWhile_append_of_pos hall,
    List.dropWhile_cons_of_neg (by simpa using hc), List.takeWhile_cons_of_neg (by simpa using hc),
    List.append_nil]
  exact ⟨rfl, rfl⟩

/-- A line that starts with a blank belongs to the field before it. -/
theorem httpText_blank (hcr : ∀ c ∈ crs, c = 13) (hc : c ≠ 13) (hb : isBlank c = true) :
    httpText ((crs ++ c :: r) :: lines)
      = ⟨crs ++ c :: r ++ 10 :: (httpText lines).more, (httpText lines).fields,
          (crs ++ c :: r).length + 1 + (httpText lines).length⟩ := by
  rw [httpText, (span_cr hcr hc r).1]
  simp only [hb, if_true]

/-- A line with a colon is a field, and the lines behind it follow. -/
theorem httpText_field (hcr : ∀ c ∈ crs, c = 13) (hc : c ≠ 13) (hb : isBlank c = false)
    (hname : 58 ∉ name) :
    httpText ((crs ++ c :: (name ++ 58 :: v)) :: lines)
      = ⟨crs, (c :: name, v.dropWhile isGap ++ 10 :: (httpText lines).more) :: (httpText lines).fields,
          (crs ++ c :: (name ++ 58 :: v)).length + 1 + (httpText lines).length⟩ := by
  have hall : ∀ d ∈ name, (d != 58) = true := by
    intro d hd
    have hne : d ≠ 58 := fun h => hname (h ▸ hd)
    simpa using hne
  rw [httpText, (span_cr hcr hc _).1, (span_cr hcr hc _).2]
  simp only [hb, Bool.false_eq_true, if_false]
  rw [List.dropWhile_append_of_pos hall, List.takeWhile_append_of_pos hall]
  simp

end Text

theorem isNl_of_ne {c : UInt8} (h : c ≠ 10) : isNl c = false := by
  simpa [isNl] using h

theorem ne_of_not_mem {c : UInt8} {line : List UInt8} (h : 10 ∉ line) (hc : c ∈ line) : c ≠ 10 :=
  fun h10 => h (h10 ▸ hc)

/-- Where characters of a kind end, a character of another kind follows. -/
theorem stop_of_dropWhile {p : UInt8 → Bool} {text r : List UInt8} {c : UInt8}
    (h : text.dropWhile p = c :: r) : p c = false := by
  have hhead := List.head?_dropWhile_not p text
  rw [h] at hhead
  simpa using hhead

/-- What stops a run over a line: a character of the line, or the newline. -/
theorem exists_stop {p : UInt8 → Bool} (hp : p 10 = false) (line rest : List UInt8) :
    ∃ d v, line.dropWhile p ++ 10 :: rest = d :: v ∧ p d = false ∧
      (d = 10 ∨ ∃ v', line.dropWhile p = d :: v') := by
  cases hdrop : line.dropWhile p with
  | nil => exact ⟨10, rest, rfl, hp, Or.inl rfl⟩
  | cons d v => exact ⟨d, v ++ 10 :: rest, rfl, stop_of_dropWhile hdrop, Or.inr ⟨v, rfl⟩⟩

/-- A text with a newline in it is a line and what is behind it. -/
theorem splitOn_line {text : List UInt8} (h : 10 ∈ text) :
    ∃ line rest, text = line ++ 10 :: rest ∧ 10 ∉ line ∧
      text.splitOn 10 = line :: rest.splitOn 10 := by
  obtain ⟨line, rest, htext, hline⟩ := List.eq_append_cons_of_mem h
  refine ⟨line, rest, htext, hline, ?_⟩
  rw [htext, List.splitOn_append_cons_self_of_not_mem hline]

/-! ## Scans that end -/

/-- The loop gets from `s` to the end of a header in `t`. -/
structure HttpEnds (buf : List UInt8) (s t : HttpScan) : Prop where
  state : t.state = .done
  fault : t.fault = false
  reaches : Reaches (httpStep buf) HttpScan.stopped s t

namespace HttpEnds

variable {buf : List UInt8} {s t u : HttpScan}

theorem stopped (h : HttpEnds buf s t) : t.stopped = true := by
  simp [HttpScan.stopped, h.state]

/-- A state that is stopped is the end itself. -/
theorem eq_of_stopped (h : HttpEnds buf s t) (hs : s.stopped = true) : s = t := by
  obtain ⟨n, hn⟩ := h.reaches
  rwa [scan_of_stopped hs] at hn

theorem loop (h : HttpEnds buf s t) (n : Nat) : HttpEnds buf (httpLoop buf n s) t :=
  ⟨h.state, h.fault, h.reaches.tail h.stopped ⟨n, (httpLoop_eq_scan buf n s).symm⟩⟩

theorem after {n : Nat} (h : HttpEnds buf s t) (hrun : HttpRuns buf s n u) :
    ∃ l q, HttpEnds buf { u with line := l, linePtr := q } t := by
  obtain ⟨l, q, hloop⟩ := hrun.exists_line
  exact ⟨l, q, hloop ▸ h.loop n⟩

theorem chain {n p w : Nat} {h : HttpHeader} {st next : HttpState} (hs : HttpEnds buf s t)
    (hrun : HttpRuns buf s n (httpAt h p w st next 0 0)) :
    ∃ l q, HttpEnds buf (httpAt h p w st next l q) t := hs.after hrun

/-- The character at hand is no error, and no null string is read at it. -/
theorem not_error {c : UInt8} {r : List UInt8} (h : HttpEnds buf s t) (hstop : s.stopped = false)
    (hcur : buf.drop s.ptr = c :: r) (hc : c ≠ 13)
    (herror : ∀ l q, ∃ u, httpSwitch buf (isBlank c) (isNl c) { s with line := l, linePtr := q } = u ∧
      u.back = false ∧ (u.state = .error ∨ u.fault = true)) :
    False := by
  have hback : ∀ l q, (httpSwitch buf (isBlank c) (isNl c)
      { s with line := l, linePtr := q }).back = false := by
    intro l q
    obtain ⟨u, hu, hback, _⟩ := herror l q
    rw [hu, hback]
  obtain ⟨l, q, hone⟩ := httpLoop_one hstop hcur hc hback
  obtain ⟨u, hu, _, hbad⟩ := herror l q
  have hloop := h.loop 1
  rw [hone, hu] at hloop
  have hend := hloop.eq_of_stopped (by
    rw [HttpScan.stopped, decide_eq_true_iff]
    exact Or.inr hbad)
  -- a scan that ends has neither an error nor a null string
  rcases hbad with hstate | hfault
  · have hdone := hloop.state
    rw [← hend, hstate] at hdone
    exact absurd hdone (by simp)
  · have hsound := hloop.fault
    rw [← hend, hfault] at hsound
    exact absurd hsound (by simp)

/-- Two states that the loop takes to one state end alike. -/
theorem of_loop_eq {n : Nat} (h : HttpEnds buf s t)
    (heq : httpLoop buf n s = httpLoop buf n u) : HttpEnds buf u t := by
  obtain ⟨m, hm⟩ := (heq ▸ h.loop n).reaches
  refine ⟨h.state, h.fault, n + m, ?_⟩
  rwa [scan_add, ← httpLoop_eq_scan buf n u]

/-- A header ends with a newline, so there is one. -/
theorem newline (h : HttpEnds buf s t) (hs : s.Sane) (hst : s.state ≠ .done) :
    10 ∈ buf.drop s.ptr := by
  obtain ⟨n, hn⟩ := h.reaches
  induction n generalizing s with
  | zero =>
      subst hn
      exact absurd h.state hst
  | succ n ih =>
      cases hstop : s.stopped with
      | true => exact absurd (h.eq_of_stopped hstop ▸ h.state) hst
      | false =>
          by_cases hcur : s.cur buf = 10
          · -- behind the memory that is known there are NULs, so the newline is inside
            have hlt : s.ptr < buf.length := by
              by_contra hge
              rw [HttpScan.cur, List.getD_eq_default _ _ (by omega)] at hcur
              exact absurd hcur (by decide)
            rw [HttpScan.cur, List.getD_eq_getElem _ _ hlt] at hcur
            rw [List.drop_eq_getElem_cons hlt, hcur]
            exact List.mem_cons_self
          · have hstep := hs.step buf
            rw [scan_succ _ hstop] at hn
            have hends : HttpEnds buf (httpStep buf s) t := ⟨h.state, h.fault, n, hn⟩
            have hmem := ih hends hstep.1 (hstep.2 hst hcur) hn
            have hnext : (httpStep buf s).ptr = s.ptr + 1 := rfl
            rw [hnext, ← List.drop_drop] at hmem
            exact List.mem_of_mem_drop hmem

end HttpEnds

/-! ## Lines -/

section Lines

variable {buf : List UInt8} {t : HttpScan} {h : HttpHeader} {p w l q : Nat} {next : HttpState}
  {line rest : List UInt8}

/-- The next state of a scan between two characters. -/
def HttpState.inside (next : HttpState) : Prop := next ≠ .done ∧ next ≠ .error

theorem httpAt_sane (hnext : next.inside) : (httpAt h p w .header next l q).Sane :=
  HttpScan.Sane.of_state hnext (by simp [httpAt])

/-- What the parse comes to, where the lines of `text` are still to be read and `tok` is what the
value of the last field has so far. -/
def HttpReads (t : HttpScan) (h : HttpHeader) (p : Nat) (tok : List UInt8) (text : HttpText) : Prop :=
  t.http.headers = httpSetVal (tok ++ text.more) h.headers ++ text.fields.map httpStored ∧
    t.ptr = p + text.length

/-- The carriage returns at the start of a line. -/
theorem HttpEnds.carriageReturns {crs : List UInt8}
    (hends : HttpEnds buf (httpAt h p w .header next l q) t) (htext : buf.drop p = crs ++ rest)
    (hcr : ∀ c ∈ crs, c = 13) :
    ∃ l q, HttpEnds buf (httpAt h (p + crs.length) w .header next l q) t :=
  hends.chain (httpRuns_stay rfl rfl htext fun c hc => by rw [hcr c hc]; rfl)

/-- The empty line. -/
theorem HttpEnds.empty (hends : HttpEnds buf (httpAt h p w .header next l q) t) (hw : w ≤ p)
    (htext : buf.drop p = line ++ 10 :: rest) (hcr : ∀ c ∈ line, c = 13) :
    HttpReads t h p ((buf.drop w).take (p - w)) ⟨line, [], line.length + 1⟩ := by
  obtain ⟨l', q', hline⟩ := hends.carriageReturns htext hcr
  have htok := HttpScan.token_extend htext hw
  have hdone : HttpRuns buf (httpAt h (p + line.length) w .header next l' q') 1
      (httpAt { h with
          headers := httpSetVal ((buf.drop w).take (p - w) ++ line) h.headers }
        (p + line.length + 1) w .done next 0 0) :=
    httpRuns_round
      (t := httpAt { h with
          headers := httpSetVal ((buf.drop w).take (p - w) ++ line) h.headers }
        (p + line.length) w .done next 0 0)
      rfl (drop_add_length htext) (by decide)
      (fun l q => httpSwitch_header_done rfl rfl rfl htok) rfl
  obtain ⟨l'', q'', hlast⟩ := hline.chain hdone
  rw [← hlast.eq_of_stopped (by simp [HttpScan.stopped, httpAt])]
  exact ⟨by simp [httpAt], by simp [httpAt, Nat.add_assoc]⟩

/-- A line that continues a value. -/
theorem HttpEnds.blank {crs r : List UInt8} {c : UInt8}
    (hends : HttpEnds buf (httpAt h p w .header next l q) t)
    (htext : buf.drop p = crs ++ c :: r ++ 10 :: rest) (hcr : ∀ c ∈ crs, c = 13)
    (hb : isBlank c = true) (hc : c ≠ 13) (hr : 10 ∉ r) :
    ∃ l q, HttpEnds buf (httpAt h (p + (crs ++ c :: r).length + 1) w .header next l q) t := by
  have hcrs : buf.drop p = crs ++ c :: (r ++ 10 :: rest) := by rw [htext]; simp
  have hchar := drop_add_length hcrs
  have hline : buf.drop (p + crs.length + 1) = r ++ 10 :: rest := drop_add_length (x := [c]) hchar
  -- `\r`, the blank, the line behind it, and the newline, one after another
  obtain ⟨l, q, hends⟩ := hends.carriageReturns hcrs hcr
  obtain ⟨l, q, hends⟩ := hends.chain
    (httpRuns_round (t := httpAt h (p + crs.length) w .headerVal next 0 0) rfl hchar hc
      (fun l q => httpSwitch_header_blank rfl hb) rfl)
  obtain ⟨l, q, hends⟩ := hends.chain
    (httpRuns_stay (s := httpAt h (p + crs.length + 1) w .headerVal next l q) (x := r) rfl rfl hline
      fun d hd => by simp [httpAt, HttpState.stays, isNl_of_ne (ne_of_not_mem hr hd)])
  obtain ⟨l, q, hends⟩ := hends.chain
    (httpRuns_round
      (s := httpAt h (p + crs.length + 1 + r.length) w .headerVal next l q)
      (t := httpAt h (p + crs.length + 1 + r.length) w .header next 0 0) rfl
      (drop_add_length hline) (by decide) (fun l q => httpSwitch_headerVal rfl rfl) rfl)
  have hp : p + (crs ++ c :: r).length + 1 = p + crs.length + 1 + r.length + 1 := by
    rw [List.length_append, List.length_cons]
    omega
  rw [hp]
  exact ⟨l, q, hends⟩

/-- A field has a colon behind characters of a name. -/
theorem HttpEnds.colon {r : List UInt8} {c : UInt8}
    (hends : HttpEnds buf (httpAt h p w .header next l q) t)
    (htext : buf.drop p = c :: r ++ 10 :: rest)
    (hc : isBlank c = false ∧ isNl c = false ∧ c ≠ 13) :
    ∃ name v, r = name ++ 58 :: v ∧ ∀ d ∈ name, HttpState.headerName.stays d = true := by
  have hsplit := List.takeWhile_append_dropWhile (p := HttpState.headerName.stays) (l := r)
  have hname : ∀ d ∈ r.takeWhile HttpState.headerName.stays, HttpState.headerName.stays d = true :=
    fun d hd => List.mem_takeWhile_imp hd
  obtain ⟨d, v, hd, hstay, hplace⟩ :=
    exists_stop (p := HttpState.headerName.stays) (by decide) r rest
  have htext' : buf.drop p
      = c :: r.takeWhile HttpState.headerName.stays ++ d :: v := by
    rw [htext, ← hd, List.cons_append, List.cons_append, ← List.append_assoc, hsplit]
  obtain ⟨l, q, hends⟩ := hends.chain (httpRuns_keyChars hc hname htext' _ l q rfl)
  by_cases hcolon : d = 58
  · subst hcolon
    obtain ⟨v', hv⟩ := hplace.resolve_left (by decide)
    exact ⟨_, v', by rw [← hv, hsplit], hname⟩
  · -- anything else is an error, and the loop stops there
    have h13 : d ≠ 13 := by
      rintro rfl
      exact absurd hstay (by simp [HttpState.stays])
    refine (hends.not_error rfl (drop_add_length htext') h13 fun l q => ?_).elim
    exact ⟨_, httpSwitch_headerName_error rfl (HttpScan.cur_eq (drop_add_length htext')) hstay hcolon,
      rfl, Or.inl rfl⟩

/-- A field, from line start to line start. Its value so far is its line, and the value of the field
before has the carriage returns in front of it. -/
theorem HttpEnds.field {crs name v : List UInt8} {c : UInt8}
    (hends : HttpEnds buf (httpAt h p w .header next l q) t) (hw : w ≤ p)
    (htext : buf.drop p = crs ++ c :: (name ++ 58 :: v) ++ 10 :: rest) (hcr : ∀ c ∈ crs, c = 13)
    (hc : isBlank c = false ∧ isNl c = false ∧ c ≠ 13)
    (hname : ∀ d ∈ name, HttpState.headerName.stays d = true) (hv : 10 ∉ v) :
    ∃ w' l q, w' ≤ p + (crs ++ c :: (name ++ 58 :: v)).length + 1 ∧
      (buf.drop w').take (p + (crs ++ c :: (name ++ 58 :: v)).length + 1 - w')
        = v.dropWhile isGap ++ [10] ∧
      HttpEnds buf
        (httpAt { h with
            headers := httpSetVal ((buf.drop w).take (p - w) ++ crs) h.headers
              ++ [⟨httpStrdup (c :: name), none⟩] }
          (p + (crs ++ c :: (name ++ 58 :: v)).length + 1) w' .header .headerVal l q) t := by
  have hcrs : buf.drop p = crs ++ (c :: name ++ 58 :: (v ++ 10 :: rest)) := by rw [htext]; simp
  have hkey := drop_add_length hcrs
  have hvalue : buf.drop (p + crs.length + (c :: name).length + 1) = v ++ 10 :: rest :=
    drop_add_length (x := [58]) (drop_add_length hkey)
  -- `\r`, the name with its colon, and the value with its newline
  obtain ⟨l, q, hends⟩ := hends.carriageReturns hcrs hcr
  obtain ⟨l, q, hends⟩ := hends.chain
    (httpRuns_key hc hname hkey _ l q (HttpScan.token_extend hcrs hw))
  obtain ⟨l, q, hends⟩ := hends.chain
    (httpRuns_tail (e := .headerVal) (by simp) (fun c hc => by simp [HttpState.stays, hc])
      (fun _ _ _ _ _ _ => httpSwitch_headerVal rfl rfl) hv hvalue l q)
  have hp : p + (crs ++ c :: (name ++ 58 :: v)).length + 1
      = p + crs.length + (c :: name).length + 1 + v.length + 1 := by
    simp only [List.length_append, List.length_cons]
    omega
  have hgap : (v.takeWhile isGap).length + (v.dropWhile isGap).length = v.length := by
    rw [← List.length_append, List.takeWhile_append_dropWhile]
  rw [hp]
  refine ⟨p + crs.length + (c :: name).length + 1 + (v.takeWhile isGap).length, l, q, by omega, ?_,
    hends⟩
  have hdrop : buf.drop (p + crs.length + (c :: name).length + 1 + (v.takeWhile isGap).length)
      = (v.dropWhile isGap ++ [10]) ++ rest := by
    refine drop_add_length ?_
    rw [hvalue, List.append_assoc, ← List.append_assoc (v.takeWhile isGap),
      List.takeWhile_append_dropWhile, List.singleton_append]
  rw [hdrop, List.take_left']
  rw [List.length_append, List.length_singleton]
  omega

@[simp] theorem httpSetVal_concat (tok : List UInt8) (hs : List HttpKeyval) (k : HttpKeyval) :
    httpSetVal tok (hs ++ [k]) = hs ++ [{ k with val := httpStrdup tok }] :=
  httpSetLast_concat _ hs k

/-- The lines of a header that ends. The induction is on the lines, and `more` is what makes it go
through: the value of the last field is complete only where the next field starts. -/
theorem HttpEnds.fields (lines : List (List UInt8)) :
    ∀ {h p w next l q}, (buf.drop p).splitOn 10 = lines → w ≤ p → HttpState.inside next →
      HttpEnds buf (httpAt h p w .header next l q) t →
      HttpReads t h p ((buf.drop w).take (p - w)) (httpText lines) := by
  induction lines with
  | nil =>
      intro h p w next l q hlines
      exact absurd hlines (List.splitOn_ne_nil 10 _)
  | cons line lines ih =>
      intro h p w next l q hlines hw hnext hends
      obtain ⟨line', rest, htext, hline, hsplit⟩ :=
        splitOn_line (hends.newline (httpAt_sane hnext) (by simp [httpAt]))
      rw [show (httpAt h p w .header next l q).ptr = p from rfl] at htext hsplit
      obtain ⟨rfl, hrest⟩ := List.cons.inj (hlines.symm.trans hsplit)
      have hbehind : buf.drop (p + line.length + 1) = rest :=
        drop_add_length (x := [10]) (drop_add_length htext)
      have hcrs := List.takeWhile_append_dropWhile (p := (· == (13 : UInt8))) (l := line)
      have hcr : ∀ c ∈ line.takeWhile (· == 13), c = 13 := fun c hc => by
        simpa using List.mem_takeWhile_imp hc
      generalize line.takeWhile (· == 13) = crs at hcrs hcr
      cases hdrop : line.dropWhile (· == 13) with
      | nil =>
          rw [hdrop, List.append_nil] at hcrs
          subst hcrs
          rw [httpText_empty lines hcr]
          exact hends.empty hw htext hcr
      | cons c r =>
          have h13 : c ≠ 13 := by simpa using stop_of_dropWhile hdrop
          rw [hdrop] at hcrs
          subst hcrs
          have hr : c ≠ 10 ∧ 10 ∉ r :=
            ⟨ne_of_not_mem hline (by simp), fun h10 => hline (by simp [h10])⟩
          cases hb : isBlank c with
          | true =>
              -- the whole line goes to the value so far
              obtain ⟨l, q, hends⟩ := hends.blank htext hcr hb h13 hr.2
              have hmore := HttpScan.token_extend (x := crs ++ c :: r ++ [10]) (r := rest)
                (by rw [htext]; simp) hw
              obtain ⟨hheaders, hptr⟩ := ih (by rw [hbehind, hrest]) (by omega) hnext hends
              rw [httpText_blank lines hcr h13 hb]
              rw [List.length_append, List.length_singleton, ← Nat.add_assoc] at hmore
              rw [hmore] at hheaders
              exact ⟨by simpa using hheaders, by rw [hptr]; simp only; omega⟩
          | false =>
              -- the value so far is stored, and the one of this line begins
              have hc : isBlank c = false ∧ isNl c = false ∧ c ≠ 13 :=
                ⟨hb, isNl_of_ne hr.1, h13⟩
              have hkey : buf.drop p = crs ++ (c :: r ++ 10 :: rest) := by
                rw [htext, List.append_assoc]
              obtain ⟨l', q', hname⟩ := hends.carriageReturns hkey hcr
              obtain ⟨name, v, rfl, hname⟩ := hname.colon (drop_add_length hkey) hc
              obtain ⟨w', l, q, hw', htok, hends⟩ := hends.field hw htext hcr hc hname
                fun h10 => hr.2 (by simp [h10])
              obtain ⟨hheaders, hptr⟩ :=
                ih (by rw [hbehind, hrest]) hw' (by simp [HttpState.inside]) hends
              have h58 : 58 ∉ name := fun h58 => absurd (hname 58 h58) (by decide)
              rw [httpText_field lines hcr h13 hb h58]
              rw [htok] at hheaders
              exact ⟨by simpa [httpStored] using hheaders, by rw [hptr]; simp only; omega⟩

end Lines

/-! ## The first line -/

section FirstLine

variable {buf : List UInt8} {t : HttpScan} {h : HttpHeader} {p w l q : Nat} {st next : HttpState}
  {c : UInt8} {r line rest : List UInt8}

/-- The states from which the end of the line leads to the fields. -/
def HttpState.endsLine : HttpState → Prop
  | .version         => True
  | .responseCode    => True
  | .responseMessage => True
  | .headerBol       => True
  | _                => False

/-- A scan on the last words of the first line, or in front of one. -/
def OnFirstLine (st next : HttpState) : Prop := st.endsLine ∨ st = .space ∧ next.endsLine

/-- What the `switch` makes of a character of the last words. -/
theorem httpSwitch_endsLine (buf : List UInt8) (h : HttpHeader) (p w : Nat) (c : UInt8)
    (hst : st.endsLine) (hnext : next.inside) :
    (∀ l q, (httpSwitch buf (isBlank c) (isNl c) (httpAt h p w st next l q)).state = .error ∧
        (httpSwitch buf (isBlank c) (isNl c) (httpAt h p w st next l q)).back = false) ∨
      ∃ h' st' next', (∀ l q, httpSwitch buf (isBlank c) (isNl c) (httpAt h p w st next l q)
          = httpAt h' p w st' next' l q) ∧
        h'.headers = h.headers ∧ next'.inside ∧
        if isNl c then st' = .header else OnFirstLine st' next' := by
  cases st with
  | version =>
      refine Or.inr ?_
      cases hn : isNl c with
      | true =>
          exact ⟨{ h with httpVersion := httpStrdup ((buf.drop w).take (p - w)) }, .header, next,
            fun l q => by simp [httpSwitch, httpAt, HttpScan.caseVersion, HttpScan.token],
            rfl, hnext, rfl⟩
      | false =>
          cases hb : isBlank c with
          | true =>
              exact ⟨{ h with httpVersion := httpStrdup ((buf.drop w).take (p - w)) }, .space,
                .headerBol, fun l q => by
                  simp [httpSwitch, httpAt, HttpScan.caseVersion, HttpScan.token],
                rfl, by simp [HttpState.inside], Or.inr ⟨rfl, trivial⟩⟩
          | false =>
              exact ⟨h, .version, next, fun l q => by
                simp [httpSwitch, httpAt, HttpScan.caseVersion], rfl, hnext, Or.inl trivial⟩
  | responseCode =>
      cases hstop : isBlank c || isNl c with
      | false =>
          have hn : isNl c = false := (Bool.or_eq_false_iff.mp hstop).2
          refine Or.inr ⟨h, .responseCode, next, fun l q => ?_, rfl, hnext, ?_⟩
          · simp [httpSwitch, httpAt, HttpScan.caseResponseCode, hstop]
          · rw [hn]
            exact Or.inl trivial
      | true =>
          -- a code without a digit is an error, and any other leads on
          by_cases hcode : (strtoul (buf.drop w)).2 = 0
          · refine Or.inl fun l q => ?_
            simp [httpSwitch, httpAt, HttpScan.caseResponseCode, hstop, hcode]
          · refine Or.inr ⟨{ h with responseCode := natToInt32 (strtoul (buf.drop w)).1 },
              if isNl c then .header else .space, .responseMessage, fun l q => ?_, rfl,
              by simp [HttpState.inside], ?_⟩
            · simp [httpSwitch, httpAt, HttpScan.caseResponseCode, hstop, hcode]
            · cases isNl c with
              | true => rfl
              | false => exact Or.inr ⟨rfl, trivial⟩
  | responseMessage =>
      refine Or.inr ?_
      cases hn : isNl c with
      | true =>
          exact ⟨{ h with responseMessage := httpStrdup ((buf.drop w).take (p - w)) }, .header, next,
            fun l q => by simp [httpSwitch, httpAt, HttpScan.caseResponseMessage, HttpScan.token],
            rfl, hnext, rfl⟩
      | false =>
          exact ⟨h, .responseMessage, next, fun l q => by
            simp [httpSwitch, httpAt, HttpScan.caseResponseMessage], rfl, hnext, Or.inl trivial⟩
  | headerBol =>
      cases hn : isNl c with
      | true =>
          exact Or.inr ⟨h, .header, next, fun l q => by
            simp [httpSwitch, httpAt, HttpScan.caseHeaderBol], rfl, hnext, rfl⟩
      | false =>
          refine Or.inl fun l q => ?_
          simp [httpSwitch, httpAt, HttpScan.caseHeaderBol]
  | _ => exact absurd hst (by simp [HttpState.endsLine])

/-- One character of the last words. -/
theorem HttpEnds.endsLine (hst : st.endsLine) (hnext : next.inside) (hcur : buf.drop p = c :: r)
    (hends : HttpEnds buf (httpAt h p w st next l q) t) :
    ∃ h' st' next' l q, HttpEnds buf (httpAt h' (p + 1) w st' next' l q) t ∧
      h'.headers = h.headers ∧ next'.inside ∧
      if isNl c then st' = .header else OnFirstLine st' next' := by
  have hrun : st ≠ .done ∧ st ≠ .error := by
    constructor <;> rintro rfl <;> exact hst
  have hstop : (httpAt h p w st next l q).stopped = false :=
    HttpScan.Ready.stopped ⟨rfl, rfl⟩ hrun.1 hrun.2
  by_cases hc : c = 13
  · subst hc
    obtain ⟨l, q, hends⟩ := hends.chain
      (httpRuns_stay_one hstop rfl hcur (by simp [httpAt, HttpState.stays]))
    exact ⟨h, st, next, l, q, hends, rfl, hnext, Or.inl hst⟩
  · rcases httpSwitch_endsLine buf h p w c hst hnext with herror | ⟨h', st', next', ht, hrest⟩
    · exact (hends.not_error hstop hcur hc fun l q =>
        ⟨_, rfl, (herror l q).2, Or.inl (herror l q).1⟩).elim
    · obtain ⟨l, q, hends⟩ := hends.chain
        (httpRuns_round (t := httpAt h' p w st' next' 0 0) hstop hcur hc ht rfl)
      exact ⟨h', st', next', l, q, hends, hrest⟩

/-- The scan gets to the start of `rest`, where the fields are. -/
def HttpBegins (buf : List UInt8) (t : HttpScan) (rest : List UInt8) : Prop :=
  ∃ h p w next l q, h.headers = [] ∧ w ≤ p ∧ HttpState.inside next ∧ buf.drop p = rest ∧
    HttpEnds buf (httpAt h p w .header next l q) t

/-- A scan behind a gap is in the state that the gap leads to. -/
theorem HttpEnds.enter (hst : next.endsLine ∨ next = .uri ∨ next = .header)
    (hcur : buf.drop p = c :: r) (hgap : isGap c = false)
    (hends : HttpEnds buf (httpAt h p w .space next l q) t) :
    ∃ l q, HttpEnds buf (httpAt h p p next next l q) t := by
  have hfollows : next.follows := by
    rcases hst with hst | rfl | rfl
    · cases next with
      | version => trivial
      | responseCode => trivial
      | responseMessage => trivial
      | headerBol => trivial
      | _ => exact absurd hst (by simp [HttpState.endsLine])
    · trivial
    · trivial
  have hrun : next ≠ .done ∧ next ≠ .error := by
    constructor <;> rintro rfl <;> exact hfollows
  obtain ⟨l', q', hloop⟩ := httpLoop_enter (s := httpAt h p w .space next l q) (e := next)
    ⟨rfl, rfl⟩ (Or.inr ⟨rfl, rfl⟩) hrun hcur hgap
    fun l q => (httpSwitch_leads (s := httpAt h p p next next l q) hfollows).back
  exact ⟨l', q', hends.of_loop_eq hloop⟩

/-- The last words, up to the end of the line. The induction is on the characters left. -/
theorem HttpEnds.lastWords (line : List UInt8) :
    ∀ {h p w st next l q}, OnFirstLine st next → HttpState.inside next → h.headers = [] → w ≤ p →
      buf.drop p = line ++ 10 :: rest → 10 ∉ line →
      HttpEnds buf (httpAt h p w st next l q) t → HttpBegins buf t rest := by
  -- one character, inside of a word or in the gap in front of it
  have hchar : ∀ {h p w st next l q c r}, OnFirstLine st next → HttpState.inside next → w ≤ p →
      buf.drop p = c :: r → HttpEnds buf (httpAt h p w st next l q) t →
      ∃ h' w' st' next' l q, HttpEnds buf (httpAt h' (p + 1) w' st' next' l q) t ∧ w' ≤ p + 1 ∧
        h'.headers = h.headers ∧ HttpState.inside next' ∧
        if isNl c then st' = .header else OnFirstLine st' next' := by
    intro h p w st next l q c r hplace hnext hw hcur hends
    rcases hplace with hst | ⟨rfl, hst⟩
    · obtain ⟨h', st', next', l, q, hends, hrest⟩ := hends.endsLine hst hnext hcur
      exact ⟨h', w, st', next', l, q, hends, by omega, hrest⟩
    · cases hgap : isGap c with
      | true =>
          obtain ⟨l, q, hends⟩ := hends.chain (httpRuns_stay_one rfl rfl hcur hgap)
          have hn : isNl c = false := isNl_of_ne fun h10 => absurd hgap (by rw [h10]; decide)
          exact ⟨h, w, .space, next, l, q, hends, by exact Nat.le_succ_of_le hw, rfl, hnext,
            by rw [hn]; exact Or.inr ⟨rfl, hst⟩⟩
      | false =>
          obtain ⟨l, q, hends⟩ := hends.enter (Or.inl hst) hcur hgap
          obtain ⟨h', st', next', l, q, hends, hrest⟩ := hends.endsLine hst hnext hcur
          exact ⟨h', p, st', next', l, q, hends, Nat.le_succ p, hrest⟩
  induction line with
  | nil =>
      intro h p w st next l q hplace hnext hnil hw htext _ hends
      obtain ⟨h', w', st', next', l, q, hends, hw', hheaders, hnext', hst'⟩ :=
        hchar hplace hnext hw htext hends
      obtain rfl : st' = .header := hst'
      -- the newline leads to the fields
      exact ⟨h', p + 1, w', next', l, q, hheaders.trans hnil, hw', hnext',
        drop_add_length (x := [10]) htext, hends⟩
  | cons c line ih =>
      intro h p w st next l q hplace hnext hnil hw htext hline hends
      obtain ⟨h', w', st', next', l, q, hends, hw', hheaders, hnext', hst'⟩ :=
        hchar hplace hnext hw htext hends
      have hn : isNl c = false := isNl_of_ne (ne_of_not_mem hline (by simp))
      rw [hn] at hst'
      exact ih hst' hnext' (hheaders.trans hnil) hw' (drop_add_length (x := [c]) htext)
        (fun h10 => hline (List.mem_cons_of_mem _ h10)) hends

theorem not_line_end_of_isBlank (h : isBlank c = true) : isNl c = false ∧ c ≠ 13 := by
  have hc : c = 32 ∨ c = 9 := by simpa [isBlank] using h
  rcases hc with rfl | rfl <;> decide

/-- A word goes on over anything but blanks. -/
theorem stays_of_no_blank {x : List UInt8} (hx : 10 ∉ x) (hb : ∀ c ∈ x, isBlank c = false) :
    ∀ c ∈ x, HttpState.op.stays c = true := fun c hc =>
  stays_op.mpr ⟨hb c hc, isNl_of_ne (ne_of_not_mem hx hc)⟩

/-- The first blank of a text that has one. -/
theorem exists_first_blank {text : List UInt8} (h : ¬ text.all (!isBlank ·) = true) :
    ∃ x b v, text = x ++ b :: v ∧ (∀ c ∈ x, isBlank c = false) ∧ isBlank b = true := by
  have hsplit := List.takeWhile_append_dropWhile (p := (!isBlank ·)) (l := text)
  cases hdrop : text.dropWhile (!isBlank ·) with
  | nil => exact absurd (List.all_eq_true.mpr (List.dropWhile_eq_nil_iff.mp hdrop)) h
  | cons b v =>
      exact ⟨_, b, v, by rw [← hdrop, hsplit], fun c hc => by simpa using List.mem_takeWhile_imp hc,
        by simpa using stop_of_dropWhile hdrop⟩

/-- The gap behind a URI that ends the line. -/
theorem HttpEnds.gap (hnil : h.headers = []) (htext : buf.drop p = rest)
    (hends : HttpEnds buf (httpAt h p w .space .header l q) t) :
    HttpBegins buf t (rest.dropWhile isGap) := by
  have hsplit := List.takeWhile_append_dropWhile (p := isGap) (l := rest)
  have h10 : 10 ∈ rest := by
    rw [← htext]
    exact hends.newline (HttpScan.Sane.of_state (by simp [httpAt]) (by simp [httpAt]))
      (by simp [httpAt])
  -- the newline is no gap, so something is left of the text
  cases hdrop : rest.dropWhile isGap with
  | nil => exact absurd (List.dropWhile_eq_nil_iff.mp hdrop 10 h10) (by decide)
  | cons c r =>
      have hc : isGap c = false := stop_of_dropWhile hdrop
      rw [hdrop] at hsplit
      have hgap : buf.drop p = rest.takeWhile isGap ++ c :: r := by rw [htext, hsplit]
      obtain ⟨l, q, hends⟩ := hends.chain
        (httpRuns_stay rfl rfl hgap fun c hc => List.mem_takeWhile_imp hc)
      obtain ⟨l, q, hends⟩ := hends.enter (Or.inr (Or.inr rfl)) (drop_add_length hgap) hc
      exact ⟨h, _, _, .header, l, q, hnil, Nat.le_refl _, by simp [HttpState.inside],
        drop_add_length hgap, hends⟩

/-- A URI. Where it ends the line, the gap goes on into the next one. -/
theorem HttpEnds.uri {uri : List UInt8} (hnil : h.headers = [])
    (htext : buf.drop p = uri ++ 10 :: rest) (huri : 10 ∉ uri) (hw : w ≤ p)
    (hends : HttpEnds buf (httpAt h p w .uri .uri l q) t) :
    HttpBegins buf t (if uri.all (!isBlank ·) then rest.dropWhile isGap else rest) := by
  by_cases hall : uri.all (!isBlank ·) = true
  · -- no blank, so that the newline ends the URI
    rw [if_pos hall]
    have hb : ∀ c ∈ uri, isBlank c = false := fun c hc => by
      simpa using List.all_eq_true.mp hall c hc
    obtain ⟨l, q, hends⟩ := hends.chain (httpRuns_stay rfl rfl htext (stays_of_no_blank huri hb))
    obtain ⟨l, q, hends⟩ := hends.chain
      (httpRuns_round
        (t := httpAt { h with uri := httpStrdup ((buf.drop w).take (p + uri.length - w)) }
          (p + uri.length) w .space .header 0 0)
        rfl (drop_add_length htext) (by decide)
        (fun l q => httpSwitch_uri_newline rfl rfl rfl) rfl)
    exact hends.gap (by exact hnil) (drop_add_length (x := [10]) (drop_add_length htext))
  · rw [if_neg hall]
    -- the first blank ends the URI, and the version is behind it
    obtain ⟨x, b, v, rfl, hx, hblank⟩ := exists_first_blank hall
    rw [List.mem_append, not_or] at huri
    have htext' : buf.drop p = x ++ b :: (v ++ 10 :: rest) := by rw [htext]; simp
    have hb : isNl b = false ∧ b ≠ 13 := not_line_end_of_isBlank hblank
    obtain ⟨l, q, hends⟩ := hends.chain (httpRuns_stay rfl rfl htext' (stays_of_no_blank huri.1 hx))
    obtain ⟨l, q, hends⟩ := hends.chain
      (httpRuns_round
        (t := httpAt { h with uri := httpStrdup ((buf.drop w).take (p + x.length - w)) }
          (p + x.length) w .space .version 0 0)
        rfl (drop_add_length htext') hb.2 (fun l q => httpSwitch_uri rfl hblank hb.1 rfl) rfl)
    have hspace : HttpEnds buf
        (httpAt { h with uri := httpStrdup ((buf.drop w).take (p + x.length - w)) }
          (p + x.length + 1) w .space .version l q) t := hends
    have hplace : OnFirstLine .space .version := Or.inr ⟨rfl, trivial⟩
    have hv : 10 ∉ v := fun h10 => huri.2 (by simp [h10])
    refine HttpEnds.lastWords v hplace (by simp [HttpState.inside]) ?_ ?_ ?_ hv hspace
    · exact hnil
    · omega
    · exact drop_add_length (x := [b]) (drop_add_length htext')

/-- The URI, in the gap in front of it. -/
theorem HttpEnds.uriGap (uri : List UInt8) (hnil : h.headers = [])
    (htext : buf.drop p = uri ++ 10 :: rest) (huri : 10 ∉ uri)
    (hends : HttpEnds buf (httpAt h p w .space .uri l q) t) :
    HttpBegins buf t
      (if (uri.dropWhile isGap).all (!isBlank ·) then rest.dropWhile isGap else rest) := by
  have hsplit := List.takeWhile_append_dropWhile (p := isGap) (l := uri)
  have hgap : buf.drop p = uri.takeWhile isGap ++ (uri.dropWhile isGap ++ 10 :: rest) := by
    rw [htext, ← List.append_assoc, hsplit]
  obtain ⟨l, q, hends⟩ := hends.chain
    (httpRuns_stay rfl rfl hgap fun c hc => List.mem_takeWhile_imp hc)
  have hword := drop_add_length hgap
  obtain ⟨c, r, hcons, hc, _⟩ := exists_stop (p := isGap) (by decide) uri rest
  obtain ⟨l, q, hends⟩ := hends.enter (Or.inr (Or.inl rfl)) (hword.trans hcons) hc
  refine hends.uri hnil hword (fun h10 => huri ?_) (Nat.le_refl _)
  exact List.dropWhile_subset _ h10

/-- Whether a line with no colon passes, by its words. -/
theorem httpBare_eq {x v : List UInt8} {b : UInt8} (hx : ∀ c ∈ x, isBlank c = false)
    (hb : isBlank b = true) :
    httpBare (x ++ b :: v)
      = (!(httpStrdup x).any (strncmpEq · (bytes "HTTP/") 5) &&
          (v.dropWhile isGap).all (!isBlank ·)) := by
  have hall : ∀ c ∈ x, (!isBlank c) = true := fun c hc => by simpa using hx c hc
  have hgap : isGap b = true := by simp [isGap, hb]
  rw [httpBare, List.takeWhile_append_of_pos hall, List.dropWhile_append_of_pos hall,
    List.takeWhile_cons_of_neg (by simp [hb]), List.dropWhile_cons_of_neg (by simp [hb]),
    List.append_nil, List.dropWhile_cons_of_pos hgap]

/-- The first word ends at a blank of the line, and says what is looked for behind it: the status code
of a response, or the URI of a request. -/
theorem HttpEnds.firstWord (htext : buf.drop p = line ++ 10 :: rest) (hline : 10 ∉ line)
    (hends : HttpEnds buf (httpAt h p p .op .init l q) t) :
    ∃ x b v op h' l q, line = x ++ b :: v ∧ (∀ c ∈ x, isBlank c = false) ∧ isBlank b = true ∧
      httpStrdup x = some op ∧ h'.headers = h.headers ∧ h'.responseCode = h.responseCode ∧
      HttpEnds buf (httpAt h' (p + x.length + 1) p .space
        (if strncmpEq op (bytes "HTTP/") 5 then .responseCode else .uri) l q) t := by
  by_cases hall : line.all (!isBlank ·) = true
  · -- a line of one word is an error
    have hb : ∀ c ∈ line, isBlank c = false := fun c hc => by
      simpa using List.all_eq_true.mp hall c hc
    obtain ⟨l, q, hends⟩ := hends.chain (httpRuns_stay rfl rfl htext (stays_of_no_blank hline hb))
    exact (hends.not_error rfl (drop_add_length htext) (by decide) fun l q =>
      ⟨_, rfl, rfl, Or.inl rfl⟩).elim
  · obtain ⟨x, b, v, rfl, hx, hblank⟩ := exists_first_blank hall
    rw [List.mem_append, not_or] at hline
    have htext' : buf.drop p = x ++ b :: (v ++ 10 :: rest) := by rw [htext]; simp
    have hb : isNl b = false ∧ b ≠ 13 := not_line_end_of_isBlank hblank
    obtain ⟨l, q, hends⟩ := hends.chain (httpRuns_stay rfl rfl htext' (stays_of_no_blank hline.1 hx))
    have htok : ∀ l q, HttpScan.token buf (httpAt h (p + x.length) p .op .init l q) = x :=
      fun l q => HttpScan.token_eq htext' rfl
    cases hop : httpStrdup x with
    | none =>
        -- the comparison with `HTTP/` reads a null string
        exact (hends.not_error rfl (drop_add_length htext') hb.2 fun l q =>
          ⟨_, httpSwitch_op_none rfl hblank hb.1 (htok l q) hop, rfl, Or.inr rfl⟩).elim
    | some op =>
        cases hres : strncmpEq op (bytes "HTTP/") 5 with
        | true =>
            obtain ⟨l, q, hends⟩ := hends.chain
              (httpRuns_round
                (t := httpAt { h with op := none, httpVersion := some op, opCode := .response }
                  (p + x.length) p .space .responseCode 0 0)
                rfl (drop_add_length htext') hb.2
                (fun l q => httpSwitch_op_response rfl hblank hb.1 (htok l q) hop hres) rfl)
            refine ⟨x, b, v, op, { h with op := none, httpVersion := some op, opCode := .response },
              l, q, rfl, hx, hblank, hop, rfl, rfl, ?_⟩
            rw [hres, if_pos rfl]
            exact hends
        | false =>
            obtain ⟨l, q, hends⟩ := hends.chain
              (httpRuns_round
                (t := httpAt { h with op := some op, opCode := HttpScan.opCodeOf op }
                  (p + x.length) p .space .uri 0 0)
                rfl (drop_add_length htext') hb.2
                (fun l q => httpSwitch_op rfl hblank hb.1 (htok l q) hop hres) rfl)
            refine ⟨x, b, v, op, { h with op := some op, opCode := HttpScan.opCodeOf op },
              l, q, rfl, hx, hblank, hop, rfl, rfl, ?_⟩
            rw [hres, if_neg (by decide)]
            exact hends

/-- The first line, from its first character on. -/
theorem HttpEnds.firstLine (hnil : h.headers = []) (htext : buf.drop p = line ++ 10 :: rest)
    (hline : 10 ∉ line) (hends : HttpEnds buf (httpAt h p p .op .init l q) t) :
    HttpBegins buf t (if httpBare line then rest.dropWhile isGap else rest) := by
  obtain ⟨x, b, v, op, h', l, q, rfl, hx, hblank, hop, hheaders, -, hspace⟩ :=
    hends.firstWord htext hline
  rw [List.mem_append, not_or] at hline
  have hv : 10 ∉ v := fun h10 => hline.2 (by simp [h10])
  have hbehind : buf.drop (p + x.length + 1) = v ++ 10 :: rest :=
    drop_add_length (x := [b]) (drop_add_length (by rw [htext]; simp))
  rw [httpBare_eq hx hblank, hop, Option.any_some]
  cases hres : strncmpEq op (bytes "HTTP/") 5 with
  | true =>
      rw [hres, if_pos rfl] at hspace
      have hplace : OnFirstLine .space .responseCode := Or.inr ⟨rfl, trivial⟩
      simp only [Bool.not_true, Bool.false_and, Bool.false_eq_true, if_false]
      exact HttpEnds.lastWords v hplace (by simp [HttpState.inside]) (hheaders.trans hnil)
        (by omega) hbehind hv hspace
  | false =>
      rw [hres, if_neg (by decide)] at hspace
      simp only [Bool.not_false, Bool.true_and]
      exact HttpEnds.uriGap v (hheaders.trans hnil) hbehind hv hspace

/-- A header that ends has a first line behind the space and the empty lines. -/
theorem HttpEnds.start {http : HttpHeader} (hends : HttpEnds buf (httpStart http) t) :
    ∃ p line rest l q, buf.drop p = line ++ 10 :: rest ∧ 10 ∉ line ∧
      (buf.dropWhile fun c => isGap c || c == 10) = line ++ 10 :: rest ∧
      HttpEnds buf (httpAt (httpHeaderClear http) p p .op .init l q) t := by
  have hstays : HttpState.init.stays = fun c => isGap c || c == 10 := by
    funext c
    exact (Bool.or_assoc _ _ _).symm
  have hgap : buf.drop 0
      = buf.takeWhile HttpState.init.stays ++ buf.dropWhile HttpState.init.stays :=
    List.takeWhile_append_dropWhile.symm
  have hinit : ∃ l q, HttpEnds buf
      (httpAt (httpHeaderClear http) (0 + (buf.takeWhile HttpState.init.stays).length) 0 .init
        .init l q) t :=
    hends.chain (httpRuns_stay rfl rfl hgap fun c hc => List.mem_takeWhile_imp hc)
  have htext := drop_add_length hgap
  generalize 0 + (buf.takeWhile HttpState.init.stays).length = p at hinit htext
  obtain ⟨l, q, hends⟩ := hinit
  have hnewline := hends.newline (HttpScan.Sane.of_state (by simp [httpAt]) (by simp [httpAt]))
    (by simp [httpAt])
  rw [show (httpAt (httpHeaderClear http) p 0 .init .init l q).ptr = p from rfl, htext] at hnewline
  obtain ⟨line, rest, hsplit, hline, _⟩ := splitOn_line hnewline
  rw [hsplit] at htext
  -- the first character behind the gap starts the first word
  obtain ⟨c, r, hcons⟩ : ∃ c r, line ++ 10 :: rest = c :: r := List.exists_cons_of_ne_nil (by simp)
  have hc : HttpState.init.stays c = false := stop_of_dropWhile (hsplit.trans hcons)
  have hword : HttpState.op.stays c = true ∧ c ≠ 13 := by
    rw [Bool.eq_false_iff, Ne, stays_init, not_or, not_or] at hc
    exact ⟨stays_op.mpr ⟨by simpa using hc.1, by simpa using hc.2.1⟩, hc.2.2⟩
  have hcur : buf.drop p = c :: r := htext.trans hcons
  obtain ⟨l', q', hloop⟩ := httpLoop_enter (s := httpAt (httpHeaderClear http) p 0 .init .init l q)
    (e := .op) ⟨rfl, rfl⟩ (Or.inl ⟨rfl, rfl⟩) (by simp) hcur hc fun l q => by
      rw [httpSwitch_stay (HttpScan.cur_eq hcur) hword.2 hword.1]
      rfl
  exact ⟨p, line, rest, l', q', htext, hline, hstays ▸ hsplit, hends.of_loop_eq hloop⟩

/-- A header that ends comes to its fields, where `httpBehindFirst` says. -/
theorem HttpEnds.begins {http : HttpHeader} (hends : HttpEnds buf (httpStart http) t) :
    HttpBegins buf t (httpBehindFirst buf) := by
  obtain ⟨p, line, rest, l, q, htext, hline, hsplit, hop⟩ := hends.start
  have hall : ∀ c ∈ line, (c != 10) = true := fun c hc => by
    simpa using ne_of_not_mem hline hc
  have hfirst : (line ++ 10 :: rest).takeWhile (· != 10) = line := by
    rw [List.takeWhile_append_of_pos hall]
    simp
  have hrest : ((line ++ 10 :: rest).dropWhile (· != 10)).drop 1 = rest := by
    rw [List.dropWhile_append_of_pos hall]
    simp
  rw [httpBehindFirst, hsplit, hfirst, hrest]
  exact hop.firstLine rfl htext hline

end FirstLine

/-! ## Accepted headers -/

/-- A header is accepted only where the loop ends, and then the look-ups find what they return. -/
theorem httpHeaderParse_ends {http h : HttpHeader} {buf : List UInt8} {len : Nat}
    (hparse : httpHeaderParse http buf len = some (h, 1)) :
    ∃ t, HttpEnds buf (httpStart http) t ∧ httpFinish t = some (h, 1) := by
  have hsane : (httpLoop buf len (httpStart http)).Sane :=
    HttpScan.Sane.loop buf (HttpScan.Sane.of_state (by simp [httpStart]) (by simp [httpStart])) len
  refine ⟨httpLoop buf len (httpStart http), ⟨?_, ?_, len, (httpLoop_eq_scan buf len _).symm⟩, hparse⟩
  · rw [httpHeaderParse, httpFinish] at hparse
    by_contra hdone
    split at hparse
    · exact absurd hparse (by simp)
    · split at hparse
      next herror =>
        have hpos := hsane.error herror
        have hcode := congrArg Prod.snd (Option.some.inj hparse)
        dsimp only at hcode
        omega
      · exact absurd (congrArg Prod.snd (Option.some.inj hparse)) (by simp)
  · rw [httpHeaderParse, httpFinish] at hparse
    by_contra hfault
    rw [if_pos (by simpa using hfault)] at hparse
    exact absurd hparse (by simp)

/-- The parser keeps the fields of the text, and the length of the header is that of the text. -/
theorem httpHeaderParse_text {http h : HttpHeader} {buf : List UInt8} {len : Nat}
    (hparse : httpHeaderParse http buf len = some (h, 1)) :
    h.headers = (httpHead buf).fields.map httpStored ∧ h.headerLen = (httpHead buf).length := by
  obtain ⟨t, hends, hfinish⟩ := httpHeaderParse_ends hparse
  obtain ⟨h', p, w, next, l, q, hnil, hw, hnext, htext, hfields⟩ := hends.begins
  obtain ⟨hheaders, hptr⟩ := hfields.fields _ rfl hw hnext
  obtain ⟨_, _, hstored⟩ := httpFinish_stored hfinish rfl
  obtain ⟨_, _, _, _, hh, hlen⟩ := hstored (by simp [hends.state])
  rw [htext] at hheaders hptr
  constructor
  · rw [hh, hheaders, hnil]
    simp [httpSetVal, httpHead]
  · -- there is text left where the fields start, so their place is known from its length
    have hmem := hfields.newline (httpAt_sane hnext) (by simp [httpAt])
    have hpos : 0 < (httpBehindFirst buf).length := by
      rw [← htext]
      exact List.length_pos_of_mem hmem
    have hdrop : (httpBehindFirst buf).length = buf.length - p := by
      rw [← htext, List.length_drop]
    rw [hlen, hptr]
    show p + _ = buf.length - (httpBehindFirst buf).length + _
    omega

end Bklib
