import Bklib.Proofs.HttpFeed
import Bklib.Proofs.HttpMessage

/-!
# `Bklib.Proofs.HttpReply`: the header of a reply, byte by byte

The parser never reads a null string on less than `2 ^ 31` bytes (`httpHeaderParse_cases`): a token
that short has a copy, so every field that is looked up has a name.

An `HttpHeaderText` is a header in the sense of its reader: the parser finds every first part of it
incomplete, whatever lies behind it in memory, and the whole of it complete, with its status. Every
text that the loop goes through is one, unless its status code is blank (`headerText_of_runs`).

An `HttpReply` is the header of a successful reply: a status line and field lines with any text
behind the colon. It is such a text (`HttpReply.headerText`).
-/

set_option autoImplicit false

namespace Bklib

open Bklib.Lib

/-! ## No null strings -/

theorem httpStrdup_ne_none {str : List UInt8} (h : str.length < 2 ^ 31) : httpStrdup str ≠ none := by
  have hlen : ¬ natToInt32 str.length < 0 := by
    rw [natToInt32_eq_self h]
    omega
  simp [httpStrdup, hlen]

namespace HttpScan

/-- A scan before character `n` has read no null string, every field has a name but the one that is
being read, and an error has a positive number. -/
structure Sound (n : Nat) (s : HttpScan) : Prop where
  ptr : s.ptr = n
  fault : s.fault = false
  next : s.stateNext ≠ .error
  error : s.state = .error → 0 < s.http.errorState
  keys : s.state ≠ .error →
    ∀ k ∈ (if s.state = .headerName then s.http.headers.dropLast else s.http.headers), k.key ≠ none

variable {buf : List UInt8} {n : Nat} {s : HttpScan}

/-- A scan at the end of what is read, with keys in all its fields, is sound. -/
theorem Sound.of_keys (hptr : s.ptr = n) (hfault : s.fault = false) (hnext : s.stateNext ≠ .error)
    (hstate : s.state ≠ .error) (hkeys : ∀ k ∈ s.http.headers, k.key ≠ none) : s.Sound n := by
  refine ⟨hptr, hfault, hnext, fun herror => absurd herror hstate, fun _ k hk => hkeys k ?_⟩
  split at hk
  · exact List.mem_of_mem_dropLast hk
  · exact hk

theorem Sound.of_error (hptr : s.ptr = n) (hfault : s.fault = false) (hnext : s.stateNext ≠ .error)
    (hcode : 0 < s.state.code) : s.parseError.Sound n :=
  ⟨hptr, hfault, hnext, fun _ => hcode, fun herror => absurd rfl herror⟩

theorem Sound.all_keys (h : s.Sound n) (he : s.state ≠ .error) (hname : s.state ≠ .headerName) :
    ∀ k ∈ s.http.headers, k.key ≠ none := by
  have hkeys := h.keys he
  rwa [if_neg hname] at hkeys

theorem token_length_le (buf : List UInt8) (s : HttpScan) : (s.token buf).length ≤ s.ptr := by
  rw [token, List.length_take]
  omega

/-- The value of the last field does not touch its name. -/
theorem key_of_mem_setVal {hs : List HttpKeyval} {v : Option (List UInt8)}
    (h : ∀ k ∈ hs, k.key ≠ none) :
    ∀ k ∈ httpSetLast (fun k => { k with val := v }) hs, k.key ≠ none := by
  rcases List.eq_nil_or_concat hs with rfl | ⟨hs, last, rfl⟩
  · simp
  · rw [List.concat_eq_append] at h ⊢
    rw [httpSetLast_concat]
    intro k hk
    rcases List.mem_append.mp hk with hk | hk
    · exact h k (by simp [hk])
    · rw [List.mem_singleton.mp hk]
      exact h last (by simp)

/-- A colon stores the name of the last field, the only one that was missing. -/
theorem key_of_mem_setKey {hs : List HttpKeyval} {key : Option (List UInt8)} (hkey : key ≠ none)
    (h : ∀ k ∈ hs.dropLast, k.key ≠ none) :
    ∀ k ∈ httpSetLast (fun k => { k with key := key }) hs, k.key ≠ none := by
  rcases List.eq_nil_or_concat hs with rfl | ⟨hs, last, rfl⟩
  · simp
  · rw [List.concat_eq_append] at h ⊢
    rw [List.dropLast_concat] at h
    rw [httpSetLast_concat]
    intro k hk
    rcases List.mem_append.mp hk with hk | hk
    · exact h k hk
    · rw [List.mem_singleton.mp hk]
      exact hkey

/-- A turn of the switch keeps the words inside the text read. -/
theorem httpSwitch_sound (hn : n < 2 ^ 31) (isSpace isNl : Bool) (hs : s.Sound n) :
    (httpSwitch buf isSpace isNl s).Sound n := by
  have ⟨hptr, hfault, hnext, _, hall⟩ := hs
  have hdup : httpStrdup (s.token buf) ≠ none :=
    httpStrdup_ne_none (by have := token_length_le buf s; omega)
  have hkeys : s.state ≠ .error → s.state ≠ .headerName → ∀ k ∈ s.http.headers, k.key ≠ none :=
    hs.all_keys
  unfold httpSwitch
  cases hst : s.state with
  | error => exact hs
  | done => exact hs
  | headerName =>
      rw [if_pos hst] at hall
      simp only [caseHeaderName]
      split
      · split
        · exact .of_error hptr hfault hnext (by simp [hst, HttpState.code])
        · exact .of_keys hptr hfault (by simp) (by simp) (key_of_mem_setKey hdup (hall (by simp [hst])))
      · exact hs
  | header =>
      have hkeys := hkeys (by simp [hst]) (by simp [hst])
      simp only [caseHeader]
      split
      · exact .of_keys hptr hfault hnext (by simp) hkeys
      · split
        · exact .of_keys hptr hfault hnext (by simp) (key_of_mem_setVal hkeys)
        · refine ⟨hptr, hfault, hnext, by simp, fun _ => ?_⟩
          simp only [if_true, List.dropLast_concat]
          exact key_of_mem_setVal hkeys
  | op =>
      have hkeys := hkeys (by simp [hst]) (by simp [hst])
      simp only [caseOp]
      split
      · exact .of_error hptr hfault hnext (by simp [hst, HttpState.code])
      · split
        · cases hop : httpStrdup (s.token buf) with
          | none => exact absurd hop hdup
          | some op =>
              dsimp only
              split <;> exact .of_keys hptr hfault (by simp) (by simp) hkeys
        · exact hs
  | responseCode =>
      have hkeys := hkeys (by simp [hst]) (by simp [hst])
      dsimp only [caseResponseCode]
      split
      · split
        · exact .of_error hptr hfault hnext (by simp [hst, HttpState.code])
        · exact .of_keys hptr hfault (by simp) (by split <;> simp) hkeys
      · exact hs
  | version =>
      have hkeys := hkeys (by simp [hst]) (by simp [hst])
      dsimp only [caseVersion]
      split
      · split
        · exact .of_keys hptr hfault hnext (by simp) hkeys
        · exact .of_keys hptr hfault (by simp) (by simp) hkeys
      · exact hs
  | init =>
      have hkeys := hkeys (by simp [hst]) (by simp [hst])
      dsimp only [caseInit]
      split
      · exact .of_keys hptr hfault hnext (by simp) hkeys
      · exact hs
  | space =>
      have hkeys := hkeys (by simp [hst]) (by simp [hst])
      dsimp only [caseSpace]
      split
      · exact .of_keys hptr hfault hnext hnext hkeys
      · exact hs
  | responseMessage =>
      have hkeys := hkeys (by simp [hst]) (by simp [hst])
      dsimp only [caseResponseMessage]
      split
      · exact .of_keys hptr hfault hnext (by simp) hkeys
      · exact hs
  | uri =>
      have hkeys := hkeys (by simp [hst]) (by simp [hst])
      dsimp only [caseUri]
      split
      · exact .of_keys hptr hfault (by dsimp only; split <;> simp) (by simp) hkeys
      · exact hs
  | headerBol =>
      have hkeys := hkeys (by simp [hst]) (by simp [hst])
      dsimp only [caseHeaderBol]
      split
      · exact .of_error hptr hfault hnext (by simp [hst, HttpState.code])
      · exact .of_keys hptr hfault hnext (by simp) hkeys
  | headerVal =>
      have hkeys := hkeys (by simp [hst]) (by simp [hst])
      dsimp only [caseHeaderVal]
      split
      · exact .of_keys hptr hfault hnext (by simp) hkeys
      · exact hs

/-- A round keeps the words inside the text read. -/
theorem httpRound_sound (hn : n < 2 ^ 31) (hs : s.Sound n) : (httpRound buf s).Sound n := by
  unfold httpRound
  dsimp only
  split
  · exact httpSwitch_sound hn _ _
      (s := { s with line := s.line + 1, linePtr := s.ptr })
      ⟨hs.ptr, hs.fault, hs.next, hs.error, hs.keys⟩
  · exact httpSwitch_sound hn _ _ hs

/-- So does a step. -/
theorem httpStep_sound (hn : n < 2 ^ 31) (hs : s.Sound n) : (httpStep buf s).Sound (n + 1) := by
  have hchar : (httpChar buf s).Sound n := by
    unfold httpChar
    split
    · exact hs
    · have hround : (httpRound buf s).Sound n := httpRound_sound hn hs
      dsimp only
      split
      · exact httpRound_sound hn (s := { httpRound buf s with back := false })
          ⟨hround.ptr, hround.fault, hround.next, hround.error, hround.keys⟩
      · exact hround
  exact ⟨congrArg (· + 1) hs.ptr, hchar.fault, hchar.next, hchar.error, hchar.keys⟩

end HttpScan

/-- So does the loop, to a place not behind its end. -/
theorem httpLoop_sound (buf : List UInt8) {n : Nat} (hn : n < 2 ^ 31) (http : HttpHeader) :
    ∃ k, k ≤ n ∧ (httpLoop buf n (httpStart http)).Sound k := by
  induction n with
  | zero => exact ⟨0, Nat.le_refl _, rfl, rfl, by simp [httpLoop, httpStart],
      by simp [httpLoop, httpStart], by simp [httpLoop, httpStart, httpHeaderClear]⟩
  | succ n ih =>
      obtain ⟨k, hk, hs⟩ := ih (by omega)
      rw [httpLoop_add]
      cases hstop : (httpLoop buf n (httpStart http)).stopped with
      | true =>
          rw [httpLoop_of_stopped hstop]
          exact ⟨k, by omega, hs⟩
      | false =>
          refine ⟨k + 1, by omega, ?_⟩
          rw [httpLoop, hstop]
          exact HttpScan.httpStep_sound (by omega) hs

/-- The results of the parser on less than `2 ^ 31` bytes: an error, an incomplete header, or one
that ends in these bytes. -/
theorem httpHeaderParse_cases (http : HttpHeader) (buf : List UInt8) {n : Nat} (hn : n < 2 ^ 31) :
    ∃ h i, httpHeaderParse http buf n = some (h, i) ∧
      (i < 0 ∨ i = 0 ∨ i = 1 ∧ h.headerLen ≤ n) := by
  obtain ⟨k, hk, hs⟩ := httpLoop_sound buf hn http
  rw [httpHeaderParse, httpFinish, hs.fault]
  simp only [Bool.false_eq_true, if_false]
  split
  · rename_i herror
    exact ⟨_, _, rfl, Or.inl (by have := hs.error herror; omega)⟩
  · rename_i herror
    split
    · exact ⟨_, _, rfl, Or.inr (Or.inl rfl)⟩
    · rename_i hdone
      have hdone' : (httpLoop buf n (httpStart http)).state = .done := by simpa using hdone
      have hkeys := hs.all_keys herror (by simp [hdone'])
      obtain ⟨v, hv⟩ := httpKeyvalGet_of_keys hkeys (bytes "content-length")
      obtain ⟨w, hw⟩ := httpKeyvalGet_of_keys hkeys (bytes "content-type")
      exact ⟨_, _, by rw [hv, hw]; rfl, Or.inr (Or.inr ⟨rfl, hs.ptr.trans_le hk⟩)⟩

/-! ## Headers -/

/-- The parser finds first parts of `head` incomplete, and `head` complete, with this status. -/
structure HttpHeaderText (head : List UInt8) (code : Int) : Prop where
  pos   : 0 < head.length
  part  : ∀ n, n < head.length → ∀ behind,
    httpHeaderParse default (head.take n ++ behind) n = some (httpHeaderClear default, 0)
  whole : ∀ n, head.length ≤ n → n < 2 ^ 31 → ∀ behind,
    ∃ h, httpHeaderParse default (head ++ behind) n = some (h, 1) ∧ h.headerLen = head.length ∧
      h.responseCode = code

/-- The loop goes through a header to its end, whatever is behind it. -/
def HttpRunsThrough (head : List UInt8) (code : Int) : Prop :=
  ∀ behind, ∃ h w next l q, h.responseCode = code ∧
    httpLoop (head ++ behind) head.length (httpStart default)
      = httpAt h head.length w .done next l q

/-- Without a blank status code, a header that the loop goes through is a header in every respect. -/
theorem headerText_of_runs {head : List UInt8} {code : Int} (hblank : ¬HttpBlankCode head)
    (hlen : head.length < 2 ^ 31) (hpos : 0 < head.length) (hruns : HttpRunsThrough head code) :
    HttpHeaderText head code where
  pos := hpos
  part n hn behind := by
    obtain ⟨h, w, next, l, q, -, hloop⟩ := hruns []
    rw [List.append_nil] at hloop
    have hrun : (httpLoop head n (httpStart default)).stopped = false := by
      cases hstop : (httpLoop head n (httpStart default)).stopped with
      | false => rfl
      | true =>
          -- a loop that stops here is still here at the end of the header
          obtain ⟨k, hk, hs⟩ := httpLoop_sound head (by omega : n < 2 ^ 31) default
          obtain ⟨j, hj⟩ := Nat.exists_eq_add_of_le (Nat.le_of_lt hn)
          have hend : httpLoop head head.length (httpStart default)
              = httpLoop head n (httpStart default) := by
            conv_lhs => rw [hj]
            rw [httpLoop_add, httpLoop_of_stopped hstop]
          have hptr : head.length = k := by
            rw [← hs.ptr, ← hend, hloop]
            rfl
          omega
    rw [httpHeaderParse_local hblank (Nat.le_of_lt hn)]
    simp only [HttpScan.stopped, decide_eq_false_iff_not, not_or, Bool.not_eq_true] at hrun
    obtain ⟨hdone, herror, hfault⟩ := hrun
    rw [httpFinish, hfault, if_neg (by simp), if_neg herror, if_pos hdone]
    rfl
  whole n hn hn' behind := by
    obtain ⟨h, w, next, l, q, hcode, hloop⟩ := hruns behind
    obtain ⟨j, rfl⟩ := Nat.exists_eq_add_of_le hn
    have hall : httpLoop (head ++ behind) (head.length + j) (httpStart default)
        = httpAt h head.length w .done next l q := by
      rw [httpLoop_add, hloop]
      exact httpLoop_of_stopped rfl _ _
    obtain ⟨k, -, hs⟩ := httpLoop_sound (head ++ behind) hn' default
    rw [hall] at hs
    obtain ⟨h', hfinish⟩ := httpFinish_done (h := h) (p := head.length) (w := w) (l := l) (q := q) next
      (hs.all_keys (by simp [httpAt]) (by simp [httpAt]))
    have hstored := (httpFinish_stored hfinish rfl).2.2 (by simp [httpAt])
    exact ⟨h', by rw [httpHeaderParse, hall, hfinish], hstored.2.2.2.2.2, hstored.2.2.1.trans hcode⟩

/-- A status line whose code starts with something else than space is not blank. -/
theorem not_blankCode_of_code (v : HttpWord) {d : UInt8} (hd : isspace d = false)
    (more : List UInt8) : ¬HttpBlankCode (v.text ++ 32 :: d :: more) := by
  rintro ⟨front, code, t, tail, hrender, ⟨lead, version, blank, gap, w, rfl, hlead, hne, h13, hver,
    hw, hpre, hb, hgap⟩, hcode, hcode13, ht⟩
  have hsame : v.text ++ 32 :: d :: more
      = lead ++ (version ++ blank :: (gap ++ (code ++ t :: tail))) := by
    rw [hrender]
    simp
  obtain ⟨a, as, htext⟩ := List.exists_cons_of_ne_nil v.ne
  have ha : isspace a = false := v.noSpace a (by rw [htext]; simp)
  -- the text starts with the word, and the word is what `HttpBlankCode` calls the version
  cases lead with
  | cons c lead =>
      rw [htext] at hsame
      obtain rfl : a = c := (List.cons.inj hsame).1
      rcases hlead a (by simp) with h | h | rfl
      · rw [isspace_of_blank_or_nl (Or.inl h)] at ha
        cases ha
      · rw [isspace_of_blank_or_nl (Or.inr h)] at ha
        cases ha
      · exact absurd ha (by decide)
  | nil =>
      have hword : ∀ c ∈ v.text, (!isBlank c && !isNl c) = true := by
        intro c hc
        have := isBlank_isspace (v.noSpace c hc)
        simp [this]
      have hword' : ∀ c ∈ version, (!isBlank c && !isNl c) = true := by
        intro c hc
        simp [hver c hc]
      have htake := congrArg (List.takeWhile fun c => !isBlank c && !isNl c) hsame
      rw [List.nil_append, List.takeWhile_append_of_pos hword, List.takeWhile_append_of_pos hword',
        List.takeWhile_cons_of_neg (by decide), List.takeWhile_cons_of_neg (by simp [hb]),
        List.append_nil, List.append_nil] at htake
      rw [← htake, List.nil_append, List.append_cancel_left_eq] at hsame
      have hbehind := (List.cons.inj hsame).2
      -- the gap, the code and the character behind it are space
      have hspace : isspace d = true := by
        cases gap with
        | cons c gap =>
            obtain rfl : d = c := (List.cons.inj hbehind).1
            rcases hgap d (by simp) with h | rfl
            · exact isspace_of_blank_or_nl (Or.inl h)
            · decide
        | nil =>
            cases code with
            | cons c code =>
                obtain rfl : d = c := (List.cons.inj hbehind).1
                exact (hcode d (by simp)).1
            | nil =>
                obtain rfl : d = t := (List.cons.inj hbehind).1
                rcases ht with h | ⟨h, -⟩
                · exact isspace_of_blank_or_nl (Or.inr h)
                · exact isspace_of_blank_or_nl (Or.inl h)
      rw [hspace] at hd
      cases hd

/-! ## Replies -/

/-- A line of a header: a name over letters, digits and `-`, a colon, and any text. -/
structure HttpLine where
  name : List UInt8
  name_ne : name ≠ []
  name_ok : ∀ c ∈ name, isalnum c = true ∨ c = 45
  text : List UInt8
  text_ok : ∀ c ∈ text, c ≠ 13 ∧ c ≠ 10

def HttpLine.render (f : HttpLine) : List UInt8 := f.name ++ 58 :: (f.text ++ crlf)

/-- The header of a reply `HTTP/1.minor 200 reason`. -/
structure HttpReply where
  minor : List UInt8
  minor_ok : ∀ c ∈ minor, isdigit c = true
  reason : List UInt8
  reason_ok : ∀ c ∈ reason, c ≠ 13 ∧ c ≠ 10
  lines : List HttpLine

theorem bytes_http_ok :
    ∀ c ∈ bytes "HTTP/1.", isspace c = false ∧ c ≠ 0 ∧ c ≠ 13 := by decide +kernel

/-- `HTTP/1.minor`. -/
def HttpReply.version (m : HttpReply) : HttpWord where
  text := bytes "HTTP/1." ++ m.minor
  ne := by simp [bytes]
  noSpace c hc := by
    rcases List.mem_append.mp hc with hc | hc
    · exact (bytes_http_ok c hc).1
    · exact isspace_digit (m.minor_ok c hc)

def HttpReply.start (m : HttpReply) : HttpStartLine := .response m.version 200 m.reason m.reason_ok

/-- The text of the header. -/
def HttpReply.render (m : HttpReply) : List UInt8 :=
  m.start.render ++ (m.lines.flatMap HttpLine.render ++ crlf)

namespace HttpReply

variable (m : HttpReply)

/-- The version of a message is kept. -/
theorem version_kept (h : m.version.text.length < 2 ^ 31) : HttpKept m.version.text 0 where
  two_le := by simp [version, bytes]
  fits := h
  first c hc := m.version.noSpace c (List.mem_of_mem_head? hc)
  last c hc := m.version.noSpace c (List.mem_of_getLast? hc)
  bytes c hc := by
    rcases List.mem_append.mp hc with hc | hc
    · exact (bytes_http_ok c hc).2
    · have hdigit := isdigit_iff.mp (m.minor_ok c hc)
      constructor <;> rintro rfl <;> simp at hdigit

theorem version_isHttp : strncmpEq m.version.text (bytes "HTTP/") 5 = true := by
  have htake : m.version.text.take 5 = bytes "HTTP/" := rfl
  rw [strncmpEq, htake]
  rfl

section Runs

variable {buf rest : List UInt8}

/-- One line, from line start to line start. -/
theorem runs_line {h : HttpHeader} {p w : Nat} (next : HttpState) (f : HttpLine)
    (htext : buf.drop p = f.render ++ rest) (l q : Nat) :
    ∃ h' w', h'.responseCode = h.responseCode ∧
      HttpRuns buf (httpAt h p w .header next l q) f.render.length
        (httpAt h' (p + f.render.length) w' .header .headerVal 0 0) := by
  have hname : buf.drop p = f.name ++ 58 :: (f.text ++ 13 :: 10 :: rest) := by
    rw [htext]
    simp [HttpLine.render, crlf]
  obtain ⟨tok, htok⟩ : ∃ tok, HttpScan.token buf (httpAt h p w .header next 0 0) = tok := ⟨_, rfl⟩
  have hrun := httpRuns_name f.name_ne f.name_ok hname tok l q htok
  obtain ⟨l', q', hloop⟩ := hrun.exists_line
  obtain ⟨w', _, hvalue⟩ := httpRuns_line (w := p)
    (g := fun _ => { h with headers := httpSetVal tok h.headers ++ [⟨httpStrdup f.name, none⟩] })
    (by simp) (fun c hc => by simp [HttpState.stays, hc]) rfl
    (fun _ _ _ _ _ _ => httpSwitch_headerVal rfl rfl) f.text_ok
    (drop_add_length (x := [58]) (drop_add_length hname)) l' q'
  have hlen : f.render.length = f.name.length + 1 + (f.text.length + 2) := by
    simp only [HttpLine.render, crlf, List.length_append, List.length_cons, List.length_nil]
    omega
  have hend : p + f.render.length = p + f.name.length + 1 + f.text.length + 2 := by omega
  refine ⟨{ h with headers := httpSetVal tok h.headers ++ [⟨httpStrdup f.name, none⟩] }, w', rfl, ?_⟩
  rw [hend, hlen, HttpRuns, httpLoop_add, hloop]
  exact hvalue

/-- The lines and the empty line. The induction is on the lines. -/
theorem runs_lines (fs : List HttpLine) :
    ∀ {h : HttpHeader} {p w : Nat} (next : HttpState) (l q : Nat),
      buf.drop p = fs.flatMap HttpLine.render ++ (crlf ++ rest) →
      ∃ h' w' next', h'.responseCode = h.responseCode ∧
        HttpRuns buf (httpAt h p w .header next l q)
          ((fs.flatMap HttpLine.render ++ crlf).length)
          (httpAt h' (p + (fs.flatMap HttpLine.render ++ crlf).length) w' .done next' 0 0) := by
  induction fs with
  | nil =>
      intro h p w next l q htext
      have hcr : buf.drop p = [13] ++ 10 :: rest := htext
      have hstay : HttpRuns buf (httpAt h p w .header next l q) 1
          (httpAt h (p + 1) w .header next 0 0) :=
        httpRuns_stay_one rfl rfl hcr rfl
      obtain ⟨tok, htok⟩ : ∃ tok, HttpScan.token buf (httpAt h (p + 1) w .header next 0 0) = tok :=
        ⟨_, rfl⟩
      have hend : ∀ l q, HttpRuns buf (httpAt h (p + 1) w .header next l q) 1
          (httpAt { h with headers := httpSetVal tok h.headers } (p + 1 + 1) w .done next 0 0) :=
        fun l q => httpRuns_round
          (t := httpAt { h with headers := httpSetVal tok h.headers } (p + 1) w .done next 0 0)
          rfl (drop_add_length hcr) (by decide)
          (fun l q => httpSwitch_header_done rfl rfl rfl htok) rfl
      exact ⟨{ h with headers := httpSetVal tok h.headers }, w, next, rfl, hstay.chain hend⟩
  | cons f fs ih =>
      intro h p w next l q htext
      have hline : buf.drop p = f.render ++ (fs.flatMap HttpLine.render ++ (crlf ++ rest)) := by
        rw [htext, List.flatMap_cons, List.append_assoc]
      obtain ⟨h', w', hcode, hone⟩ := runs_line (h := h) (w := w) next f hline l q
      obtain ⟨l', q', hloop⟩ := hone.exists_line
      obtain ⟨h'', w'', next'', hcode', hmore⟩ := ih (h := h') (w := w') .headerVal l' q'
        (drop_add_length hline)
      refine ⟨h'', w'', next'', hcode'.trans hcode, ?_⟩
      rw [List.flatMap_cons, List.append_assoc, List.length_append, HttpRuns, httpLoop_add, hloop,
        ← Nat.add_assoc]
      exact hmore

end Runs

/-- The parser goes through the header to its end. -/
theorem runs (hlen : m.version.text.length < 2 ^ 31) (http : HttpHeader) (behind : List UInt8) :
    ∃ h w next l q, h.responseCode = 200 ∧
      httpLoop (m.render ++ behind) m.render.length (httpStart http)
        = httpAt h m.render.length w .done next l q := by
  have hbuf : m.render ++ behind = m.version.text ++ 32 :: (decimal 200 ++ 32 :: (m.reason
      ++ 13 :: 10 :: (m.lines.flatMap HttpLine.render ++ (crlf ++ behind)))) := by
    simp [render, start, HttpStartLine.render, crlf]
  have hv := (httpStrdup_eq_some_iff m.version.ne).mpr (m.version_kept hlen)
  obtain ⟨w, _, hstart⟩ := httpRuns_response http m.version 200 m.reason hv m.version_isHttp
    m.reason_ok hbuf
  obtain ⟨l, q, hloop⟩ := hstart.exists_line
  have htext : (m.render ++ behind).drop m.start.render.length
      = m.lines.flatMap HttpLine.render ++ (crlf ++ behind) := by
    rw [render, List.append_assoc, List.drop_left, List.append_assoc]
  obtain ⟨h, w', next, hcode, hrest⟩ := runs_lines m.lines
    (h := responseStored http 200 m.reason m.version.text) (w := w) .responseMessage l q
    htext
  obtain ⟨l', q', hloop'⟩ := hrest.exists_line
  refine ⟨h, w', next, l', q', hcode, ?_⟩
  have hsplit : m.render.length
      = m.start.render.length + (m.lines.flatMap HttpLine.render ++ crlf).length := by
    rw [render, List.length_append]
  rw [hsplit, httpLoop_add]
  exact (congrArg (httpLoop _ _) hloop).trans hloop'

/-- The status code is there, so no call of the parser looks behind its bytes. -/
theorem not_blankCode : ¬ HttpBlankCode m.render := by
  have htext : m.render = m.version.text ++ 32 :: 50 ::
      (48 :: 48 :: 32 :: (m.reason ++ crlf ++ (m.lines.flatMap HttpLine.render ++ crlf))) := by
    simp [render, start, HttpStartLine.render, decimal, crlf]
  rw [htext]
  exact not_blankCode_of_code m.version (by decide) _

theorem version_lt {n : Nat} (h : m.render.length < n) : m.version.text.length < n := by
  simp only [render, start, HttpStartLine.render, List.length_append] at h
  omega

/-- The header of a successful reply is a header, with status 200. -/
theorem headerText (hlen : m.render.length < 2 ^ 31) : HttpHeaderText m.render 200 :=
  headerText_of_runs m.not_blankCode hlen (by simp [render, crlf])
    (m.runs (m.version_lt hlen) default)

end HttpReply

end Bklib
