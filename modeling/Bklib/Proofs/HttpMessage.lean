import Bklib.Proofs.HttpScan
import Bklib.Proofs.HttpStrdup
import Bklib.Proofs.Strtoul

/-!
# `Bklib.Proofs.HttpMessage`: well-formed headers and what the parser makes of them

An `HttpMessage` is a request or a response with its header fields, and `HttpMessage.render` its
text. The parser goes through the text as intended: `httpRuns_request`, `httpRuns_response` and
`httpRuns_fields` follow it to the empty line. What it stores for a token is what `http_strdup` makes
of the token, and that is not always the token itself (`HttpKept`): strings of one character come
out empty. So the header comes back exactly when every token of it is kept
(`httpHeaderParse_recovers_iff`).
-/

set_option autoImplicit false

namespace Bklib

open Bklib.Lib

/-! ## Messages -/

/-- A word of a start line: not empty, and without white space. -/
structure HttpWord where
  text : List UInt8
  ne : text ≠ []
  noSpace : ∀ c ∈ text, isspace c = false

/-- A header field. The name is over letters, digits and `-`. The value has no line end in it and no
blank around it. -/
structure HttpField where
  name : List UInt8
  name_ne : name ≠ []
  name_ok : ∀ c ∈ name, isalnum c = true ∨ c = 45
  value : List UInt8
  value_ne : value ≠ []
  value_line : ∀ c ∈ value, c ≠ 13 ∧ c ≠ 10
  value_first : ∀ c, value.head? = some c → isBlank c = false
  value_last : ∀ c, value.getLast? = some c → isBlank c = false

/-- The first line. -/
inductive HttpStartLine where
  | request (method uri version : HttpWord)
  | response (version : HttpWord) (code : Nat) (reason : List UInt8)
      (line : ∀ c ∈ reason, c ≠ 13 ∧ c ≠ 10)

/-- The header of a request or of a response. -/
structure HttpMessage where
  start : HttpStartLine
  fields : List HttpField

/-- `"\r\n"`. -/
def crlf : List UInt8 := [13, 10]

def HttpStartLine.render : HttpStartLine → List UInt8
  | request method uri version =>
      method.text ++ 32 :: (uri.text ++ 32 :: (version.text ++ crlf))
  | response version code reason _ =>
      version.text ++ 32 :: (decimal code ++ 32 :: (reason ++ crlf))

def HttpField.render (f : HttpField) : List UInt8 := f.name ++ 58 :: 32 :: (f.value ++ crlf)

/-- The text of a header: its lines, and an empty line. -/
def HttpMessage.render (m : HttpMessage) : List UInt8 :=
  m.start.render ++ (m.fields.flatMap HttpField.render ++ crlf)

/-! ## Statement -/

/-- The parsed header says what the first line says. -/
def HttpStartLine.Parsed (h : HttpHeader) : HttpStartLine → Prop
  | request method uri version =>
      h.op = some method.text ∧ h.opCode = HttpScan.opCodeOf method.text ∧
        h.uri = some uri.text ∧ h.httpVersion = some version.text ∧
        h.responseCode = 0 ∧ h.responseMessage = none
  | response version code reason _ =>
      h.op = none ∧ h.opCode = .response ∧ h.uri = none ∧ h.httpVersion = some version.text ∧
        h.responseCode = code ∧ h.responseMessage = some reason

/-- `http_header_parse` recovers the message from its text, whatever is behind the text. -/
def HttpMessage.Recovered (m : HttpMessage) : Prop :=
  ∀ http behind, ∃ h, httpHeaderParse http (m.render ++ behind) m.render.length = some (h, 1) ∧
    m.start.Parsed h ∧
    h.headers = m.fields.map (fun f => ⟨some f.name, some f.value⟩) ∧
    h.headerLen = m.render.length

/-- Every string of the first line survives `http_strdup`, and what it is does not make it look like
the other kind of first line. The version of a request and the reason are cut at the line end, so
the carriage return is in the length. -/
def HttpStartLine.Kept : HttpStartLine → Prop
  | request method uri version =>
      HttpKept method.text 0 ∧ strncmpEq method.text (bytes "HTTP/") 5 = false ∧
        HttpKept uri.text 0 ∧ HttpKept version.text 1
  | response version code reason _ =>
      HttpKept version.text 0 ∧ strncmpEq version.text (bytes "HTTP/") 5 = true ∧
        code < 2 ^ 31 ∧ (reason = [] ∨ HttpKept reason 1)

/-- Every name and every value survives `http_strdup`. A value is cut at the start of the next line,
which for the last one is behind the carriage return of the empty line. -/
def httpFieldsKept : List HttpField → Prop
  | []      => True
  | f :: fs =>
      HttpKept f.name 0 ∧ HttpKept f.value (if fs.isEmpty then 3 else 2) ∧ httpFieldsKept fs

def HttpMessage.Kept (m : HttpMessage) : Prop := m.start.Kept ∧ httpFieldsKept m.fields

/-! ## Characters -/

/-- What is no space separates nothing. -/
theorem isBlank_isspace {c : UInt8} (h : isspace c = false) :
    isBlank c = false ∧ isNl c = false ∧ c ≠ 13 := by
  refine ⟨?_, ?_, ?_⟩
  · by_contra hb
    have : c = 32 ∨ c = 9 := by simpa [isBlank, Classical.or_iff_not_imp_left] using hb
    rcases this with rfl | rfl <;> exact absurd h (by decide)
  · by_contra hn
    have : c = 10 := by simpa [isNl] using hn
    subst this
    exact absurd h (by decide)
  · rintro rfl
    exact absurd h (by decide)

theorem isspace_digit {c : UInt8} (h : isdigit c = true) : isspace c = false := by
  rw [isdigit_iff] at h
  rw [Bool.eq_false_iff, Ne, isspace_iff]
  omega

/-- The bytes of a word, with or without the carriage return behind it. -/
theorem HttpWord.noBlank (w : HttpWord) {x : List UInt8} (hx : ∀ c ∈ x, c = 13) :
    ∀ c ∈ w.text ++ x, isBlank c = false ∧ isNl c = false := by
  intro c hc
  rcases List.mem_append.mp hc with hc | hc
  · exact ⟨(isBlank_isspace (w.noSpace c hc)).1, (isBlank_isspace (w.noSpace c hc)).2.1⟩
  · rw [hx c hc]
    decide

theorem HttpWord.first (w : HttpWord) {x : List UInt8} :
    ∀ c, (w.text ++ x).head? = some c → isspace c = false := by
  intro c hc
  rw [List.head?_append_of_ne_nil _ w.ne] at hc
  exact w.noSpace c (List.mem_of_mem_head? hc)

/-! ## Runs over words -/

/-- A scan between two characters. -/
def httpAt (http : HttpHeader) (ptr word : Nat) (st next : HttpState) (l q : Nat) : HttpScan :=
  ⟨http, ptr, word, l, q, st, next, false, false⟩

section Words

variable {buf rest k : List UInt8} {http http' : HttpHeader} {p w : Nat}
  {st next st' next' : HttpState} {c : UInt8}

theorem HttpRuns.chain {s u : HttpScan} {m n : Nat}
    (h : HttpRuns buf s m (httpAt http p w st next 0 0))
    (h' : ∀ l q, HttpRuns buf (httpAt http p w st next l q) n u) : HttpRuns buf s (m + n) u :=
  h.trans h'

/-- A token of bytes that are neither blank nor a line end, right where the scan is, and the
character that ends it. -/
theorem httpRuns_plain (st : HttpState) {s : HttpScan}
    (hs : s = httpStart http ∧ st = .op ∧ next = .init ∧ p = 0 ∨
      ∃ l q, s = httpAt http p w .space st l q ∧ next = st)
    (hrun : st ≠ .done ∧ st ≠ .error)
    (hplain : ∀ d, isBlank d = false → isNl d = false → st.stays d = true)
    (htext : buf.drop p = k ++ c :: rest) (hne : k ≠ [])
    (hfirst : ∀ d, k.head? = some d → isspace d = false)
    (htok : ∀ d ∈ k, isBlank d = false ∧ isNl d = false) (hc : c ≠ 13)
    (ht : ∀ l q, HttpScan.token buf (httpAt s.http (p + k.length) p st next l q) = k →
      httpSwitch buf (isBlank c) (isNl c) (httpAt s.http (p + k.length) p st next l q)
        = httpAt http' (p + k.length) p st' next' l q) :
    HttpRuns buf s (k.length + 1) (httpAt http' (p + k.length + 1) p st' next' 0 0) := by
  have hready : s.Ready := by
    rcases hs with ⟨rfl, _⟩ | ⟨l, q, rfl, _⟩ <;> exact ⟨rfl, rfl⟩
  have hst : s.state = .init ∧ st = .op ∨ s.state = .space ∧ s.stateNext = st := by
    rcases hs with ⟨rfl, rfl, _⟩ | ⟨l, q, rfl, _⟩
    · exact Or.inl ⟨rfl, rfl⟩
    · exact Or.inr ⟨rfl, rfl⟩
  have hptr : s.ptr = p := by
    rcases hs with ⟨rfl, _, _, rfl⟩ | ⟨l, q, rfl, _⟩ <;> rfl
  have hgap : ∀ d, k.head? = some d → s.state.stays d = false := by
    intro d hd
    have h := isBlank_isspace (hfirst d hd)
    rcases hst with ⟨hs, _⟩ | ⟨hs, _⟩ <;> simp [hs, HttpState.stays, h]
  have hat : ∀ l q, { s with
      state := st, word := s.ptr + ([] : List UInt8).length
      ptr := s.ptr + ([] : List UInt8).length + k.length, line := l, linePtr := q }
        = httpAt s.http (p + k.length) p st next l q := by
    intro l q
    rcases hs with ⟨rfl, rfl, rfl, rfl⟩ | ⟨l', q', rfl, rfl⟩ <;> rfl
  -- a word with no gap in front of it
  have h := httpRuns_word (g := []) (t := httpAt http' (p + k.length) p st' next' 0 0) hready hst
    hrun (by rw [hptr]; exact htext) (by simp) hne hgap
    (fun d hd => hplain d (htok d hd).1 (htok d hd).2) hc
    (fun l q h => by rw [hat] at h ⊢; exact ht l q h) rfl
  rw [List.length_nil, Nat.zero_add, Nat.add_zero, hptr] at h
  exact h

end Words

/-! ## The first word -/

section FirstWord

variable {buf rest : List UInt8} (http : HttpHeader) (word : HttpWord)
  (hbuf : buf = word.text ++ 32 :: rest)
include hbuf

/-- A method. -/
theorem httpRuns_method {op : List UInt8} (hop : httpStrdup word.text = some op)
    (hreq : strncmpEq op (bytes "HTTP/") 5 = false) :
    HttpRuns buf (httpStart http) (word.text.length + 1)
      (httpAt { httpHeaderClear http with op := some op, opCode := HttpScan.opCodeOf op }
        (0 + word.text.length + 1) 0 .space .uri 0 0) :=
  httpRuns_plain .op (w := 0) (c := 32)
    (Or.inl ⟨rfl, rfl, rfl, rfl⟩) (by simp) (fun d h h' => stays_op.mpr ⟨h, h'⟩)
    (by rw [hbuf]; rfl) word.ne
    (by simpa using word.first (x := [])) (by simpa using word.noBlank (x := []) (by simp))
    (by decide) (fun l q htok => httpSwitch_op rfl rfl rfl htok hop hreq)

/-- A version in the place of a method. -/
theorem httpRuns_version {v : List UInt8} (hv : httpStrdup word.text = some v)
    (hres : strncmpEq v (bytes "HTTP/") 5 = true) :
    HttpRuns buf (httpStart http) (word.text.length + 1)
      (httpAt { httpHeaderClear http with httpVersion := some v, opCode := .response }
        (0 + word.text.length + 1) 0 .space .responseCode 0 0) :=
  httpRuns_plain .op (w := 0) (c := 32)
    (Or.inl ⟨rfl, rfl, rfl, rfl⟩) (by simp) (fun d h h' => stays_op.mpr ⟨h, h'⟩)
    (by rw [hbuf]; rfl) word.ne
    (by simpa using word.first (x := [])) (by simpa using word.noBlank (x := []) (by simp))
    (by decide) (fun l q htok => httpSwitch_op_response rfl rfl rfl htok hv hres)

/-- A word so long that there is no copy of it: the comparison with `HTTP/` reads a null string. -/
theorem httpHeaderParse_first_none (hnone : httpStrdup word.text = none) {n : Nat}
    (hn : word.text.length + 1 ≤ n) : httpHeaderParse http buf n = none := by
  have htext : buf.drop (httpStart http).ptr = [] ++ (word.text ++ 32 :: rest) := by rw [hbuf]; rfl
  have htok := httpRuns_token (e := .op) (g := []) (w := word.text) ⟨rfl, rfl⟩
    (Or.inl ⟨rfl, rfl⟩) (by simp) htext (by simp) word.ne
    (fun c hc => by
      have h := isBlank_isspace (word.noSpace c (List.mem_of_mem_head? hc))
      simp [httpStart, HttpState.stays, h])
    (fun c hc => by
      have h := isBlank_isspace (word.noSpace c hc)
      exact stays_op.mpr ⟨h.1, h.2.1⟩)
  obtain ⟨l, q, hloop⟩ := htok.exists_line
  have hblank : buf.drop (0 + word.text.length) = 32 :: rest := drop_add_length htext
  -- `http_strdup` gives the null pointer that `strncmp` reads
  have hfault : ∀ l q, httpSwitch buf (isBlank 32) (isNl 32)
        (httpAt (httpHeaderClear http) (0 + word.text.length) 0 .op .init l q)
      = { httpAt (httpHeaderClear http) (0 + word.text.length) 0 .op .init l q with
          fault := true } := fun l q =>
    httpSwitch_op_none (w := word.text) rfl rfl rfl
      (HttpScan.token_eq (r := 32 :: rest) htext rfl) hnone
  obtain ⟨l', q', hone⟩ := httpLoop_one
    (s := httpAt (httpHeaderClear http) (0 + word.text.length) 0 .op .init l q)
    rfl hblank (by decide) (fun l q => congrArg HttpScan.back (hfault l q))
  have hone' := hone.trans (congrArg (fun s => { s with ptr := 0 + word.text.length + 1 })
    (hfault l' q'))
  obtain ⟨k, rfl⟩ := Nat.exists_eq_add_of_le hn
  have hrun : httpLoop buf (word.text.length + 1) (httpStart http)
      = httpLoop buf 1 (httpAt (httpHeaderClear http) (0 + word.text.length) 0 .op .init l q) := by
    rw [List.length_nil, Nat.zero_add] at hloop
    rw [httpLoop_add]
    exact congrArg (httpLoop buf 1) hloop
  rw [httpHeaderParse, httpLoop_add, hrun, hone', httpLoop_of_stopped rfl]
  rfl

end FirstWord

/-! ## The start line of a request -/

section Request

variable {buf rest : List UInt8} (http : HttpHeader) (method uri version : HttpWord)

/-- What the parser has stored behind the first line of a request. -/
def requestStored (op : List UInt8) : HttpHeader :=
  { httpHeaderClear http with
    op := some op, opCode := HttpScan.opCodeOf op, uri := httpStrdup uri.text
    httpVersion := httpStrdup (version.text ++ [13]) }

/-- The loop goes through the line of a request and stores its three words. -/
theorem httpRuns_request {op : List UInt8} (hop : httpStrdup method.text = some op)
    (hreq : strncmpEq op (bytes "HTTP/") 5 = false)
    (hbuf : buf = method.text ++ 32 :: (uri.text ++ 32 :: (version.text ++ [13] ++ 10 :: rest))) :
    ∃ w, w ≤ (HttpStartLine.request method uri version).render.length ∧
      HttpRuns buf (httpStart http) (HttpStartLine.request method uri version).render.length
        (httpAt (requestStored http uri version op)
          (HttpStartLine.request method uri version).render.length w .header .version 0 0) := by
  have hm := httpRuns_method http method hbuf hop hreq
  have huri : buf.drop (0 + method.text.length + 1)
      = uri.text ++ 32 :: (version.text ++ [13] ++ 10 :: rest) :=
    drop_add_length (x := [32]) (drop_add_length (by rw [hbuf]; rfl))
  have hu : ∀ l q, HttpRuns buf
      (httpAt { httpHeaderClear http with op := some op, opCode := HttpScan.opCodeOf op }
        (0 + method.text.length + 1) 0 .space .uri l q) (uri.text.length + 1)
      (httpAt { httpHeaderClear http with
          op := some op, opCode := HttpScan.opCodeOf op, uri := httpStrdup uri.text }
        (0 + method.text.length + 1 + uri.text.length + 1) (0 + method.text.length + 1)
        .space .version 0 0) := fun l q =>
    httpRuns_plain _ (c := 32) (Or.inr ⟨l, q, rfl, rfl⟩) (by simp)
      (fun d h h' => stays_op.mpr ⟨h, h'⟩) huri uri.ne
      (by simpa using uri.first (x := [])) (by simpa using uri.noBlank (x := []) (by simp))
      (by decide) (fun l q htok => httpSwitch_uri rfl rfl rfl htok)
  have hversion : buf.drop (0 + method.text.length + 1 + uri.text.length + 1)
      = (version.text ++ [13]) ++ 10 :: rest :=
    drop_add_length (x := [32]) (drop_add_length huri)
  have hv : ∀ l q, HttpRuns buf
      (httpAt { httpHeaderClear http with
          op := some op, opCode := HttpScan.opCodeOf op, uri := httpStrdup uri.text }
        (0 + method.text.length + 1 + uri.text.length + 1) (0 + method.text.length + 1)
        .space .version l q) ((version.text ++ [13]).length + 1)
      (httpAt (requestStored http uri version op)
        (0 + method.text.length + 1 + uri.text.length + 1 + (version.text ++ [13]).length + 1)
        (0 + method.text.length + 1 + uri.text.length + 1) .header .version 0 0) := fun l q =>
    httpRuns_plain _ (c := 10) (Or.inr ⟨l, q, rfl, rfl⟩) (by simp)
      (fun d h h' => stays_op.mpr ⟨h, h'⟩) hversion (by simp) version.first
      (version.noBlank (by simp)) (by decide) (fun l q htok => httpSwitch_version rfl rfl htok)
  -- the method, the URI and the version, each with the character that ends it
  have hrun := hm.chain fun l q => (hu l q).chain hv
  have hlen : (HttpStartLine.request method uri version).render.length
      = 0 + method.text.length + 1 + uri.text.length + 1 + (version.text ++ [13]).length + 1 := by
    simp only [HttpStartLine.render, crlf, List.length_append, List.length_cons, List.length_nil]
    omega
  refine ⟨0 + method.text.length + 1 + uri.text.length + 1, by omega, ?_⟩
  rw [hlen]
  have hcount : method.text.length + 1 + (uri.text.length + 1 + ((version.text ++ [13]).length + 1))
      = 0 + method.text.length + 1 + uri.text.length + 1 + (version.text ++ [13]).length + 1 := by
    omega
  rwa [hcount] at hrun

end Request

/-! ## The start line of a response -/

section Response

variable {buf rest : List UInt8} (http : HttpHeader) (version : HttpWord) (code : Nat)
  (reason : List UInt8)

/-- What the parser has stored behind the first line of a response. Blanks in front of the reason
are part of the gap. -/
def responseStored (v : List UInt8) : HttpHeader :=
  { httpHeaderClear http with
    httpVersion := some v, opCode := .response
    responseCode := natToInt32 (min code ulongMax)
    responseMessage := httpStrdup (reason.dropWhile isBlank ++ [13]) }

theorem httpStrdup_cr : httpStrdup [13] = some [] := by decide

theorem httpStrdup_nil : httpStrdup [] = some [] := by decide

/-- The rest of a line behind a gap, in a state `e` that only a newline leaves. The line may be empty
there, and then the state is entered at its end. -/
theorem httpRuns_tail {e : HttpState} {g : List UInt8 → HttpHeader} {h : HttpHeader} {p w : Nat}
    {text : List UInt8} (hrun : e ≠ .done ∧ e ≠ .error)
    (hstays : ∀ c, isNl c = false → e.stays c = true)
    (hend : ∀ p w tok l q, HttpScan.token buf (httpAt h p w e e l q) = tok →
      httpSwitch buf (isBlank 10) (isNl 10) (httpAt h p w e e l q)
        = httpAt (g tok) p w .header e l q)
    (hline : 10 ∉ text) (htext : buf.drop p = text ++ 10 :: rest) (l q : Nat) :
    HttpRuns buf (httpAt h p w .space e l q) (text.length + 1)
      (httpAt (g (text.dropWhile HttpState.space.stays)) (p + text.length + 1)
        (p + (text.takeWhile HttpState.space.stays).length) .header e 0 0) := by
  have hsplit := List.takeWhile_append_dropWhile (p := HttpState.space.stays) (l := text)
  have hgap : ∀ c ∈ text.takeWhile HttpState.space.stays, HttpState.space.stays c = true :=
    fun c hc => List.mem_takeWhile_imp hc
  by_cases hne : text.dropWhile HttpState.space.stays = []
  · -- nothing but the gap: the scan is still in it at the end of the line
    rw [hne, List.append_nil] at hsplit
    rw [hsplit] at hgap ⊢
    have hstay : HttpRuns buf (httpAt h p w .space e l q) text.length
        (httpAt h (p + text.length) w .space e 0 0) :=
      httpRuns_stay (r := 10 :: rest) rfl rfl htext hgap
    have hlast : ∀ l q, HttpRuns buf (httpAt h (p + text.length) w .space e l q) 1
        (httpAt (g []) (p + text.length + 1) (p + text.length) .header e 0 0) := fun l q =>
      httpRuns_round_twice (e := e) (c := 10) (r := rest)
        (t := httpAt (g []) (p + text.length) (p + text.length) .header e 0 0)
        ⟨rfl, rfl⟩ (Or.inr ⟨rfl, rfl⟩)
        (drop_add_length htext) (show HttpState.space.stays 10 = false by decide)
        fun l q => hend _ _ _ l q (HttpScan.token_eq (drop_add_length htext) rfl)
    rw [hne]
    exact hstay.chain hlast
  · have hchars : ∀ c ∈ text.dropWhile HttpState.space.stays, e.stays c = true := by
      intro c hc
      have hc10 : c ≠ 10 := fun h10 => hline (h10 ▸ List.dropWhile_subset _ hc)
      exact hstays c (by simpa [isNl] using hc10)
    have hfirst : ∀ c, (text.dropWhile HttpState.space.stays).head? = some c →
        HttpState.space.stays c = false := by
      intro c hc
      have hhead := List.head?_dropWhile_not HttpState.space.stays text
      rw [hc] at hhead
      simpa using hhead
    have hword : buf.drop p = text.takeWhile HttpState.space.stays
        ++ (text.dropWhile HttpState.space.stays ++ 10 :: rest) := by
      rw [htext, ← List.append_assoc, hsplit]
    have hruns := httpRuns_word
      (s := httpAt h p w .space e l q) (e := e)
      (t := httpAt (g (text.dropWhile HttpState.space.stays))
        (p + (text.takeWhile HttpState.space.stays).length
          + (text.dropWhile HttpState.space.stays).length)
        (p + (text.takeWhile HttpState.space.stays).length) .header e 0 0)
      ⟨rfl, rfl⟩ (Or.inr ⟨rfl, rfl⟩) hrun hword
      hgap hne hfirst hchars (by decide)
      (fun l q htok => by exact hend _ _ _ l q htok) rfl
    have hlen : (text.takeWhile HttpState.space.stays).length
        + (text.dropWhile HttpState.space.stays).length = text.length := by
      rw [← List.length_append, hsplit]
    have hp : p + text.length + 1 = p + (text.takeWhile HttpState.space.stays).length
        + (text.dropWhile HttpState.space.stays).length + 1 := by omega
    rw [← hlen, ← Nat.add_assoc p]
    exact hruns

/-- The same for a line that ends in `"\r\n"`, where `g` makes the same of the carriage return alone
as of nothing. -/
theorem httpRuns_line {e : HttpState} {g : List UInt8 → HttpHeader} {h : HttpHeader} {p w : Nat}
    {text : List UInt8} (hrun : e ≠ .done ∧ e ≠ .error)
    (hstays : ∀ c, isNl c = false → e.stays c = true) (hempty : g [] = g [13])
    (hend : ∀ p w tok l q, HttpScan.token buf (httpAt h p w e e l q) = tok →
      httpSwitch buf (isBlank 10) (isNl 10) (httpAt h p w e e l q)
        = httpAt (g tok) p w .header e l q)
    (hline : ∀ c ∈ text, c ≠ 13 ∧ c ≠ 10) (htext : buf.drop p = text ++ 13 :: 10 :: rest)
    (l q : Nat) :
    ∃ w', w' ≤ p + text.length + 2 ∧
      HttpRuns buf (httpAt h p w .space e l q) (text.length + 2)
        (httpAt (g (text.dropWhile isBlank ++ [13])) (p + text.length + 2) w' .header e 0 0) := by
  have htext' : buf.drop p = (text ++ [13]) ++ 10 :: rest := by rw [htext]; simp
  have hline' : 10 ∉ text ++ [13] := by
    intro h10
    rcases List.mem_append.mp h10 with h10 | h10
    · exact (hline 10 h10).2 rfl
    · exact absurd h10 (by decide)
  have hruns := httpRuns_tail (w := w) hrun hstays hend hline' htext' l q
  -- the line has no carriage return of its own, so the gap is its blanks
  have hdrop : text.dropWhile HttpState.space.stays = text.dropWhile isBlank := by
    clear * - hline
    induction text with
    | nil => rfl
    | cons c text ih =>
        have hc : HttpState.space.stays c = isBlank c := by
          simp [HttpState.stays, (hline c (by simp)).1]
        rw [List.dropWhile_cons, List.dropWhile_cons, hc,
          ih fun d hd => hline d (List.mem_cons_of_mem _ hd)]
  have hg : g ((text ++ [13]).dropWhile HttpState.space.stays)
      = g (text.dropWhile isBlank ++ [13]) := by
    rw [List.dropWhile_append, hdrop]
    by_cases hnil : text.dropWhile isBlank = []
    · rw [hnil]
      exact hempty
    · rw [if_neg (by simpa using hnil)]
  have hle := (List.takeWhile_prefix HttpState.space.stays (l := text ++ [13])).length_le
  rw [List.length_append, List.length_singleton] at hle
  rw [hg, List.length_append] at hruns
  exact ⟨p + ((text ++ [13]).takeWhile HttpState.space.stays).length, by omega, hruns⟩

/-- The reason and the end of the line. -/
theorem httpRuns_reason {h : HttpHeader} {p w : Nat} (hline : ∀ c ∈ reason, c ≠ 13 ∧ c ≠ 10)
    (htext : buf.drop p = reason ++ 13 :: 10 :: rest) (l q : Nat) :
    ∃ w', w' ≤ p + reason.length + 2 ∧
      HttpRuns buf (httpAt h p w .space .responseMessage l q) (reason.length + 2)
        (httpAt { h with responseMessage := httpStrdup (reason.dropWhile isBlank ++ [13]) }
          (p + reason.length + 2) w' .header .responseMessage 0 0) :=
  httpRuns_line (g := fun tok => { h with responseMessage := httpStrdup tok }) (by simp)
    (fun c hc => by simp [HttpState.stays, hc]) (by rw [httpStrdup_nil, httpStrdup_cr])
    (fun _ _ _ _ _ htok => httpSwitch_responseMessage rfl rfl htok) hline htext l q

/-- And through the line of a response, where the reason may be anything. -/
theorem httpRuns_response {v : List UInt8} (hv : httpStrdup version.text = some v)
    (hres : strncmpEq v (bytes "HTTP/") 5 = true) (hline : ∀ c ∈ reason, c ≠ 13 ∧ c ≠ 10)
    (hbuf : buf = version.text ++ 32 :: (decimal code ++ 32 :: (reason ++ 13 :: 10 :: rest))) :
    ∃ w, w ≤ (HttpStartLine.response version code reason hline).render.length ∧
      HttpRuns buf (httpStart http) (HttpStartLine.response version code reason hline).render.length
        (httpAt (responseStored http code reason v)
          (HttpStartLine.response version code reason hline).render.length w
          .header .responseMessage 0 0) := by
  have hm := httpRuns_version http version hbuf hv hres
  have hcode : buf.drop (0 + version.text.length + 1)
      = decimal code ++ 32 :: (reason ++ 13 :: 10 :: rest) :=
    drop_add_length (x := [32]) (drop_add_length (by rw [hbuf]; rfl))
  have hdigit : ∀ c ∈ decimal code, isspace c = false := fun c hc =>
    isspace_digit (isdigit_of_mem_decimal hc)
  -- the number ends at the blank, so nothing behind the code is read
  have hnum : strtoul (buf.drop (0 + version.text.length + 1))
      = (min code ulongMax, (decimal code).length) := by
    obtain ⟨c, hc⟩ := List.exists_mem_of_ne_nil _ (decimal_ne_nil code)
    rw [hcode, strtoul_append_space ⟨c, hc, hdigit c hc⟩ (by decide), strtoul_decimal]
  have hpos : (decimal code).length ≠ 0 := by simpa using decimal_ne_nil code
  have hc : ∀ l q, HttpRuns buf
      (httpAt { httpHeaderClear http with httpVersion := some v, opCode := .response }
        (0 + version.text.length + 1) 0 .space .responseCode l q) ((decimal code).length + 1)
      (httpAt { httpHeaderClear http with
          httpVersion := some v, opCode := .response
          responseCode := natToInt32 (min code ulongMax) }
        (0 + version.text.length + 1 + (decimal code).length + 1) (0 + version.text.length + 1)
        .space .responseMessage 0 0) := fun l q =>
    httpRuns_plain _ (c := 32) (Or.inr ⟨l, q, rfl, rfl⟩) (by simp)
      (fun d h h' => stays_op.mpr ⟨h, h'⟩) hcode (decimal_ne_nil code)
      (fun d hd => hdigit d (List.mem_of_mem_head? hd))
      (fun d hd => ⟨(isBlank_isspace (hdigit d hd)).1, (isBlank_isspace (hdigit d hd)).2.1⟩)
      (by decide) (fun l q _ => httpSwitch_responseCode rfl (Or.inl rfl) hnum hpos)
  have hreason : buf.drop (0 + version.text.length + 1 + (decimal code).length + 1)
      = reason ++ 13 :: 10 :: rest := drop_add_length (x := [32]) (drop_add_length hcode)
  have hlen : (HttpStartLine.response version code reason hline).render.length
      = 0 + version.text.length + 1 + (decimal code).length + 1 + reason.length + 2 := by
    simp only [HttpStartLine.render, crlf, List.length_append, List.length_cons, List.length_nil]
    omega
  obtain ⟨l, q, hstart⟩ := (hm.chain hc).exists_line
  obtain ⟨w, hw, hr⟩ := httpRuns_reason (w := 0 + version.text.length + 1)
    (h := { httpHeaderClear http with
      httpVersion := some v, opCode := .response
      responseCode := natToInt32 (min code ulongMax) })
    reason hline hreason l q
  refine ⟨w, by omega, ?_⟩
  have hcount : (HttpStartLine.response version code reason hline).render.length
      = (version.text.length + 1 + ((decimal code).length + 1)) + (reason.length + 2) := by omega
  rw [HttpRuns]
  rw [hcount, httpLoop_add, hstart, ← hcount, hlen]
  exact hr

end Response

/-! ## The fields -/

section Fields

variable {buf rest : List UInt8}

@[simp] theorem httpSetLast_nil (f : HttpKeyval → HttpKeyval) : httpSetLast f [] = [] := rfl

@[simp] theorem httpSetLast_concat (f : HttpKeyval → HttpKeyval) (hs : List HttpKeyval)
    (h : HttpKeyval) : httpSetLast f (hs ++ [h]) = hs ++ [f h] := by
  simp [httpSetLast]

/-- A value is stored when the next line starts. -/
def httpSetVal (tok : List UInt8) (headers : List HttpKeyval) : List HttpKeyval :=
  httpSetLast (fun h => { h with val := httpStrdup tok }) headers

/-- What the parser stores for the fields. The last value is cut at the end of the empty line. -/
def httpFieldsStored : List HttpField → List HttpKeyval
  | []      => []
  | f :: fs =>
      ⟨httpStrdup f.name, httpStrdup (f.value ++ (crlf ++ if fs.isEmpty then [13] else []))⟩ ::
        httpFieldsStored fs

/-- The characters of a name separate nothing. -/
theorem name_not_gap {c : UInt8} (h : isalnum c = true ∨ c = 45) :
    isBlank c = false ∧ isNl c = false ∧ c ≠ 13 := by
  apply isBlank_isspace
  rcases h with h | rfl
  · have halnum : isalpha c = true ∨ isdigit c = true := by simpa [isalnum] using h
    rw [isalpha_iff, isdigit_iff] at halnum
    rw [Bool.eq_false_iff, Ne, isspace_iff]
    omega
  · decide

/-- The characters of a name, whatever the first one is. The value of the field before is stored
first. -/
theorem httpRuns_keyChars {h : HttpHeader} {p w : Nat} {next : HttpState} {c : UInt8}
    {name : List UInt8} (hc : isBlank c = false ∧ isNl c = false ∧ c ≠ 13)
    (hok : ∀ d ∈ name, HttpState.headerName.stays d = true)
    (htext : buf.drop p = c :: name ++ rest) (tok : List UInt8) (l q : Nat)
    (htok : HttpScan.token buf (httpAt h p w .header next 0 0) = tok) :
    HttpRuns buf (httpAt h p w .header next l q) (c :: name).length
      (httpAt { h with headers := httpSetVal tok h.headers ++ [⟨none, none⟩] }
        (p + (c :: name).length) p .headerName next 0 0) := by
  have hfirst : HttpRuns buf (httpAt h p w .header next l q) 1
      (httpAt { h with headers := httpSetVal tok h.headers ++ [⟨none, none⟩] } (p + 1) p
        .headerName next 0 0) :=
    httpRuns_round
      (t := httpAt { h with headers := httpSetVal tok h.headers ++ [⟨none, none⟩] } p p
        .headerName next 0 0)
      rfl htext hc.2.2 (fun l q => httpSwitch_header rfl hc.1 hc.2.1 htok) rfl
  have hmore : ∀ l q, HttpRuns buf
      (httpAt { h with headers := httpSetVal tok h.headers ++ [⟨none, none⟩] } (p + 1) p
        .headerName next l q) name.length
      (httpAt { h with headers := httpSetVal tok h.headers ++ [⟨none, none⟩] }
        (p + 1 + name.length) p .headerName next 0 0) := fun l q =>
    httpRuns_stay rfl rfl (drop_add_length (x := [c]) htext) hok
  have hrun := hfirst.chain hmore
  rw [Nat.add_assoc, Nat.add_comm 1] at hrun
  rw [List.length_cons]
  exact hrun

/-- The name of a field, with the colon. -/
theorem httpRuns_key {h : HttpHeader} {p w : Nat} {next : HttpState} {c : UInt8}
    {name : List UInt8} (hc : isBlank c = false ∧ isNl c = false ∧ c ≠ 13)
    (hok : ∀ d ∈ name, HttpState.headerName.stays d = true)
    (htext : buf.drop p = c :: name ++ 58 :: rest) (tok : List UInt8) (l q : Nat)
    (htok : HttpScan.token buf (httpAt h p w .header next 0 0) = tok) :
    HttpRuns buf (httpAt h p w .header next l q) ((c :: name).length + 1)
      (httpAt { h with headers := httpSetVal tok h.headers ++ [⟨httpStrdup (c :: name), none⟩] }
        (p + (c :: name).length + 1) p .space .headerVal 0 0) := by
  have hcolon : buf.drop (p + (c :: name).length) = 58 :: rest := drop_add_length htext
  have hend : ∀ l q, HttpRuns buf
      (httpAt { h with headers := httpSetVal tok h.headers ++ [⟨none, none⟩] }
        (p + (c :: name).length) p .headerName next l q) 1
      (httpAt { h with headers := httpSetVal tok h.headers ++ [⟨httpStrdup (c :: name), none⟩] }
        (p + (c :: name).length + 1) p .space .headerVal 0 0) := fun l q =>
    httpRuns_round
      (t := httpAt { h with headers := httpSetVal tok h.headers ++ [⟨httpStrdup (c :: name), none⟩] }
        (p + (c :: name).length) p .space .headerVal 0 0)
      rfl hcolon (by decide)
      (fun l q => by
        rw [httpSwitch_headerName (w := c :: name) rfl (HttpScan.cur_eq hcolon)
          (HttpScan.token_eq htext rfl)]
        simp [httpAt])
      rfl
  exact (httpRuns_keyChars hc hok htext tok l q htok).chain hend

/-- A name over letters, digits and `-`. -/
theorem httpRuns_name {h : HttpHeader} {p w : Nat} {next : HttpState} {name : List UInt8}
    (hne : name ≠ []) (hok : ∀ c ∈ name, isalnum c = true ∨ c = 45)
    (htext : buf.drop p = name ++ 58 :: rest) (tok : List UInt8) (l q : Nat)
    (htok : HttpScan.token buf (httpAt h p w .header next 0 0) = tok) :
    HttpRuns buf (httpAt h p w .header next l q) (name.length + 1)
      (httpAt { h with headers := httpSetVal tok h.headers ++ [⟨httpStrdup name, none⟩] }
        (p + name.length + 1) p .space .headerVal 0 0) := by
  obtain ⟨c, name, rfl⟩ := List.exists_cons_of_ne_nil hne
  refine httpRuns_key (name_not_gap (hok c (by simp))) (fun d hd => ?_) htext tok l q htok
  rcases hok d (List.mem_cons_of_mem _ hd) with h | h <;> simp [HttpState.stays, h]

/-- The value of a field, with the blank in front and the end of the line. -/
theorem httpRuns_value {h : HttpHeader} {p w : Nat} (f : HttpField)
    (htext : buf.drop p = 32 :: (f.value ++ 13 :: 10 :: rest)) (l q : Nat) :
    HttpRuns buf (httpAt h p w .space .headerVal l q) (f.value.length + 3)
      (httpAt h (p + f.value.length + 3) (p + 1) .header .headerVal 0 0) := by
  have hchars : ∀ c ∈ f.value ++ [13], HttpState.headerVal.stays c = true := by
    intro c hc
    rcases List.mem_append.mp hc with hc | hc
    · simp [HttpState.stays, isNl, f.value_line c hc]
    · rw [List.mem_singleton.mp hc]
      rfl
  have hfirst : ∀ c, (f.value ++ [13]).head? = some c → HttpState.space.stays c = false := by
    intro c hc
    rw [List.head?_append_of_ne_nil _ f.value_ne] at hc
    have hb := f.value_first c hc
    have h13 := (f.value_line c (List.mem_of_mem_head? hc)).1
    simp [HttpState.stays, hb, h13]
  -- the blank is the gap, and the `\r` goes into the value
  have hword : buf.drop p = [32] ++ ((f.value ++ [13]) ++ 10 :: rest) := by
    rw [htext]
    simp
  have hrun := httpRuns_word (s := httpAt h p w .space .headerVal l q) (e := .headerVal)
    (t := httpAt h (p + 1 + (f.value ++ [13]).length) (p + 1) .header .headerVal 0 0)
    ⟨rfl, rfl⟩ (Or.inr ⟨rfl, rfl⟩) (by simp) hword
    (by
      intro c hc
      rw [List.mem_singleton.mp hc]
      rfl)
    (by simp) hfirst hchars (by decide)
    (fun l q _ => httpSwitch_headerVal rfl rfl) rfl
  have hn : [(32 : UInt8)].length + (f.value ++ [13]).length + 1 = f.value.length + 3 := by
    simp only [List.length_append, List.length_singleton]
    omega
  have hp : p + f.value.length + 3 = p + 1 + (f.value ++ [13]).length + 1 := by
    simp only [List.length_append, List.length_singleton]
    omega
  rw [hn] at hrun
  rw [hp]
  exact hrun

/-- One field, from line start to line start. -/
theorem httpRuns_field {h : HttpHeader} {p w : Nat} {next : HttpState} (f : HttpField)
    (htext : buf.drop p = f.render ++ rest) (tok : List UInt8) (l q : Nat)
    (htok : HttpScan.token buf (httpAt h p w .header next 0 0) = tok) :
    HttpRuns buf (httpAt h p w .header next l q) f.render.length
      (httpAt { h with headers := httpSetVal tok h.headers ++ [⟨httpStrdup f.name, none⟩] }
        (p + f.render.length) (p + f.name.length + 2) .header .headerVal 0 0) := by
  have htext' : buf.drop p = f.name ++ 58 :: (32 :: (f.value ++ 13 :: 10 :: rest)) := by
    rw [htext]
    simp [HttpField.render, crlf]
  have hvalue : buf.drop (p + f.name.length + 1) = 32 :: (f.value ++ 13 :: 10 :: rest) :=
    drop_add_length (x := [58]) (drop_add_length htext')
  have hrun := (httpRuns_name f.name_ne f.name_ok htext' tok l q htok).chain
    fun l q => httpRuns_value f hvalue l q
  have hlen : f.render.length = f.name.length + 1 + (f.value.length + 3) := by
    simp only [HttpField.render, crlf, List.length_append, List.length_cons, List.length_nil]
    omega
  rw [hlen]
  have hp : p + (f.name.length + 1 + (f.value.length + 3))
      = p + f.name.length + 1 + f.value.length + 3 := by omega
  rw [hp]
  exact hrun

/-- The value of the field just read is what is between `word` and `ptr`. -/
theorem token_value {h : HttpHeader} {p : Nat} {next : HttpState} (f : HttpField)
    (htext : buf.drop p = f.render ++ rest) :
    HttpScan.token buf
        (httpAt h (p + f.render.length) (p + f.name.length + 2) .header next 0 0)
      = f.value ++ crlf := by
  refine HttpScan.token_eq (r := rest) ?_ ?_
  · refine drop_add_length (x := [58, 32]) (drop_add_length (x := f.name) ?_)
    rw [htext]
    simp [HttpField.render]
  · simp only [httpAt, HttpField.render, crlf, List.length_append, List.length_cons, List.length_nil]
    omega

/-- The fields and the empty line. The induction is on the fields; `tok` is the value of the field
before them. -/
theorem httpRuns_fields (fs : List HttpField) :
    ∀ (h : HttpHeader) (p w : Nat) (next : HttpState) (tok : List UInt8) (l q : Nat),
      buf.drop p = fs.flatMap HttpField.render ++ (crlf ++ rest) → w ≤ p →
      HttpScan.token buf (httpAt h p w .header next 0 0) = tok →
      ∃ w' next', HttpRuns buf (httpAt h p w .header next l q)
        ((fs.flatMap HttpField.render).length + 2)
        (httpAt { h with
            headers := httpSetVal (tok ++ if fs.isEmpty then [13] else []) h.headers
              ++ httpFieldsStored fs }
          (p + ((fs.flatMap HttpField.render).length + 2)) w' .done next' 0 0) := by
  induction fs with
  | nil =>
      intro h p w next tok l q htext hw htok
      have hcr : buf.drop p = [13] ++ 10 :: rest := htext
      have hnl : buf.drop (p + 1) = 10 :: rest := drop_add_length hcr
      have hstay : HttpRuns buf (httpAt h p w .header next l q) 1
          (httpAt h (p + 1) w .header next 0 0) :=
        httpRuns_stay_one rfl rfl hcr rfl
      -- the carriage return is between `word` and `ptr` when the value is stored
      have htok' : HttpScan.token buf (httpAt h (p + 1) w .header next 0 0) = tok ++ [13] := by
        have hp : p - w + 1 = p + 1 - w := by omega
        have hget : (buf.drop w)[p - w]? = some 13 := by
          rw [List.getElem?_drop, show w + (p - w) = p by omega, ← Nat.add_zero p,
            ← List.getElem?_drop, hcr]
          rfl
        rw [← htok]
        simp only [HttpScan.token, httpAt]
        rw [← hp, List.take_add_one, hget]
        rfl
      have hend : ∀ l q, HttpRuns buf (httpAt h (p + 1) w .header next l q) 1
          (httpAt { h with headers := httpSetVal (tok ++ [13]) h.headers } (p + 1 + 1) w .done
            next 0 0) := fun l q =>
        httpRuns_round
          (t := httpAt { h with headers := httpSetVal (tok ++ [13]) h.headers } (p + 1) w .done
            next 0 0)
          rfl hnl (by decide) (fun l q => httpSwitch_header_done rfl rfl rfl htok') rfl
      have hrun := hstay.chain hend
      refine ⟨w, next, ?_⟩
      simpa [httpFieldsStored] using hrun
  | cons f fs ih =>
      intro h p w next tok l q htext hw htok
      have hfield : buf.drop p = f.render ++ (fs.flatMap HttpField.render ++ (crlf ++ rest)) := by
        rw [htext, List.flatMap_cons, List.append_assoc]
      have hword : p + f.name.length + 2 ≤ p + f.render.length := by
        simp only [HttpField.render, List.length_append, List.length_cons]
        omega
      obtain ⟨l', q', hone⟩ := (httpRuns_field f hfield tok l q htok).exists_line
      obtain ⟨w', next', hrest⟩ := ih
        { h with headers := httpSetVal tok h.headers ++ [⟨httpStrdup f.name, none⟩] }
        (p + f.render.length) (p + f.name.length + 2) .headerVal (f.value ++ crlf) l' q'
        (drop_add_length hfield) hword (token_value f hfield)
      have hn : ((f :: fs).flatMap HttpField.render).length + 2
          = f.render.length + ((fs.flatMap HttpField.render).length + 2) := by
        rw [List.flatMap_cons, List.length_append]
        omega
      refine ⟨w', next', ?_⟩
      rw [hn, HttpRuns, httpLoop_add, hone, ← Nat.add_assoc p]
      simp only [List.isEmpty_cons, Bool.false_eq_true, if_false, List.append_nil]
      simp only [httpSetVal, httpSetLast_concat, List.append_assoc, List.singleton_append] at hrest
      exact hrest

end Fields

/-! ## The end of the header -/

section Finish

variable {h h' : HttpHeader} {p w : Nat} {next : HttpState} {l q : Nat}

/-- Where every field has a name, a look-up gets through. -/
theorem httpKeyvalGet_of_keys {hs : List HttpKeyval} (hkeys : ∀ k ∈ hs, k.key ≠ none)
    (key : List UInt8) : ∃ v, httpKeyvalGet hs key = some v := by
  induction hs with
  | nil => exact ⟨none, rfl⟩
  | cons k hs ih =>
      rw [httpKeyvalGet]
      cases hk : k.key with
      | none => exact absurd hk (hkeys k (by simp))
      | some s =>
          dsimp only
          split
          · exact ⟨_, rfl⟩
          · exact ih fun j hj => hkeys j (List.mem_cons_of_mem _ hj)

/-- With all keys there, a header that is complete is returned. -/
theorem httpFinish_done (next : HttpState) (hkeys : ∀ k ∈ h.headers, k.key ≠ none) :
    ∃ h', httpFinish (httpAt h p w .done next l q) = some (h', 1) := by
  obtain ⟨v, hv⟩ := httpKeyvalGet_of_keys hkeys (bytes "content-length")
  obtain ⟨v', hv'⟩ := httpKeyvalGet_of_keys hkeys (bytes "content-type")
  simp [httpFinish, httpAt, hv, hv']

/-- The look-ups at the end add to the header and change nothing in it. -/
theorem httpFinish_stored {s : HttpScan} {r : Int} (h1 : httpFinish s = some (h', r)) (hr : r = 1) :
    h'.op = s.http.op ∧ h'.opCode = s.http.opCode ∧
      (s.state ≠ .error → h'.uri = s.http.uri ∧ h'.httpVersion = s.http.httpVersion ∧
        h'.responseCode = s.http.responseCode ∧ h'.responseMessage = s.http.responseMessage ∧
        h'.headers = s.http.headers ∧ h'.headerLen = s.ptr) := by
  unfold httpFinish at h1
  split at h1
  · exact absurd h1 (by simp)
  · split at h1
    next herr =>
      simp only [Option.some.injEq, Prod.mk.injEq] at h1
      rw [← h1.1]
      exact ⟨rfl, rfl, fun hne => absurd herr hne⟩
    · split at h1
      · simp only [Option.some.injEq, Prod.mk.injEq] at h1
        omega
      · simp only [Option.bind_eq_bind, Option.bind_eq_some_iff, Option.some.injEq,
          Prod.mk.injEq] at h1
        obtain ⟨v, _, v', _, rfl, _⟩ := h1
        exact ⟨rfl, rfl, fun _ => ⟨rfl, rfl, rfl, rfl, rfl, rfl⟩⟩

end Finish

/-! ## The method stays what it is -/

/-- Behind the method, nothing changes it. -/
structure HttpScan.Behind (op : Option (List UInt8)) (opCode : HttpOp) (s : HttpScan) : Prop where
  notInit : s.state ≠ .init
  notOp : s.state ≠ .op
  space : s.state = .space → s.stateNext.follows
  http : s.http.op = op ∧ s.http.opCode = opCode

/-- A round behind the first line does not touch what the line said. -/
theorem httpRound_behind (buf : List UInt8) {s : HttpScan} {op : Option (List UInt8)}
    {opCode : HttpOp} (hs : s.Behind op opCode) : (httpRound buf s).Behind op opCode := by
  obtain ⟨l, q, hround⟩ : ∃ l q, httpRound buf s = _ := httpRound_eq_switch rfl
  rw [hround]
  by_cases hfollows : s.state.follows
  · have h : HttpScan.Leads { s with line := l, linePtr := q }
        (httpSwitch buf (isBlank (s.cur buf)) (isNl (s.cur buf))
          { s with line := l, linePtr := q }) := httpSwitch_leads hfollows
    exact ⟨h.init, h.op, fun hsp => (h.space hsp).1, h.http.1.trans hs.http.1,
      h.http.2.trans hs.http.2⟩
  · unfold httpSwitch
    cases hst : s.state with
    | init => exact absurd hst hs.notInit
    | op => exact absurd hst hs.notOp
    | space =>
        -- a gap ends in a state that does not look at the method
        have hnext := hs.space hst
        dsimp only [HttpScan.caseSpace]
        split
        · refine ⟨?_, ?_, ?_, hs.http⟩
          all_goals intro h; dsimp only at h; simp [h, HttpState.follows] at hnext
        · exact ⟨by simp, by simp, fun _ => hnext, hs.http⟩
    | done => exact ⟨by simp, by simp, by simp, hs.http⟩
    | error => exact ⟨by simp, by simp, by simp, hs.http⟩
    | _ => exact absurd trivial (by rw [hst] at hfollows; exact hfollows)

/-- Behind the operation the loop leaves it. -/
theorem httpLoop_behind (buf : List UInt8) {s : HttpScan} {op : Option (List UInt8)}
    {opCode : HttpOp} (hs : s.Behind op opCode) (n : Nat) :
    (httpLoop buf n s).http.op = op ∧ (httpLoop buf n s).http.opCode = opCode :=
  (httpLoop_keeps buf (P := HttpScan.Behind op opCode)
    (fun _ _ _ h => ⟨h.notInit, h.notOp, h.space, h.http⟩) (fun _ h => httpRound_behind buf h) hs
    n).http

/-! ## What comes back -/

/-- The fields are stored as they are when each of them is one that `http_strdup` keeps. -/
theorem httpFieldsStored_eq_iff (fs : List HttpField) :
    httpFieldsStored fs = fs.map (fun f => ⟨some f.name, some f.value⟩) ↔ httpFieldsKept fs := by
  induction fs with
  | nil => simp [httpFieldsStored, httpFieldsKept]
  | cons f fs ih =>
      have hvalue : ∀ x : List UInt8, x.length ≤ 3 → (∀ c ∈ x, isspace c = true) →
          (httpStrdup (f.value ++ x) = some f.value ↔ HttpKept f.value x.length) := fun x h h' =>
        httpStrdup_append_eq_some_iff x f.value_ne h h'
      simp only [httpFieldsStored, httpFieldsKept, List.map_cons, List.cons.injEq,
        HttpKeyval.mk.injEq, ih, httpStrdup_eq_some_iff f.name_ne, and_assoc]
      cases fs with
      | nil => rw [hvalue _ (by decide) (by decide +kernel)]; rfl
      | cons g gs =>
          simp only [List.isEmpty_cons, Bool.false_eq_true, if_false]
          rw [hvalue _ (by decide) (by decide +kernel)]
          rfl

theorem natToInt32_eq_code_iff (code : Nat) :
    natToInt32 (min code ulongMax) = code ↔ code < 2 ^ 31 := by
  unfold natToInt32 ulongMax
  split <;> omega

/-- When a reason comes through `http_strdup`. -/
theorem reason_kept_iff {reason : List UInt8} (hline : ∀ c ∈ reason, c ≠ 13 ∧ c ≠ 10) :
    httpStrdup (reason.dropWhile isBlank ++ [13]) = some reason ↔
      reason = [] ∨ HttpKept reason 1 := by
  by_cases hnil : reason = []
  · subst hnil
    exact ⟨fun _ => Or.inl rfl, fun _ => httpStrdup_cr⟩
  · have hself : httpStrdup (reason ++ [13]) = some reason ↔ HttpKept reason 1 :=
      httpStrdup_append_eq_some_iff [13] hnil (by decide) (by decide +kernel)
    by_cases hdrop : reason.dropWhile isBlank = reason
    · rw [hdrop, hself]
      exact ⟨Or.inr, fun h => h.resolve_left hnil⟩
    · obtain ⟨c, reason, rfl⟩ := List.exists_cons_of_ne_nil hnil
      -- the reason starts with a blank, and no copy does
      have hb : isBlank c = true := by
        by_contra hno
        exact hdrop (by rw [List.dropWhile_cons, if_neg hno])
      have hspace : isspace c = true := by
        by_contra hno
        rw [(isBlank_isspace (by simpa using hno)).1] at hb
        exact absurd hb (by simp)
      refine ⟨fun h => ?_, fun h => ?_⟩
      · have hhead := httpStrdup_head h (c := c) rfl
        rw [hspace] at hhead
        exact absurd hhead (by simp)
      · have hfirst := (h.resolve_left hnil).first c rfl
        rw [hspace] at hfirst
        exact absurd hfirst (by simp)

/-- The parse of a text whose first line has been read. -/
theorem httpHeaderParse_eq_finish {m : HttpMessage} {buf rest : List UInt8} {http H : HttpHeader}
    {w : Nat} {next : HttpState} (hbuf : buf = m.render ++ rest) (hheaders : H.headers = [])
    (hw : w ≤ m.start.render.length)
    (hstart : HttpRuns buf (httpStart http) m.start.render.length
      (httpAt H m.start.render.length w .header next 0 0)) :
    ∃ w' next' l q, httpHeaderParse http buf m.render.length
      = httpFinish (httpAt { H with headers := httpFieldsStored m.fields } m.render.length w' .done
          next' l q) := by
  have htext : buf.drop m.start.render.length
      = m.fields.flatMap HttpField.render ++ (crlf ++ rest) := by
    rw [hbuf, HttpMessage.render, List.append_assoc, List.append_assoc, List.drop_left]
  obtain ⟨l, q, hloop⟩ := hstart.exists_line
  obtain ⟨w', next', hfields⟩ :=
    httpRuns_fields m.fields H m.start.render.length w next _ l q htext hw rfl
  obtain ⟨l', q', hend⟩ := hfields.exists_line
  refine ⟨w', next', l', q', ?_⟩
  have hlen : m.render.length
      = m.start.render.length + ((m.fields.flatMap HttpField.render).length + 2) := by
    simp only [HttpMessage.render, List.length_append]
    rfl
  rw [httpHeaderParse, hlen, httpLoop_add, hloop]
  refine congrArg httpFinish (hend.trans ?_)
  simp only [hheaders, httpSetVal, httpSetLast_nil, List.nil_append]
  rfl

/-- The first line comes back as it is exactly when its strings are kept. -/
theorem requestStored_parsed_iff {h : HttpHeader} {method uri version : HttpWord}
    {op : List UInt8} (hop : httpStrdup method.text = some op)
    (hreq : strncmpEq op (bytes "HTTP/") 5 = false)
    (hh : h.op = some op ∧ h.opCode = HttpScan.opCodeOf op ∧ h.uri = httpStrdup uri.text ∧
      h.httpVersion = httpStrdup (version.text ++ [13]) ∧ h.responseCode = 0 ∧
      h.responseMessage = none) :
    (HttpStartLine.request method uri version).Parsed h ↔
      (HttpStartLine.request method uri version).Kept := by
  obtain ⟨h1, h2, h3, h4, h5, h6⟩ := hh
  simp only [HttpStartLine.Parsed, HttpStartLine.Kept, h1, h2, h3, h4, h5, h6, Option.some.injEq,
    httpStrdup_eq_some_iff uri.ne,
    httpStrdup_append_eq_some_iff [13] version.ne (by decide) (by decide +kernel)]
  constructor
  · rintro ⟨rfl, _, huri, hversion, _⟩
    exact ⟨(httpStrdup_eq_some_iff method.ne).mp hop, hreq, huri, hversion⟩
  · rintro ⟨hmethod, _, huri, hversion⟩
    have hself := (httpStrdup_eq_some_iff method.ne).mpr hmethod
    rw [hop, Option.some.injEq] at hself
    exact ⟨hself, by rw [hself], huri, hversion, trivial, trivial⟩

/-- What is stored of the line of a response is the line. -/
theorem responseStored_parsed_iff {h : HttpHeader} {version : HttpWord} {code : Nat}
    {reason v : List UInt8} (hline : ∀ c ∈ reason, c ≠ 13 ∧ c ≠ 10)
    (hv : httpStrdup version.text = some v) (hres : strncmpEq v (bytes "HTTP/") 5 = true)
    (hh : h.op = none ∧ h.opCode = .response ∧ h.uri = none ∧ h.httpVersion = some v ∧
      h.responseCode = natToInt32 (min code ulongMax) ∧
      h.responseMessage = httpStrdup (reason.dropWhile isBlank ++ [13])) :
    (HttpStartLine.response version code reason hline).Parsed h ↔
      (HttpStartLine.response version code reason hline).Kept := by
  obtain ⟨h1, h2, h3, h4, h5, h6⟩ := hh
  simp only [HttpStartLine.Parsed, HttpStartLine.Kept, h1, h2, h3, h4, h5, h6, Option.some.injEq,
    natToInt32_eq_code_iff, reason_kept_iff hline]
  constructor
  · rintro ⟨_, _, _, rfl, hcode, hreason⟩
    exact ⟨(httpStrdup_eq_some_iff version.ne).mp hv, hres, hcode, hreason⟩
  · rintro ⟨hversion, _, hcode, hreason⟩
    have hself := (httpStrdup_eq_some_iff version.ne).mpr hversion
    rw [hv, Option.some.injEq] at hself
    exact ⟨trivial, trivial, trivial, hself, hcode, hreason⟩

/-- What holds of the fields at the end, once the first line has been read. -/
theorem recovered_iff_of_startLine {m : HttpMessage} {P : Prop}
    (hstart : ∀ http behind, ∃ H w next, H.headers = [] ∧ w ≤ m.start.render.length ∧
      HttpRuns (m.render ++ behind) (httpStart http) m.start.render.length
        (httpAt H m.start.render.length w .header next 0 0) ∧
      ∀ h : HttpHeader, (h.op = H.op ∧ h.opCode = H.opCode ∧ h.uri = H.uri ∧
        h.httpVersion = H.httpVersion ∧ h.responseCode = H.responseCode ∧
        h.responseMessage = H.responseMessage) → (m.start.Parsed h ↔ P)) :
    m.Recovered ↔ P ∧ httpFieldsKept m.fields := by
  constructor
  · intro hrec
    obtain ⟨h, hparse, hparsed, hheaders, _⟩ := hrec default []
    -- any text behind the message will do
    obtain ⟨H, w, next, hnil, hw, hruns, hiff⟩ := hstart default []
    obtain ⟨w', next', l, q, hfinish⟩ := httpHeaderParse_eq_finish rfl hnil hw hruns
    rw [hfinish] at hparse
    obtain ⟨hop, hcode, hrest⟩ := httpFinish_stored hparse rfl
    obtain ⟨huri, hversion, hresp, hmsg, hhs, _⟩ := hrest (by simp [httpAt])
    refine ⟨(hiff h ⟨hop, hcode, huri, hversion, hresp, hmsg⟩).mp hparsed, ?_⟩
    rw [← httpFieldsStored_eq_iff, ← hheaders]
    exact hhs.symm
  · rintro ⟨hP, hfields⟩ http behind
    obtain ⟨H, w, next, hnil, hw, hruns, hiff⟩ := hstart http behind
    obtain ⟨w', next', l, q, hfinish⟩ := httpHeaderParse_eq_finish rfl hnil hw hruns
    have hstored := (httpFieldsStored_eq_iff m.fields).mpr hfields
    obtain ⟨h, hdone⟩ := httpFinish_done next'
      (h := { H with headers := httpFieldsStored m.fields }) (p := m.render.length) (w := w')
      (l := l) (q := q) (by simp [hstored])
    obtain ⟨hop, hcode, hrest⟩ := httpFinish_stored hdone rfl
    obtain ⟨huri, hversion, hresp, hmsg, hhs, hlen⟩ := hrest (by simp [httpAt])
    exact ⟨h, hfinish.trans hdone, (hiff h ⟨hop, hcode, huri, hversion, hresp, hmsg⟩).mpr hP,
      hhs.trans hstored, hlen⟩

/-- Once the method has been read, the parse has that method. -/
theorem httpHeaderParse_behind {buf : List UInt8} {http H h : HttpHeader} {k n p w : Nat}
    {next : HttpState}
    (hrun : HttpRuns buf (httpStart http) k (httpAt H p w .space next 0 0)) (hnext : next.follows)
    (hk : k ≤ n) (hparse : httpHeaderParse http buf n = some (h, 1)) :
    h.op = H.op ∧ h.opCode = H.opCode := by
  obtain ⟨l, q, hloop⟩ := hrun.exists_line
  obtain ⟨j, rfl⟩ := Nat.exists_eq_add_of_le hk
  rw [httpHeaderParse, httpLoop_add, hloop] at hparse
  obtain ⟨hop, hcode, _⟩ := httpFinish_stored hparse rfl
  have hbehind := httpLoop_behind buf (s := httpAt H p w .space next l q)
    ⟨by simp [httpAt], by simp [httpAt], fun _ => hnext, rfl, rfl⟩ j
  exact ⟨hop.trans hbehind.1, hcode.trans hbehind.2⟩

/-- No operation is the code of a response. -/
theorem opCodeOf_ne_response (op : List UInt8) : HttpScan.opCodeOf op ≠ .response := by
  unfold HttpScan.opCodeOf
  split
  · simp
  · split
    · simp
    · split <;> simp

/-- The request's half of the theorem. -/
theorem recovers_request_iff (method uri version : HttpWord) (fields : List HttpField) :
    (HttpMessage.mk (.request method uri version) fields).Recovered ↔
      (HttpMessage.mk (.request method uri version) fields).Kept := by
  have hbuf : ∀ behind, (HttpMessage.mk (.request method uri version) fields).render ++ behind
      = method.text ++ 32 :: (uri.text ++ 32 :: (version.text ++ [13] ++ 10 ::
          (fields.flatMap HttpField.render ++ (crlf ++ behind)))) := by
    intro behind
    simp [HttpMessage.render, HttpStartLine.render, crlf]
  have hlen : method.text.length + 1
      ≤ (HttpMessage.mk (.request method uri version) fields).render.length := by
    simp only [HttpMessage.render, HttpStartLine.render, List.length_append, List.length_cons]
    omega
  cases hop : httpStrdup method.text with
  | none =>
      refine iff_of_false (fun hrec => ?_) fun hkept => ?_
      · obtain ⟨h, hparse, _⟩ := hrec default []
        rw [httpHeaderParse_first_none default method (hbuf []) hop hlen] at hparse
        exact absurd hparse (by simp)
      · have hself := (httpStrdup_eq_some_iff method.ne).mpr hkept.1.1
        rw [hop] at hself
        exact absurd hself (by simp)
  | some op =>
      cases hreq : strncmpEq op (bytes "HTTP/") 5 with
      | true =>
          refine iff_of_false (fun hrec => ?_) fun hkept => ?_
          · -- a method that starts with `HTTP/` is taken for a version
            obtain ⟨h, hparse, hparsed, _⟩ := hrec default []
            have hbehind := httpHeaderParse_behind
              (httpRuns_version default method (hbuf []) hop hreq) trivial hlen hparse
            have hcode : h.opCode = HttpScan.opCodeOf method.text := hparsed.2.1
            exact opCodeOf_ne_response _ (hcode.symm.trans hbehind.2)
          · have hself := (httpStrdup_eq_some_iff method.ne).mpr hkept.1.1
            rw [hop, Option.some.injEq] at hself
            have hno := hkept.1.2.1
            rw [← hself, hreq] at hno
            exact absurd hno (by simp)
      | false =>
          refine recovered_iff_of_startLine fun http behind => ?_
          obtain ⟨w, hw, hruns⟩ :=
            httpRuns_request http method uri version hop hreq (hbuf behind)
          exact ⟨_, w, _, rfl, hw, hruns, fun h hh => requestStored_parsed_iff hop hreq hh⟩

/-- The response's half. -/
theorem recovers_response_iff (version : HttpWord) (code : Nat) (reason : List UInt8)
    (hline : ∀ c ∈ reason, c ≠ 13 ∧ c ≠ 10) (fields : List HttpField) :
    (HttpMessage.mk (.response version code reason hline) fields).Recovered ↔
      (HttpMessage.mk (.response version code reason hline) fields).Kept := by
  have hbuf : ∀ behind,
      (HttpMessage.mk (.response version code reason hline) fields).render ++ behind
        = version.text ++ 32 :: (decimal code ++ 32 :: (reason ++ 13 :: 10 ::
            (fields.flatMap HttpField.render ++ (crlf ++ behind)))) := by
    intro behind
    simp [HttpMessage.render, HttpStartLine.render, crlf]
  have hlen : version.text.length + 1
      ≤ (HttpMessage.mk (.response version code reason hline) fields).render.length := by
    simp only [HttpMessage.render, HttpStartLine.render, List.length_append, List.length_cons]
    omega
  cases hv : httpStrdup version.text with
  | none =>
      refine iff_of_false (fun hrec => ?_) fun hkept => ?_
      · obtain ⟨h, hparse, _⟩ := hrec default []
        rw [httpHeaderParse_first_none default version (hbuf []) hv hlen] at hparse
        exact absurd hparse (by simp)
      · have hself := (httpStrdup_eq_some_iff version.ne).mpr hkept.1.1
        rw [hv] at hself
        exact absurd hself (by simp)
  | some v =>
      cases hres : strncmpEq v (bytes "HTTP/") 5 with
      | true =>
          refine recovered_iff_of_startLine fun http behind => ?_
          obtain ⟨w, hw, hruns⟩ :=
            httpRuns_response http version code reason hv hres hline (hbuf behind)
          exact ⟨_, w, _, rfl, hw, hruns, fun h hh => responseStored_parsed_iff hline hv hres hh⟩
      | false =>
          refine iff_of_false (fun hrec => ?_) fun hkept => ?_
          · -- a version without `HTTP/` is taken for a method
            obtain ⟨h, hparse, hparsed, _⟩ := hrec default []
            have hbehind := httpHeaderParse_behind
              (httpRuns_method default version (hbuf []) hv hres) trivial hlen hparse
            have hcode : h.opCode = .response := hparsed.2.1
            exact opCodeOf_ne_response _ (hbehind.2.symm.trans hcode)
          · have hself := (httpStrdup_eq_some_iff version.ne).mpr hkept.1.1
            rw [hv, Option.some.injEq] at hself
            have hyes := hkept.1.2.1
            rw [← hself, hres] at hyes
            exact absurd hyes (by simp)

/-- The header comes back exactly when each of its strings survives `http_strdup`. -/
theorem httpHeaderParse_recovers_iff (m : HttpMessage) : m.Recovered ↔ m.Kept := by
  obtain ⟨start, fields⟩ := m
  cases start with
  | request method uri version => exact recovers_request_iff method uri version fields
  | response version code reason hline =>
      exact recovers_response_iff version code reason hline fields

/-- `GET / HTTP/1.1`: the path comes out empty. -/
def getRoot : HttpMessage where
  start := .request ⟨bytes "GET", by decide, by decide +kernel⟩
    ⟨bytes "/", by decide, by decide +kernel⟩ ⟨bytes "HTTP/1.1", by decide, by decide +kernel⟩
  fields := []

theorem getRoot_not_recovered : ¬ getRoot.Recovered := by
  intro hrec
  obtain ⟨h, hparse, hparsed, _⟩ := hrec default []
  have huri : h.uri = some (bytes "/") := hparsed.2.2.1
  have hval : (httpHeaderParse default (getRoot.render ++ []) getRoot.render.length).map
      (fun r => r.1.uri) = some (some []) := by decide
  rw [hparse, Option.map_some, huri] at hval
  exact absurd hval (by decide)

end Bklib
