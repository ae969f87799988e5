import Bklib.Proofs.HttpDelivery
import Bklib.Proofs.HttpLength
import Bklib.Proofs.HttpStatus

/-!
# `Bklib.Proofs.HttpReport`: which failures `http_get` reports

`http_get` should return 0 without an `HTTP_REQ_ERROR` only for a complete transfer, and should
return every nonzero answer of the callback (`HttpReports`). What a complete transfer is, the text of
the reply says: its status is `200`, and its `Content-Length` is the number of body bytes. The error is
kept in `req_err`, and that is cleared behind the receive loop, whatever ended the loop: no length is
looked at. The answers of the callback are kept in `err`, and the call for an error overwrites it, as
the end of a file does.

`HttpReportsWhen` says for which results of the calls out of `http_get` neither happens
(`httpReports_iff`). The proof goes through the scripts of `HttpReq`: the number of calls made is the
only thing that the two sides are compared on.
-/

set_option autoImplicit false

namespace Bklib

open Bklib.Lib

/-! ## Statement -/

/-- The body bytes that the callback was given. -/
def bodyBytes (events : List HttpEvent) : List UInt8 :=
  (events.filter fun ev => ev.1 = .body).flatMap Prod.snd

/-- The text of a `Content-Length` is the decimal number `n`. A text that is no number asks for a
length that no content has. -/
structure HttpLengthIs (text : List UInt8) (n : Nat) : Prop where
  ne : httpValue text ≠ []
  digits : ∀ c ∈ httpValue text, isdigit c = true
  value : digitsVal 10 (httpValue text) = n

/-- The reply `data` has status 200 and, where it has a `Content-Length`, it is `n`. -/
def HttpReplyOk (data : List UInt8) (n : Nat) : Prop :=
  HttpSays200 data ∧ ∀ text, httpContentLength data = some text → HttpLengthIs text n

/-- A complete header with status 200 was received and, where it has a `Content-Length`, as many body
bytes were delivered. -/
def HttpComplete (e : HttpReqEnv) (url : Url) (events : List HttpEvent) : Prop :=
  ∃ h data rest, HttpHeaderSeen h data rest (httpGetMem e url) 0 (recvPieces e.recv) ∧
    HttpReplyOk data (bodyBytes events).length

/-- `http_get` reports every incomplete transfer and returns what the callback answers. -/
structure HttpReports (e : HttpReqEnv) : Prop where
  complete : ∀ url events, e.Http url → httpGetSeen e = some (events, 0) →
    (∀ ev ∈ events, ev.1 ≠ .error) → HttpComplete e url events
  answer : ∀ events ret i, httpGetSeen e = some (events, ret) → i < events.length →
    e.func i ≠ 0 → ret = e.func i

/-- Where one of `n` calls from number `k` on is the first that is answered nonzero, the call behind
it has the same answer. -/
def HttpReqEnv.Repeats (e : HttpReqEnv) (k n : Nat) : Prop :=
  ∀ i, i < n → (∀ j, j < i → e.func (k + j) = 0) → e.func (k + i) ≠ 0 →
    e.func (k + i + 1) = e.func (k + i)

/-- The number of calls before the request is sent. -/
def openingCalls (e : HttpReqEnv) : Nat := if !e.socket then 0 else if !e.connect then 2 else 3

/-- The number of calls for a reply. -/
def replyCalls (e : HttpReqEnv) (rest : List (List UInt8)) : Nat :=
  rest.length + 2 + if recvEof e.recv then 1 else 0

/-- The memory that the parser is given: what was received, and what is behind it. -/
def replyBuf (e : HttpReqEnv) (url : Url) (data : List UInt8) : List UInt8 :=
  data ++ (httpGetMem e url).drop data.length

/-- The content of a reply: what is behind the header in `data`, and the `rest` in pieces as long as
the buffer. -/
def replyContent (e : HttpReqEnv) (url : Url) (data : List UInt8) (rest : List (List UInt8)) :
    List UInt8 :=
  data.drop (httpHead (replyBuf e url data)).length ++ (rest.map (·.take httpBufSize)).flatten

/-- The condition on a request that is sent. -/
def HttpTransferReports (e : HttpReqEnv) (url : Url) : Prop :=
  (∃ h data rest, HttpHeaderSeen h data rest (httpGetMem e url) 0 (recvPieces e.recv) ∧
    if httpStatusCode (replyBuf e url data) = 200 then
      (∃ i, i < replyCalls e rest ∧ e.func (3 + i) ≠ 0) ∨
        HttpReplyOk data (replyContent e url data rest).length
    else e.Repeats 3 (replyCalls e rest)) ∨
  (HttpHeaderPending (httpGetMem e url) 0 (recvPieces e.recv) ∧ recvEof e.recv = true ∧
    e.func 3 ≠ 0)

/-- The condition for `http_get` to report what it should. A file that is read has all its calls
answered 0. For `http`, a call before the reply that is answered nonzero is followed by the same
answer to the report, and the reply is as `HttpTransferReports` says. -/
def HttpReportsWhen (e : HttpReqEnv) : Prop :=
  (∀ url, e.urlParse = some url → strcasecmpEq url.proto (bytes "file") = true →
    e.stat ≠ none → e.fopen = true →
    ∀ i, i < (e.fread.takeWhile (· ≠ [])).length → e.func i = 0) ∧
  ∀ url, e.Http url → e.Repeats 0 (openingCalls e) ∧ (e.Sends → HttpTransferReports e url)

/-! ## Answers -/

section Answers

variable {e : HttpReqEnv}

/-- Every nonzero answer to one of `n` calls is the last one. -/
def HttpReqEnv.LastAnswer (e : HttpReqEnv) (n : Nat) : Prop :=
  ∀ i, i < n → e.func i ≠ 0 → e.func (n - 1) = e.func i

/-- The calls before a script and the first `n` of its own are answered 0. -/
theorem func_eq_zero {k n : Nat} (hk : ∀ i, i < k → e.func i = 0)
    (hrun : ∀ j, j < n → e.stops k j = false) : ∀ i, i < k + n → e.func i = 0 := by
  intro i hi
  by_cases hik : i < k
  · exact hk i hik
  · obtain ⟨j, rfl⟩ := Nat.exists_eq_add_of_le (Nat.le_of_not_lt hik)
    exact HttpReqEnv.stops_eq_false.mp (hrun j (by omega))

/-- A script that is cut after the first nonzero answer. -/
theorem lastAnswer_play {k : Nat} (hk : ∀ i, i < k → e.func i = 0) (script : List HttpEvent) :
    e.LastAnswer (k + (play (e.stops k) script).length) := by
  intro i hi hans
  rcases play_cases (e.stops k) script with ⟨hrun, hplay⟩ | ⟨n, hn, hrun, _, hplay⟩
  · rw [hplay] at hi
    exact absurd (func_eq_zero hk hrun i hi) hans
  · rw [hplay, List.length_take, Nat.min_eq_left (by omega)] at hi ⊢
    have hlast : i = k + n := by
      by_contra hne
      exact hans (func_eq_zero hk hrun i (by omega))
    rw [hlast]
    rfl

/-- The same with one more call, for an error. -/
theorem lastAnswer_report_iff {k : Nat} (hk : ∀ i, i < k → e.func i = 0)
    (script : List HttpEvent) :
    e.LastAnswer (k + (play (e.stops k) script).length + 1) ↔ e.Repeats k script.length := by
  rcases play_cases (e.stops k) script with ⟨hrun, hplay⟩ | ⟨n, hn, hrun, hstop, hplay⟩
  · rw [hplay]
    refine iff_of_true (fun i hi hans => ?_) fun i hi _ hans => ?_
    · have hlast : i = k + script.length := by
        by_contra hne
        exact hans (func_eq_zero hk hrun i (by omega))
      rw [hlast]
      rfl
    · exact absurd (HttpReqEnv.stops_eq_false.mp (hrun i hi)) hans
  · rw [hplay, List.length_take, Nat.min_eq_left (by omega)]
    have hans := HttpReqEnv.stops_eq_true.mp hstop
    constructor
    · intro h i hi hzero hne
      -- the first nonzero answer is that of call `k + n`
      have hin : i = n := by
        rcases Nat.lt_trichotomy i n with hlt | heq | hgt
        · exact absurd (HttpReqEnv.stops_eq_false.mp (hrun i hlt)) hne
        · exact heq
        · exact absurd (hzero n hgt) hans
      rw [hin]
      exact h (k + n) (by omega) hans
    · intro h i hi hne
      have hsame := h n hn (fun j hj => HttpReqEnv.stops_eq_false.mp (hrun j hj)) hans
      have hcases : i = k + n ∨ i = k + n + 1 := by
        by_contra hno
        exact hne (func_eq_zero hk hrun i (by omega))
      rcases hcases with rfl | rfl
      · exact hsame
      · rfl

end Answers

/-! ## Requests -/

section Requests

variable {e : HttpReqEnv} {url : Url}

/-- What is claimed, where the run is known and ends with the last answer. -/
theorem httpReports_iff_of_seen {events : List HttpEvent}
    (hseen : httpGetSeen e = some (events, e.func (events.length - 1))) :
    HttpReports e ↔ e.LastAnswer events.length ∧
      ∀ url, e.Http url → e.func (events.length - 1) = 0 → (∀ ev ∈ events, ev.1 ≠ .error) →
        HttpComplete e url events := by
  constructor
  · intro h
    refine ⟨fun i hi hans => h.answer events _ i hseen hi hans, fun url hhttp hret hnone => ?_⟩
    rw [hret] at hseen
    exact h.complete url events hhttp hseen hnone
  · rintro ⟨hlast, hcomplete⟩
    constructor
    · intro url events' hhttp hseen' hnone
      rw [hseen, Option.some.injEq, Prod.mk.injEq] at hseen'
      obtain ⟨rfl, hret⟩ := hseen'
      exact hcomplete url hhttp hret hnone
    · intro events' ret i hseen' hi hans
      rw [hseen, Option.some.injEq, Prod.mk.injEq] at hseen'
      obtain ⟨rfl, rfl⟩ := hseen'
      exact hlast i hi hans

/-- A run that ends with a report. -/
theorem httpReports_iff_of_error {k : Nat} (pre script : List HttpEvent) {data : List UInt8}
    (hpre : pre.length = k) (hk : ∀ i, i < k → e.func i = 0)
    (hseen : ∃ events, httpGetSeen e = some (events, e.func (events.length - 1)) ∧
      events = pre ++ play (e.stops k) script ++ [(.error, data)]) :
    HttpReports e ↔ e.Repeats k script.length := by
  obtain ⟨events, hseen, hevents⟩ := hseen
  have hlen : events.length = k + (play (e.stops k) script).length + 1 := by
    rw [hevents, List.length_append, List.length_append, hpre]
    rfl
  rw [httpReports_iff_of_seen hseen, hlen, lastAnswer_report_iff hk script, and_iff_left]
  intro url _ _ hnone
  exact absurd rfl (hnone (.error, data) (by simp [hevents]))

/-- What is seen of a transfer is its calls, and the callback's last answer. -/
theorem httpGetSeen_of_calls {calls : List HttpReqCall}
    (h : httpGet e = some (calls, e.func (calls.length - 1))) :
    httpGetSeen e = some (calls.map HttpReqCall.event,
      e.func ((calls.map HttpReqCall.event).length - 1)) := by
  rw [httpGetSeen, h, List.length_map]
  rfl

/-- The opening script has the calls of the opening. -/
theorem length_openingScript (e : HttpReqEnv) (url : Url) :
    (openingScript e url).length = openingCalls e := by
  rw [openingScript, openingCalls]
  split
  · rfl
  · split <;> rfl

/-- A request that is not sent. -/
theorem httpReports_iff_of_unsent (hhttp : e.Http url) (hsends : ¬ e.Sends) :
    HttpReports e ↔ e.Repeats 0 (openingCalls e) := by
  obtain ⟨calls, data, hget, hcalls⟩ := httpGet_unsent hhttp hsends
  rw [← length_openingScript e url]
  exact httpReports_iff_of_error [] _ rfl (by simp) ⟨_, httpGetSeen_of_calls hget, hcalls⟩

@[simp] theorem bodyBytes_nil : bodyBytes [] = [] := rfl

@[simp] theorem bodyBytes_cons (ev : HttpEvent) (events : List HttpEvent) :
    bodyBytes (ev :: events) = (if ev.1 = .body then ev.2 else []) ++ bodyBytes events := by
  by_cases h : ev.1 = .body <;> simp [bodyBytes, h]

@[simp] theorem bodyBytes_append (xs ys : List HttpEvent) :
    bodyBytes (xs ++ ys) = bodyBytes xs ++ bodyBytes ys := by
  simp [bodyBytes]

/-- The body of the pieces is each cut at the buffer's size. -/
theorem bodyBytes_pieces (rest : List (List UInt8)) :
    bodyBytes (rest.map fun bs => (.body, bs.take httpBufSize))
      = (rest.map (·.take httpBufSize)).flatten := by
  induction rest with
  | nil => rfl
  | cons bs rest ih => simp [ih]

/-- What a reply whose header is seen delivers. -/
theorem bodyBytes_reply (hsends : e.Sends) (h : HttpHeader) (data : List UInt8)
    (rest : List (List UInt8)) (eof : Bool) :
    bodyBytes (openingScript e url ++ replyScript h data (bodyScript rest eof))
      = data.drop h.headerLen ++ (rest.map (·.take httpBufSize)).flatten := by
  rw [openingScript_of_sends url hsends, replyScript, bodyScript]
  cases eof <;> simp [bodyBytes_pieces, resolveEvent, connectEvent, sendEvent]

/-- There is no error among the events of a reply. -/
theorem no_error_reply (hsends : e.Sends) (h : HttpHeader) (data : List UInt8)
    (rest : List (List UInt8)) (eof : Bool) :
    ∀ ev ∈ openingScript e url ++ replyScript h data (bodyScript rest eof), ev.1 ≠ .error := by
  intro ev hev
  rw [openingScript_of_sends url hsends, replyScript, bodyScript] at hev
  simp only [List.mem_append, List.mem_cons, List.mem_map, List.not_mem_nil, or_false] at hev
  rcases hev with (rfl | rfl | rfl) | rfl | rfl | ⟨bs, _, rfl⟩ | hev
  case inr.inr.inr.inr =>
    cases eof with
    | false => exact absurd hev (by simp)
    | true =>
        rw [if_pos rfl, List.mem_singleton] at hev
        simp [hev]
  all_goals simp [resolveEvent, connectEvent, sendEvent]

theorem length_replyScript (h : HttpHeader) (data : List UInt8) (rest : List (List UInt8)) :
    (replyScript h data (bodyScript rest (recvEof e.recv))).length = replyCalls e rest := by
  rw [replyScript, bodyScript, replyCalls]
  cases recvEof e.recv <;> simp

/-- A request that is sent. -/
theorem httpReports_iff_of_sent (hhttp : e.Http url) (hsends : e.Sends) :
    HttpReports e ↔ HttpTransferReports e url := by
  have hk := hsends.zero
  have hurl : ∀ url', e.Http url' → url' = url := by
    intro url' h
    exact Option.some.inj (h.1.symm.trans hhttp.1)
  have hopening : (openingScript e url).length = 3 := by
    rw [openingScript_of_sends url hsends]
    rfl
  obtain ⟨o, script, calls, report, hout, hget, hcalls⟩ := httpGet_sent hhttp hsends
  have hseen := httpGetSeen_of_calls hget
  rw [hcalls] at hseen
  cases hout with
  | @seen h data rest hheader =>
      -- the parser's code and length are those of the text
      have hstatus : h.responseCode = httpStatusCode (replyBuf e url data) := hheader.text.1
      have hbody : bodyBytes (openingScript e url
          ++ replyScript h data (bodyScript rest (recvEof e.recv))) = replyContent e url data rest := by
        rw [bodyBytes_reply hsends, hheader.text.2]
        rfl
      have honly : HttpTransferReports e url ↔
          if httpStatusCode (replyBuf e url data) = 200 then
            (∃ i, i < replyCalls e rest ∧ e.func (3 + i) ≠ 0) ∨
              HttpReplyOk data (replyContent e url data rest).length
          else e.Repeats 3 (replyCalls e rest) := by
        constructor
        · rintro (⟨h', data', rest', hheader', hcond⟩ | ⟨hpending, _⟩)
          · obtain ⟨rfl, rfl, rfl⟩ := hheader.unique hheader'
            exact hcond
          · exact absurd hpending hheader.not_pending
        · exact fun hcond => Or.inl ⟨h, data, rest, hheader, hcond⟩
      rw [honly, ← hstatus]
      by_cases hcode : h.responseCode = 200
      · rw [if_pos hcode]
        rw [if_neg (by rintro ⟨h', heq, hne⟩; exact hne (Option.some.inj heq ▸ hcode)),
          List.append_nil] at hseen
        set script := replyScript h data (bodyScript rest (recvEof e.recv)) with hscript
        have hlen : (openingScript e url ++ play (e.stops 3) script).length
            = 3 + (play (e.stops 3) script).length := by
          rw [List.length_append, hopening]
        rw [httpReports_iff_of_seen hseen, hlen, and_iff_right (lastAnswer_play hk script),
          ← length_replyScript h data rest, ← hscript]
        rcases play_cases (e.stops 3) script with ⟨hrun, hplay⟩ | ⟨n, hn, hrun, hstop, hplay⟩
        · -- every call is answered 0, so the delivery is compared with the header
          have hzero := func_eq_zero hk hrun
          rw [hplay]
          constructor
          · intro hcomplete
            obtain ⟨h', data', rest', hheader', hok⟩ := hcomplete url hhttp
              (hzero _ (by omega)) (no_error_reply hsends h data rest (recvEof e.recv))
            obtain ⟨rfl, rfl, rfl⟩ := hheader.unique hheader'
            rw [hscript, hbody] at hok
            exact Or.inr hok
          · rintro (⟨i, hi, hans⟩ | hok) url' hhttp' _ _
            · exact absurd (hzero _ (by omega)) hans
            · rw [hurl url' hhttp']
              refine ⟨h, data, rest, hheader, ?_⟩
              rwa [hscript, hbody]
        · have hans := HttpReqEnv.stops_eq_true.mp hstop
          rw [hplay, List.length_take, Nat.min_eq_left (by omega)]
          refine iff_of_true (fun _ _ hret => absurd hret hans) (Or.inl ⟨n, hn, hans⟩)
      · rw [if_neg hcode, ← length_replyScript h data rest]
        rw [if_pos ⟨h, rfl, hcode⟩] at hseen
        exact httpReports_iff_of_error _ _ hopening hk ⟨_, hseen, rfl⟩
  | eof hpending heof =>
      have hnone : ∀ h data rest,
          ¬ HttpHeaderSeen h data rest (httpGetMem e url) 0 (recvPieces e.recv) :=
        fun h data rest hheader => hheader.not_pending hpending
      have hone : play (e.stops 3) [((.eof, []) : HttpEvent)] = [(.eof, [])] := by
        rw [play, play_nil, ite_self]
      rw [if_neg (by simp), List.append_nil] at hseen
      rw [httpReports_iff_of_seen hseen, List.length_append, hopening,
        and_iff_right (lastAnswer_play hk _), hone]
      constructor
      · intro hcomplete
        refine Or.inr ⟨hpending, heof, fun hret => ?_⟩
        obtain ⟨h, data, rest, hheader, _⟩ := hcomplete url hhttp hret (by
          rw [openingScript_of_sends url hsends]
          simp [resolveEvent, connectEvent, sendEvent])
        exact hnone _ _ _ hheader
      · rintro (⟨h, data, rest, hheader, _⟩ | ⟨_, _, hans⟩)
        · exact absurd hheader (hnone _ _ _)
        · exact fun _ _ hret => absurd hret hans
  | silent hnone hpending =>
      rw [if_neg (by simp), List.append_nil] at hseen
      refine iff_of_false (fun h => ?_) ?_
      · have hcomplete := ((httpReports_iff_of_seen hseen).mp h).2 url hhttp
          (by rw [play_nil, List.append_nil, hopening]; exact hsends.sent) (by
            rw [openingScript_of_sends url hsends]
            simp [resolveEvent, connectEvent, sendEvent])
        obtain ⟨h, data, rest, hheader, _⟩ := hcomplete
        exact hnone _ _ _ hheader
      · rintro (⟨h, data, rest, hheader, _⟩ | ⟨hpend, heof, _⟩)
        · exact hnone _ _ _ hheader
        · exact hpending ⟨hpend, heof⟩

/-- A run that makes no call but the report. -/
theorem httpReports_of_report {s : HttpGet} (hmain : httpGetMain e (httpGetStart e) = s)
    (hfault : s.fault = false) (herr : s.reqErr ≠ .none) (hevents : s.events = []) :
    HttpReports e := by
  obtain ⟨calls, data, hget, hcalls⟩ := httpGet_reported hmain hfault (Or.inl herr)
  rw [hevents] at hcalls
  refine (httpReports_iff_of_error [] [] rfl (by simp)
    ⟨_, httpGetSeen_of_calls hget, hcalls⟩).mpr fun i hi => ?_
  exact absurd hi (Nat.not_lt_zero i)

end Requests

/-! ## Files -/

section Files

variable {e : HttpReqEnv} {url : Url}

/-- The reads of a file up to its end, one call each. -/
theorem httpGetFread_spec (ds : List (List UInt8)) :
    ∀ {s : HttpGet}, s.req.reqState = .body → s.gotHeader = false → s.fault = false →
      (httpGetFread e ds s).events = s.events ++ play (e.stops s.calls.length)
          ((ds.takeWhile (· ≠ [])).map fun d => (.body, d.take httpBufSize)) ∧
        (httpGetFread e ds s).gotHeader = false ∧ (httpGetFread e ds s).fault = false := by
  induction ds with
  | nil =>
      intro s _ hgot hfault
      exact ⟨by simp [httpGetFread, HttpGet.events], hgot, hfault⟩
  | cons d ds ih =>
      intro s hst hgot hfault
      have hempty : (d.take httpBufSize).length ≤ 0 ↔ d = [] := by
        rw [Nat.le_zero, List.length_eq_zero_iff, List.take_eq_nil_iff]
        exact or_iff_right (by decide)
      rw [httpGetFread]
      -- an empty read is the end of the file
      by_cases hd : d = []
      · rw [List.takeWhile_cons_of_neg (by simpa using hd)]
        simp only [if_pos (hempty.mpr hd)]
        exact ⟨by simp [HttpGet.events], hgot, hfault⟩
      · rw [List.takeWhile_cons_of_pos (by simpa using hd), List.map_cons]
        simp only [if_neg (fun h => hd (hempty.mp h))]
        have hcall : HttpReqCall.event ⟨s.req, put s.buf 0 (d.take httpBufSize),
            (d.take httpBufSize).length⟩ = (.body, d.take httpBufSize) := by
          rw [HttpReqCall.event, HttpReqCall.data, hst, take_put_zero]
        -- the callback may stop the transfer with any read
        by_cases hans : e.func s.calls.length = 0
        · rw [play_cons_of_not (HttpReqEnv.stops_eq_false.mpr hans), HttpReqEnv.stops_succ]
          simp only [HttpGet.func, hans, ne_eq, not_true_eq_false, if_false]
          obtain ⟨hevents, hrest⟩ := ih (s := { s with
            buf := put s.buf 0 (d.take httpBufSize), len := (d.take httpBufSize).length
            calls := s.calls ++ [⟨s.req, put s.buf 0 (d.take httpBufSize),
              (d.take httpBufSize).length⟩], err := 0 }) hst hgot hfault
          refine ⟨hevents.trans ?_, hrest⟩
          simp only [HttpGet.events, List.map_append, List.map_cons, List.map_nil, hcall,
            List.length_append, List.length_singleton, List.append_assoc, List.singleton_append]
        · rw [play_cons_of_stop (HttpReqEnv.stops_eq_true.mpr hans)]
          simp only [HttpGet.func, ne_eq, hans, not_false_eq_true, if_true]
          exact ⟨by simp only [HttpGet.events, List.map_append, List.map_cons, List.map_nil, hcall],
            hgot, hfault⟩

/-- The state when a file of `size` bytes is to be read. -/
def httpGetOpened (e : HttpReqEnv) (size : Nat) : HttpGet :=
  { httpGetStart e with
    reqErr := .fileNotFound, req := ⟨.body, .none, { e.http with contentLen := size }, 0, 0⟩ }

/-- A file that is read: the result is 0, whatever was answered. -/
theorem httpGetSeen_file {size : Nat} (hurl : e.urlParse = some url)
    (hfile : strcasecmpEq url.proto (bytes "file") = true) (hstat : e.stat = some size)
    (hopen : e.fopen = true) :
    httpGetSeen e = some (play (e.stops 0)
      ((e.fread.takeWhile (· ≠ [])).map fun d => (.body, d.take httpBufSize)), 0) := by
  have hmain : httpGetMain e (httpGetStart e)
      = { httpGetFread e e.fread (httpGetOpened e size) with reqErr := .none, err := 0 } := by
    rw [httpGetMain, hurl]
    simp only [hfile, if_true, httpGetFile, hstat, hopen, Bool.not_true, Bool.false_eq_true,
      if_false]
    rfl
  obtain ⟨hevents, hgot, hfault⟩ := httpGetFread_spec (e := e) (s := httpGetOpened e size) e.fread
    rfl rfl rfl
  rw [httpGetSeen, httpGet_unreported hmain hfault rfl (by simp [hgot])]
  exact congrArg (fun events => some (events, (0 : Int))) hevents

/-- A file is reported exactly when the callback lets every chunk pass. -/
theorem httpReports_iff_of_file {size : Nat} (hurl : e.urlParse = some url)
    (hfile : strcasecmpEq url.proto (bytes "file") = true) (hstat : e.stat = some size)
    (hopen : e.fopen = true) :
    HttpReports e ↔ ∀ i, i < (e.fread.takeWhile (· ≠ [])).length → e.func i = 0 := by
  have hseen := httpGetSeen_file hurl hfile hstat hopen
  have hcount : ((e.fread.takeWhile (· ≠ [])).map fun d =>
      ((.body, d.take httpBufSize) : HttpEvent)).length = (e.fread.takeWhile (· ≠ [])).length :=
    List.length_map _
  generalize ((e.fread.takeWhile (· ≠ [])).map fun d =>
    ((.body, d.take httpBufSize) : HttpEvent)) = script at hseen hcount
  rw [← hcount]
  constructor
  · intro h i hi
    rcases play_cases (e.stops 0) script with ⟨hrun, _⟩ | ⟨n, hn, _, hstop, hplay⟩
    · have := HttpReqEnv.stops_eq_false.mp (hrun i hi)
      rwa [Nat.zero_add] at this
    · -- the nonzero answer is lost
      have hans := HttpReqEnv.stops_eq_true.mp hstop
      rw [Nat.zero_add] at hans
      rw [hplay] at hseen
      exact absurd (h.answer _ _ n hseen (by rw [List.length_take]; omega) hans).symm hans
  · intro hzero
    have hplay : play (e.stops 0) script = script :=
      play_eq_self fun i hi => HttpReqEnv.stops_eq_false.mpr (by rw [Nat.zero_add]; exact hzero i hi)
    rw [hplay] at hseen
    constructor
    · intro url' events hhttp _ _
      have hsame : url' = url := Option.some.inj (hhttp.1.symm.trans hurl)
      have hno := not_file_of_http hhttp
      rw [hsame, hfile] at hno
      exact absurd hno (by simp)
    · intro events ret i hseen' hi hans
      rw [hseen, Option.some.injEq, Prod.mk.injEq] at hseen'
      rw [← hseen'.1] at hi
      exact absurd (hzero i hi) hans

end Files

/-! ## The condition -/

/-- `http_get` reports what it should exactly under the condition. -/
theorem httpReports_iff (e : HttpReqEnv) : HttpReports e ↔ HttpReportsWhen e := by
  cases hurl : e.urlParse with
  | none =>
      refine iff_of_true ?_ ⟨fun url hurl' => ?_, fun url hhttp => ?_⟩
      · exact httpReports_of_report (s := { httpGetStart e with reqErr := .badUrl })
          (by rw [httpGetMain, hurl]) rfl (by simp) rfl
      · rw [hurl] at hurl'
        exact absurd hurl' (by simp)
      · have hurl' := hhttp.1
        rw [hurl] at hurl'
        exact absurd hurl' (by simp)
  | some url =>
      -- `file`, `http`, or any other protocol
      have honly : ∀ url', e.urlParse = some url' → url' = url := fun url' h =>
        Option.some.inj (h.symm.trans hurl)
      by_cases hfile : strcasecmpEq url.proto (bytes "file") = true
      · have hnothttp : ∀ url', ¬ e.Http url' := by
          intro url' hhttp
          have hno := not_file_of_http hhttp
          rw [honly url' hhttp.1, hfile] at hno
          exact absurd hno (by simp)
        by_cases hread : e.stat ≠ none ∧ e.fopen = true
        · obtain ⟨size, hsize⟩ := Option.ne_none_iff_exists'.mp hread.1
          rw [httpReports_iff_of_file hurl hfile hsize hread.2]
          constructor
          · exact fun h => ⟨fun _ _ _ _ _ => h, fun url' hhttp => absurd hhttp (hnothttp url')⟩
          · exact fun h => h.1 url hurl hfile hread.1 hread.2
        · refine iff_of_true ?_ ⟨fun url' _ _ hstat hopen => absurd ⟨hstat, hopen⟩ hread,
            fun url' hhttp => absurd hhttp (hnothttp url')⟩
          -- a file that cannot be read is reported as an error without an event
          have hmain : ∃ s, httpGetMain e (httpGetStart e) = s ∧ s.fault = false ∧
              s.reqErr ≠ .none ∧ s.events = [] := by
            rw [httpGetMain, hurl]
            simp only [hfile, if_true, httpGetFile]
            cases hstat : e.stat with
            | none => exact ⟨_, rfl, rfl, by simp, rfl⟩
            | some size =>
                have hopen : (!e.fopen) = true := by
                  simpa [hstat] using hread
                simp only [hopen, if_true]
                exact ⟨_, rfl, rfl, by simp [HttpGet.setState], rfl⟩
          obtain ⟨s, hs, hfault, herr, hevents⟩ := hmain
          exact httpReports_of_report hs hfault herr hevents
      · by_cases hproto : strcasecmpEq url.proto (bytes "http") = true
        · have hhttp : e.Http url := ⟨hurl, hproto⟩
          have hcond : HttpReportsWhen e ↔
              e.Repeats 0 (openingCalls e) ∧ (e.Sends → HttpTransferReports e url) := by
            constructor
            · exact fun h => h.2 url hhttp
            · refine fun h => ⟨fun url' hurl' hfile' => ?_, fun url' hhttp' => ?_⟩
              · rw [honly url' hurl'] at hfile'
                exact absurd hfile' hfile
              · rw [honly url' hhttp'.1]
                exact h
          rw [hcond]
          by_cases hsends : e.Sends
          · rw [httpReports_iff_of_sent hhttp hsends]
            refine ⟨fun h => ⟨fun i hi _ hans => ?_, fun _ => h⟩, fun h => h.2 hsends⟩
            -- the request has been sent, so that all of the opening calls returned 0
            have hthree : openingCalls e = 3 := by
              rw [← length_openingScript e url, openingScript_of_sends url hsends]
              rfl
            exact absurd (hsends.zero (0 + i) (by omega)) hans
          · rw [httpReports_iff_of_unsent hhttp hsends]
            exact ⟨fun h => ⟨h, fun hs => absurd hs hsends⟩, fun h => h.1⟩
        · refine iff_of_true ?_ ⟨fun url' hurl' hfile' => ?_, fun url' hhttp => ?_⟩
          · exact httpReports_of_report (s := { httpGetStart e with reqErr := .badUrl })
              (by rw [httpGetMain, hurl]; simp [hfile, hproto]) rfl (by simp) rfl
          · rw [honly url' hurl'] at hfile'
            exact absurd hfile' hfile
          · have hproto' := hhttp.2
            rw [honly url' hhttp.1] at hproto'
            exact absurd hproto' hproto

/-- A host that closes the connection at once: `http_get` returns 0 and reports nothing. -/
theorem httpReports_closed : ¬ HttpReports (replyEnv []) := by
  intro h
  have hhttp : (replyEnv []).Http ⟨bytes "http", bytes "h", bytes "/", bytes "/"⟩ :=
    ⟨rfl, by decide +kernel⟩
  have hcond := (httpReports_iff_of_sent hhttp ⟨rfl, rfl, rfl, rfl, rfl, rfl⟩).mp h
  rcases hcond with ⟨_, _, _, hseen, _⟩ | ⟨_, _, hans⟩
  · cases hseen
  · exact hans rfl

end Bklib
