import Bklib.Lib.Script
import Bklib.Model.HttpReq
import Bklib.Proofs.HttpReply

/-!
# `Bklib.Proofs.HttpReq`: what the callback of `http_get` is called for

The calls of the callback are a script, cut after the first call that is answered nonzero
(`HttpGet.Plays`). What `recv` returns decides the script of the receive loop: where a header is
seen (`HttpHeaderSeen`), it is the header, the rest of the bytes that came with it, the bytes of
every further `recv`, and end-of-file; otherwise there is at most an end-of-file
(`httpGetLoop_waiting`).

`httpGet_http` puts the parts of `http_get` together for an `http` url. Except for a file, the result
is the last answer of the callback.
-/

set_option autoImplicit false

namespace Bklib

open Bklib.Lib

/-! ## Events -/

/-- What the callback is called for, with the bytes it is given. -/
abbrev HttpEvent := HttpReqState × List UInt8

def HttpReqCall.event (c : HttpReqCall) : HttpEvent := (c.req.reqState, c.data)

/-- The callback answers call number `k + i` with something else than 0. -/
def HttpReqEnv.stops (e : HttpReqEnv) (k i : Nat) : Bool := !(e.func (k + i) == 0)

theorem HttpReqEnv.stops_succ (e : HttpReqEnv) (k : Nat) :
    (fun i => e.stops k (i + 1)) = e.stops (k + 1) := by
  funext i
  rw [HttpReqEnv.stops, HttpReqEnv.stops, Nat.add_assoc, Nat.add_comm 1]

theorem HttpReqEnv.stops_eq_true {e : HttpReqEnv} {k i : Nat} :
    e.stops k i = true ↔ e.func (k + i) ≠ 0 := by
  simp [HttpReqEnv.stops]

theorem HttpReqEnv.stops_eq_false {e : HttpReqEnv} {k i : Nat} :
    e.stops k i = false ↔ e.func (k + i) = 0 := by
  simp [HttpReqEnv.stops]

namespace HttpGet

/-- The events so far. -/
def events (s : HttpGet) : List HttpEvent := s.calls.map HttpReqCall.event

theorem length_events (s : HttpGet) : s.events.length = s.calls.length := List.length_map _

/-- `err` is the last answer of the callback. -/
def Answered (e : HttpReqEnv) (s : HttpGet) : Prop :=
  s.calls ≠ [] ∧ s.err = e.func (s.calls.length - 1)

/-- From `s` to `t`, the calls of `script` are made. -/
structure Plays (e : HttpReqEnv) (s : HttpGet) (script : List HttpEvent) (t : HttpGet) : Prop where
  events : t.events = s.events ++ play (e.stops s.calls.length) script
  answered : t.Answered e
  fault : t.fault = false

variable {e : HttpReqEnv} {s t u : HttpGet} {script : List HttpEvent} {c : HttpEvent}

/-- A transfer with no events of its own plays nothing. -/
theorem Plays.nil (hs : s.Answered e) (hevents : t.events = s.events) (herr : t.err = s.err)
    (hfault : t.fault = false) : Plays e s [] t := by
  have hlen : t.calls.length = s.calls.length := by
    rw [← length_events, ← length_events, hevents]
  refine ⟨by simp [hevents], ⟨fun hnil => ?_, ?_⟩, hfault⟩
  · exact hs.1 (List.length_eq_zero_iff.mp (by rw [← hlen, hnil]; rfl))
  · rw [herr, hlen]
    exact hs.2

/-- One call that ends the script. -/
theorem Plays.stop (h : t.events = s.events ++ [c]) (herr : t.err = e.func s.calls.length)
    (hfault : t.fault = false) (hstop : script = [] ∨ e.func s.calls.length ≠ 0) :
    Plays e s (c :: script) t := by
  have hlen : t.calls.length = s.calls.length + 1 := by
    rw [← length_events, h, List.length_append, length_events]
    rfl
  refine ⟨?_, ⟨fun hnil => ?_, ?_⟩, hfault⟩
  · rw [h]
    rcases hstop with rfl | hstop
    · rw [play, play_nil, ite_self]
    · rw [play_cons_of_stop (HttpReqEnv.stops_eq_true.mpr hstop)]
  · rw [hnil] at hlen
    exact absurd hlen (by simp)
  · rw [herr, hlen, Nat.add_sub_cancel]

/-- One call that is answered 0, and the rest of the script. -/
theorem Plays.cons (h : t.events = s.events ++ [c]) (hrun : e.func s.calls.length = 0)
    (hrest : Plays e t script u) : Plays e s (c :: script) u := by
  have hlen : t.calls.length = s.calls.length + 1 := by
    rw [← length_events, h, List.length_append, length_events]
    rfl
  refine ⟨?_, hrest.answered, hrest.fault⟩
  rw [hrest.events, h, play_cons_of_not (HttpReqEnv.stops_eq_false.mpr hrun),
    HttpReqEnv.stops_succ, hlen, List.append_assoc]
  rfl

theorem Plays.congr (h : Plays e s script t) (hs : u.calls = s.calls) : Plays e u script t := by
  refine ⟨?_, h.answered, h.fault⟩
  rw [h.events, HttpGet.events, HttpGet.events, hs]

end HttpGet

/-! ## What `recv` returns -/

/-- The bytes received, call by call, up to the end-of-file or an error. -/
def recvPieces : List RecvResult → List (List UInt8)
  | .bytes (b :: bs) :: rs => (b :: bs) :: recvPieces rs
  | _                      => []

/-- What comes behind the bytes is end-of-file, and not an error. -/
def recvEof : List RecvResult → Bool
  | []                     => true
  | .bytes [] :: _         => true
  | .bytes (_ :: _) :: rs  => recvEof rs
  | .error :: _            => false
  | .wouldblock :: _       => false

/-- The memory from `buf` on after `recv (sock, buf + len, sizeof (buf) - len, 0)`. -/
def recvBuf (buf : List UInt8) (len : Nat) (bs : List UInt8) : List UInt8 :=
  put buf len (bs.take (httpBufSize - len))

/-- `len` after it. -/
def recvLen (len : Nat) (bs : List UInt8) : Nat := len + (bs.take (httpBufSize - len)).length

/-- What the header parser finds then. -/
def recvVerdict (buf : List UInt8) (len : Nat) (bs : List UInt8) : Option (HttpHeader × Int) :=
  httpHeaderParse default (recvBuf buf len bs) (recvLen len bs)

/-- With `len` bytes in `buf`, receiving the first of the pieces completes the header `h`. The bytes
received by then are `data`, and the pieces behind them `rest`. -/
inductive HttpHeaderSeen (h : HttpHeader) (data : List UInt8) (rest : List (List UInt8)) :
    List UInt8 → Nat → List (List UInt8) → Prop where
  | here {buf : List UInt8} {len : Nat} {bs : List UInt8} {i : Int} :
      len < httpBufSize → recvVerdict buf len bs = some (h, i) → 0 < i →
      data = (recvBuf buf len bs).take (recvLen len bs) →
      HttpHeaderSeen h data rest buf len (bs :: rest)
  | more {buf : List UInt8} {len : Nat} {bs : List UInt8} {ps : List (List UInt8)}
      {h' : HttpHeader} :
      len < httpBufSize → recvVerdict buf len bs = some (h', 0) →
      HttpHeaderSeen h data rest (recvBuf buf len bs) (recvLen len bs) ps →
      HttpHeaderSeen h data rest buf len (bs :: ps)

/-- With `len` bytes in `buf`, all pieces leave the header incomplete and there is room for more. -/
inductive HttpHeaderPending : List UInt8 → Nat → List (List UInt8) → Prop where
  | nil {buf : List UInt8} {len : Nat} : len < httpBufSize → HttpHeaderPending buf len []
  | more {buf : List UInt8} {len : Nat} {bs : List UInt8} {ps : List (List UInt8)}
      {h' : HttpHeader} :
      len < httpBufSize → recvVerdict buf len bs = some (h', 0) →
      HttpHeaderPending (recvBuf buf len bs) (recvLen len bs) ps →
      HttpHeaderPending buf len (bs :: ps)

/-- A header is seen at one place only. -/
theorem HttpHeaderSeen.unique {h h' : HttpHeader} {data data' buf : List UInt8} {len : Nat}
    {rest rest' ps : List (List UInt8)} (hseen : HttpHeaderSeen h data rest buf len ps)
    (hseen' : HttpHeaderSeen h' data' rest' buf len ps) : h = h' ∧ data = data' ∧ rest = rest' := by
  induction hseen with
  | here _ hv hi hd =>
      cases hseen' with
      | here _ hv' _ hd' =>
          rw [hv, Option.some.injEq, Prod.mk.injEq] at hv'
          exact ⟨hv'.1, hd.trans hd'.symm, rfl⟩
      | more _ hv' _ =>
          rw [hv, Option.some.injEq, Prod.mk.injEq] at hv'
          omega
  | more _ hv _ ih =>
      cases hseen' with
      | here _ hv' hi' _ =>
          rw [hv, Option.some.injEq, Prod.mk.injEq] at hv'
          omega
      | more _ _ hmore => exact ih hmore

/-- The events of the pieces behind the header. -/
def bodyScript (ps : List (List UInt8)) (eof : Bool) : List HttpEvent :=
  ps.map (fun bs => (.body, bs.take httpBufSize)) ++ if eof then [(.eof, [])] else []

/-- The events of a reply whose header came with the bytes `data`. -/
def replyScript (h : HttpHeader) (data : List UInt8) (body : List HttpEvent) : List HttpEvent :=
  (.head, data.take h.headerLen) :: (.body, data.drop h.headerLen) :: body

/-- The header that is seen in what `recv` returns, and the script of the loop. -/
inductive HttpOutcome (buf : List UInt8) (len : Nat) (rs : List RecvResult) :
    Option HttpHeader → List HttpEvent → Prop where
  | seen {h : HttpHeader} {data : List UInt8} {rest : List (List UInt8)} :
      HttpHeaderSeen h data rest buf len (recvPieces rs) →
      HttpOutcome buf len rs (some h) (replyScript h data (bodyScript rest (recvEof rs)))
  | eof : HttpHeaderPending buf len (recvPieces rs) → recvEof rs = true →
      HttpOutcome buf len rs none [(.eof, [])]
  | silent : (∀ h data rest, ¬ HttpHeaderSeen h data rest buf len (recvPieces rs)) →
      ¬ (HttpHeaderPending buf len (recvPieces rs) ∧ recvEof rs = true) →
      HttpOutcome buf len rs none []

/-- A header is seen while the buffer has room. -/
theorem HttpHeaderSeen.lt {h : HttpHeader} {data buf : List UInt8} {len : Nat}
    {rest ps : List (List UInt8)} (hseen : HttpHeaderSeen h data rest buf len ps) :
    len < httpBufSize := by
  cases hseen with
  | here hlen => exact hlen
  | more hlen => exact hlen

/-- The first piece is no error. -/
theorem HttpHeaderSeen.verdict {h : HttpHeader} {data buf bs : List UInt8} {len : Nat}
    {rest ps : List (List UInt8)} (hseen : HttpHeaderSeen h data rest buf len (bs :: ps)) :
    ∃ h' i, recvVerdict buf len bs = some (h', i) ∧ 0 ≤ i := by
  cases hseen with
  | here _ hverdict hi => exact ⟨_, _, hverdict, by omega⟩
  | more _ hverdict => exact ⟨_, _, hverdict, Int.le_refl 0⟩

theorem HttpHeaderPending.verdict {buf bs : List UInt8} {len : Nat} {ps : List (List UInt8)}
    (hpending : HttpHeaderPending buf len (bs :: ps)) :
    ∃ h', recvVerdict buf len bs = some (h', 0) := by
  cases hpending with
  | more _ hverdict => exact ⟨_, hverdict⟩

theorem HttpHeaderPending.lt {buf : List UInt8} {len : Nat} {ps : List (List UInt8)}
    (hpending : HttpHeaderPending buf len ps) : len < httpBufSize := by
  cases hpending with
  | nil hlen => exact hlen
  | more hlen => exact hlen

/-- Bytes that leave the header incomplete change nothing in the outcome. -/
theorem HttpOutcome.more {buf bs : List UInt8} {len : Nat} {rs : List RecvResult}
    {o : Option HttpHeader} {script : List HttpEvent} {h' : HttpHeader} (hbs : bs ≠ [])
    (hlen : len < httpBufSize) (hverdict : recvVerdict buf len bs = some (h', 0))
    (h : HttpOutcome (recvBuf buf len bs) (recvLen len bs) rs o script) :
    HttpOutcome buf len (.bytes bs :: rs) o script := by
  obtain ⟨b, bs, rfl⟩ := List.exists_cons_of_ne_nil hbs
  cases h with
  | @seen h data rest hseen =>
      have hseen' : HttpHeaderSeen h data rest buf len (recvPieces (.bytes (b :: bs) :: rs)) :=
        .more hlen hverdict hseen
      exact .seen hseen'
  | eof hpending heof => exact .eof (.more hlen hverdict hpending) heof
  | silent hseen hpending =>
      refine .silent (fun h data rest hseen' => ?_) (fun hpending' => hpending ⟨?_, hpending'.2⟩)
      · cases hseen' with
        | here _ hverdict' hi =>
            rw [hverdict, Option.some.injEq, Prod.mk.injEq] at hverdict'
            omega
        | more _ _ hmore => exact hseen _ _ _ hmore
      · cases hpending'.1 with
        | more _ _ hmore => exact hmore

/-! ## Behind the header -/

section Loop

variable {e : HttpReqEnv} {s : HttpGet} {r : RecvResult} {bs : List UInt8}

theorem take_put_zero (f xs : List UInt8) : (put f 0 xs).take xs.length = xs := by
  simp [put]

theorem httpGetRound_full (hlen : httpBufSize ≤ s.len) (r : RecvResult) :
    httpGetRound e r s = { s with left := true } := by
  unfold httpGetRound
  rw [if_pos hlen]

theorem httpGetRound_eof (hlen : s.len < httpBufSize) :
    httpGetRound e (.bytes []) s = { (s.setState .eof).func e [] 0 with left := true } := by
  unfold httpGetRound
  rw [if_neg (by omega)]
  simp

theorem httpGetRound_failed (hlen : s.len < httpBufSize) (hr : r = .error ∨ r = .wouldblock) :
    httpGetRound e r s = { s with reqErr := .incomplete, left := true } := by
  unfold httpGetRound
  rw [if_neg (by omega)]
  rcases hr with rfl | rfl <;> rfl

/-- A round that receives bytes puts them behind the ones received and works on both. -/
theorem httpGetRound_bytes (hlen : s.len < httpBufSize) (hbs : bs ≠ []) :
    httpGetRound e (.bytes bs) s
      = httpGetData e { s with buf := recvBuf s.buf s.len bs, len := recvLen s.len bs } := by
  have htake : bs.take (httpBufSize - s.len) ≠ [] := by
    rw [Ne, List.take_eq_nil_iff]
    rintro (h | h)
    · omega
    · exact hbs h
  unfold httpGetRound
  rw [if_neg (by omega)]
  simp only [htake, if_false]
  rfl

/-- A round that leaves the loop is the last one. -/
theorem httpGetLoop_left {rs : List RecvResult} (h : (httpGetRound e r s).left = true) :
    httpGetLoop e (r :: rs) s = httpGetRound e r s := by
  rw [httpGetLoop]
  simp [h]

theorem httpGetLoop_stays {rs : List RecvResult} (h : (httpGetRound e r s).left = false) :
    httpGetLoop e (r :: rs) s = httpGetLoop e rs (httpGetRound e r s) := by
  rw [httpGetLoop]
  simp [h]

/-- Behind the header, with nothing in the buffer. -/
structure HttpGet.Streaming (e : HttpReqEnv) (h : HttpHeader) (s : HttpGet) : Prop where
  answered : s.Answered e
  fault : s.fault = false
  gotHeader : s.gotHeader = true
  replyHdr : s.req.replyHdr = h
  len : s.len = 0

/-- The call for body bytes. -/
theorem httpGetBody_spec {h : HttpHeader} (hgot : s.gotHeader = true) (hfault : s.fault = false)
    (hhdr : s.req.replyHdr = h) :
    (httpGetBody e s).events = s.events ++ [(.body, s.buf.take s.len)] ∧
      (httpGetBody e s).err = e.func s.calls.length ∧
      (httpGetBody e s).left = e.stops s.calls.length 0 ∧
      (httpGetBody e s).Streaming e h := by
  refine ⟨?_, rfl, rfl, ⟨?_, ?_⟩, hfault, hgot, hhdr, rfl⟩
  · simp [httpGetBody, HttpGet.events, HttpGet.func, HttpGet.setState, HttpReqCall.event,
      HttpReqCall.data]
  · simp [httpGetBody, HttpGet.func]
  · simp [httpGetBody, HttpGet.func, HttpGet.setState]

/-- The call for end-of-file. -/
theorem plays_eof (hfault : s.fault = false) :
    HttpGet.Plays e s [(.eof, [])] { (s.setState .eof).func e [] 0 with left := true } :=
  .stop (by simp [HttpGet.events, HttpGet.func, HttpGet.setState, HttpReqCall.event,
    HttpReqCall.data]) rfl hfault (Or.inl rfl)

/-- Behind the header a round hands its bytes to the callback. -/
theorem httpGetRound_streaming {h : HttpHeader} (hs : s.Streaming e h) (hleft : s.left = false)
    (hbs : bs ≠ []) :
    (httpGetRound e (.bytes bs) s).events = s.events ++ [(.body, bs.take httpBufSize)] ∧
      (httpGetRound e (.bytes bs) s).err = e.func s.calls.length ∧
      (httpGetRound e (.bytes bs) s).left = e.stops s.calls.length 0 ∧
      (httpGetRound e (.bytes bs) s).Streaming e h := by
  have hlen : s.len < httpBufSize := by
    rw [hs.len]
    decide
  obtain ⟨hevents, herr, hstop, hnext⟩ :=
    httpGetBody_spec (e := e) (s := { s with buf := recvBuf s.buf s.len bs, len := recvLen s.len bs })
      hs.gotHeader hs.fault hs.replyHdr
  have hround : httpGetRound e (.bytes bs) s
      = httpGetBody e { s with buf := recvBuf s.buf s.len bs, len := recvLen s.len bs } := by
    rw [httpGetRound_bytes hlen hbs]
    simp [httpGetData, hs.gotHeader, hleft]
  have hdata : (recvBuf s.buf s.len bs).take (recvLen s.len bs) = bs.take httpBufSize := by
    rw [recvBuf, recvLen, hs.len, Nat.zero_add]
    exact take_put_zero _ _
  rw [hround]
  rw [← hdata]
  exact ⟨hevents, herr, hstop, hnext⟩

/-- The loop behind the header plays the bytes of every `recv` and end-of-file. The induction is on
the results of `recv`. -/
theorem httpGetLoop_streaming {h : HttpHeader} (rs : List RecvResult) :
    ∀ {s : HttpGet}, s.Streaming e h → s.left = false →
      HttpGet.Plays e s (bodyScript (recvPieces rs) (recvEof rs)) (httpGetLoop e rs s) ∧
        (httpGetLoop e rs s).gotHeader = true ∧ (httpGetLoop e rs s).req.replyHdr = h := by
  have heof : ∀ {s : HttpGet}, s.Streaming e h → s.len < httpBufSize := fun hs => by
    rw [hs.len]
    decide
  induction rs with
  | nil =>
      intro s hs _
      rw [httpGetLoop, httpGetRound_eof (heof hs)]
      exact ⟨plays_eof hs.fault, hs.gotHeader, hs.replyHdr⟩
  | cons r rs ih =>
      intro s hs hleft
      have hfailed : r = .error ∨ r = .wouldblock → _ := fun hr =>
        httpGetRound_failed (e := e) (heof hs) hr
      cases r with
      | bytes bs =>
          cases bs with
          | nil =>
              -- `recv` of nothing is the end of the file, and the loop leaves
              have hround := httpGetRound_eof (e := e) (heof hs)
              rw [httpGetLoop_left (by rw [hround]), hround]
              exact ⟨plays_eof hs.fault, hs.gotHeader, hs.replyHdr⟩
          | cons b bs =>
              -- bytes are played at once; whether the loop goes on is up to the callback
              obtain ⟨hevents, herr, hstop, hnext⟩ :=
                httpGetRound_streaming hs hleft (List.cons_ne_nil b bs)
              cases hans : e.stops s.calls.length 0 with
              | true =>
                  rw [httpGetLoop_left (hstop.trans hans)]
                  exact ⟨.stop hevents herr hnext.fault
                    (Or.inr (HttpReqEnv.stops_eq_true.mp hans)), hnext.gotHeader, hnext.replyHdr⟩
              | false =>
                  rw [httpGetLoop_stays (hstop.trans hans)]
                  obtain ⟨hplays, hrest⟩ := ih hnext (hstop.trans hans)
                  exact ⟨.cons hevents (HttpReqEnv.stops_eq_false.mp hans) hplays, hrest⟩
      | error =>
          rw [httpGetLoop_left (by rw [hfailed (Or.inl rfl)]), hfailed (Or.inl rfl)]
          exact ⟨.nil hs.answered rfl rfl hs.fault, hs.gotHeader, hs.replyHdr⟩
      | wouldblock =>
          rw [httpGetLoop_left (by rw [hfailed (Or.inr rfl)]), hfailed (Or.inr rfl)]
          exact ⟨.nil hs.answered rfl rfl hs.fault, hs.gotHeader, hs.replyHdr⟩

/-! ## Up to the header -/

/-- In front of the end of the header. -/
structure HttpGet.Waiting (e : HttpReqEnv) (s : HttpGet) : Prop where
  answered : s.Answered e
  fault : s.fault = false
  gotHeader : s.gotHeader = false
  left : s.left = false

/-- The call for a header that is complete. -/
theorem httpGetHead_spec {h : HttpHeader} (hfault : s.fault = false) (hleft : s.left = false)
    (hhdr : s.req.replyHdr = h) :
    (httpGetHead e h s).events = s.events ++ [(.head, s.buf.take h.headerLen)] ∧
      (httpGetHead e h s).err = e.func s.calls.length ∧
      (httpGetHead e h s).left = e.stops s.calls.length 0 ∧
      (httpGetHead e h s).gotHeader = true ∧ (httpGetHead e h s).fault = false ∧
      (httpGetHead e h s).req.replyHdr = h := by
  unfold httpGetHead HttpReqEnv.stops
  dsimp only [HttpGet.func, HttpGet.setState]
  by_cases hans : e.func s.calls.length = 0
  · rw [if_neg (by simpa using hans)]
    simp [HttpGet.events, HttpReqCall.event, HttpReqCall.data, hans, hfault, hleft, hhdr]
  · rw [if_pos hans]
    simp [HttpGet.events, HttpReqCall.event, HttpReqCall.data, hans, hfault, hhdr]

/-- What came behind a header is in the buffer afterwards. -/
theorem httpGetHead_data {h : HttpHeader} (hlen : s.len ≤ s.buf.length)
    (hleft : (httpGetHead e h s).left = false) :
    (httpGetHead e h s).buf.take (httpGetHead e h s).len = (s.buf.take s.len).drop h.headerLen := by
  revert hleft
  unfold httpGetHead
  dsimp only [HttpGet.func, HttpGet.setState]
  split
  · intro hleft
    exact absurd hleft (by simp)
  · intro _
    rw [List.drop_take]
    by_cases hmore : 0 < s.len - h.headerLen
    · have hput := take_put_zero s.buf ((s.buf.drop h.headerLen).take (s.len - h.headerLen))
      have hcount : ((s.buf.drop h.headerLen).take (s.len - h.headerLen)).length
          = s.len - h.headerLen := by
        rw [List.length_take, List.length_drop]
        omega
      rw [hcount] at hput
      rw [if_pos hmore]
      exact hput
    · rw [if_neg hmore, Nat.eq_zero_of_not_pos hmore, List.take_zero, List.take_zero]

theorem recvLen_le (len : Nat) (bs : List UInt8) (h : len ≤ httpBufSize) :
    recvLen len bs ≤ httpBufSize := by
  rw [recvLen, List.length_take]
  omega

theorem recvLen_le_length (buf : List UInt8) (len : Nat) (bs : List UInt8) :
    recvLen len bs ≤ (recvBuf buf len bs).length := by
  rw [recvLen, recvBuf, length_put]
  omega

theorem httpGetData_of_not_got (hgot : s.gotHeader = false) :
    httpGetData e s = if (httpGetHeader e s).left then httpGetHeader e s
      else if (httpGetHeader e s).gotHeader then httpGetBody e (httpGetHeader e s)
      else httpGetHeader e s := by
  simp only [httpGetData, hgot, Bool.false_eq_true, if_false]

/-- A round whose bytes do not complete the header. -/
theorem httpGetRound_incomplete {h : HttpHeader} {i : Int} (hs : s.Waiting e)
    (hlen : s.len < httpBufSize) (hbs : bs ≠ [])
    (hverdict : recvVerdict s.buf s.len bs = some (h, i)) (hi : i ≤ 0) :
    httpGetRound e (.bytes bs) s = { s with
      buf := recvBuf s.buf s.len bs, len := recvLen s.len bs, req := { s.req with replyHdr := h }
      reqErr := if i < 0 then .badResponse else s.reqErr, left := decide (i < 0) } := by
  have hparse : httpHeaderParse (httpHeaderClear s.req.replyHdr) (recvBuf s.buf s.len bs)
      (recvLen s.len bs) = some (h, i) := hverdict
  have hdata := httpGetData_of_not_got (e := e)
    (s := { s with buf := recvBuf s.buf s.len bs, len := recvLen s.len bs }) hs.gotHeader
  rw [httpGetRound_bytes hlen hbs, hdata]
  by_cases hneg : i < 0
  · simp [httpGetHeader, hparse, hneg]
  · have hzero : i = 0 := by omega
    simp [httpGetHeader, hparse, hzero, hs.gotHeader, hs.left]

/-- The loop where the first bytes complete the header. -/
theorem httpGetLoop_complete {h : HttpHeader} (rs : List RecvResult) (hs : s.Waiting e)
    (hlen : s.len < httpBufSize) (hbs : bs ≠ [])
    (hverdict : recvVerdict s.buf s.len bs = some (h, 1)) (hend : h.headerLen ≤ recvLen s.len bs) :
    HttpGet.Plays e s
        (replyScript h ((recvBuf s.buf s.len bs).take (recvLen s.len bs))
          (bodyScript (recvPieces rs) (recvEof rs)))
        (httpGetLoop e (.bytes bs :: rs) s) ∧
      (httpGetLoop e (.bytes bs :: rs) s).gotHeader = true ∧
      (httpGetLoop e (.bytes bs :: rs) s).req.replyHdr = h := by
  set t : HttpGet := { s with
    buf := recvBuf s.buf s.len bs, len := recvLen s.len bs, req := { s.req with replyHdr := h } }
    with ht
  have hhead := httpGetHead_spec (e := e) (s := t) (h := h) hs.fault hs.left rfl
  obtain ⟨hevents, herr, hstop, hgot, hfault, hhdr⟩ := hhead
  -- the header is complete, so that the round reports the head and goes on to the body
  have hround : httpGetRound e (.bytes bs) s
      = if (httpGetHead e h t).left then httpGetHead e h t else httpGetBody e (httpGetHead e h t) := by
    rw [httpGetRound_bytes hlen hbs]
    have hheader : httpGetHeader e
        { s with buf := recvBuf s.buf s.len bs, len := recvLen s.len bs } = httpGetHead e h t := by
      have hparse : httpHeaderParse (httpHeaderClear s.req.replyHdr) (recvBuf s.buf s.len bs)
          (recvLen s.len bs) = some (h, 1) := hverdict
      simp [httpGetHeader, hparse, ht]
    have hdata := httpGetData_of_not_got (e := e)
      (s := { s with buf := recvBuf s.buf s.len bs, len := recvLen s.len bs }) hs.gotHeader
    rw [hdata, hheader, hgot, if_pos rfl]
  have hevents' : (httpGetHead e h t).events = s.events
      ++ [(.head, ((recvBuf s.buf s.len bs).take (recvLen s.len bs)).take h.headerLen)] := by
    rw [hevents, List.take_take, Nat.min_eq_left hend]
    rfl
  have herr' : (httpGetHead e h t).err = e.func s.calls.length := herr
  rw [replyScript]
  cases hans : e.stops s.calls.length 0 with
  | true =>
      have hleft : (httpGetHead e h t).left = true := hstop.trans hans
      rw [hleft, if_pos rfl] at hround
      rw [httpGetLoop_left (by rw [hround, hleft]), hround]
      exact ⟨.stop hevents' herr' hfault (Or.inr (HttpReqEnv.stops_eq_true.mp hans)), hgot, hhdr⟩
  | false =>
      have hleft : (httpGetHead e h t).left = false := hstop.trans hans
      rw [hleft, if_neg (by simp)] at hround
      obtain ⟨hevents2, herr2, hstop2, hnext⟩ := httpGetBody_spec (e := e) hgot hfault hhdr
      rw [httpGetHead_data (recvLen_le_length _ _ _) hleft] at hevents2
      -- the head is the first event of the script
      have hplays : ∀ {u : HttpGet}, HttpGet.Plays e (httpGetHead e h t)
          ((.body, ((recvBuf s.buf s.len bs).take (recvLen s.len bs)).drop h.headerLen)
            :: bodyScript (recvPieces rs) (recvEof rs)) u →
          HttpGet.Plays e s (replyScript h ((recvBuf s.buf s.len bs).take (recvLen s.len bs))
            (bodyScript (recvPieces rs) (recvEof rs))) u := fun hrest =>
        .cons hevents' (HttpReqEnv.stops_eq_false.mp hans) hrest
      cases hans2 : e.stops (httpGetHead e h t).calls.length 0 with
      | true =>
          rw [httpGetLoop_left (by rw [hround, hstop2, hans2]), hround]
          exact ⟨hplays (.stop hevents2 herr2 hnext.fault
            (Or.inr (HttpReqEnv.stops_eq_true.mp hans2))), hnext.gotHeader, hnext.replyHdr⟩
      | false =>
          rw [httpGetLoop_stays (by rw [hround, hstop2, hans2]), hround]
          obtain ⟨hrest, hgot', hhdr'⟩ := httpGetLoop_streaming rs hnext (hstop2.trans hans2)
          exact ⟨hplays (.cons hevents2 (HttpReqEnv.stops_eq_false.mp hans2) hrest), hgot', hhdr'⟩

/-- The loop up to the header and behind it. The induction is on the results of `recv`; a header that
is still incomplete goes on with the longer buffer. -/
theorem httpGetLoop_waiting (rs : List RecvResult) :
    ∀ {s : HttpGet}, s.Waiting e → s.len ≤ httpBufSize →
      ∃ o script, HttpOutcome s.buf s.len rs o script ∧
        HttpGet.Plays e s script (httpGetLoop e rs s) ∧
        (httpGetLoop e rs s).gotHeader = o.isSome ∧
        ∀ h, o = some h → (httpGetLoop e rs s).req.replyHdr = h := by
  -- a round that leaves the loop without a call
  have hsilent : ∀ {s t : HttpGet} {rs : List RecvResult}, s.Waiting e → t.calls = s.calls →
      t.err = s.err → t.fault = s.fault → t.gotHeader = s.gotHeader →
      (∀ h data rest, ¬ HttpHeaderSeen h data rest s.buf s.len (recvPieces rs)) →
      ¬ (HttpHeaderPending s.buf s.len (recvPieces rs) ∧ recvEof rs = true) →
      ∃ o script, HttpOutcome s.buf s.len rs o script ∧ HttpGet.Plays e s script t ∧
        t.gotHeader = o.isSome ∧ ∀ h, o = some h → t.req.replyHdr = h := by
    intro s t rs hs hcalls herr hfault hgot hseen hpending
    refine ⟨none, [], .silent hseen hpending, .nil hs.answered ?_ herr (hfault.trans hs.fault),
      hgot.trans hs.gotHeader, by simp⟩
    rw [HttpGet.events, HttpGet.events, hcalls]
  have hend : ∀ {s : HttpGet} {rs : List RecvResult}, s.Waiting e → s.len < httpBufSize →
      recvPieces rs = [] → recvEof rs = true →
      ∃ o script, HttpOutcome s.buf s.len rs o script ∧
        HttpGet.Plays e s script { (s.setState .eof).func e [] 0 with left := true } ∧
        s.gotHeader = o.isSome ∧ ∀ h, o = some h → s.req.replyHdr = h := by
    intro s rs hs hlen hpieces heof
    exact ⟨none, [(.eof, [])], .eof (hpieces ▸ .nil hlen) heof, plays_eof hs.fault, hs.gotHeader,
      by simp⟩
  induction rs with
  | nil =>
      intro s hs _
      rw [httpGetLoop]
      by_cases hlen : s.len < httpBufSize
      · rw [httpGetRound_eof hlen]
        exact hend hs hlen rfl rfl
      · rw [httpGetRound_full (by omega)]
        exact hsilent hs rfl rfl rfl rfl (fun h data rest hseen => hlen hseen.lt)
          fun hpending => hlen hpending.1.lt
  | cons r rs ih =>
      intro s hs hle
      by_cases hlen : s.len < httpBufSize
      · by_cases hr : r = .error ∨ r = .wouldblock
        · have hround := httpGetRound_failed (e := e) hlen hr
          have hnone : recvPieces (r :: rs) = [] ∧ recvEof (r :: rs) = false := by
            rcases hr with rfl | rfl <;> exact ⟨rfl, rfl⟩
          rw [httpGetLoop_left (by rw [hround]), hround]
          refine hsilent hs rfl rfl rfl rfl (fun h data rest hseen => ?_) (by simp [hnone.2])
          rw [hnone.1] at hseen
          cases hseen
        · cases r with
          | error => exact absurd (Or.inl rfl) hr
          | wouldblock => exact absurd (Or.inr rfl) hr
          | bytes bs =>
              cases bs with
              | nil =>
                  have hround := httpGetRound_eof (e := e) hlen
                  rw [httpGetLoop_left (by rw [hround]), hround]
                  exact hend hs hlen rfl rfl
              | cons b bs =>
                  have hsize : recvLen s.len (b :: bs) < 2 ^ 31 :=
                    Nat.lt_of_le_of_lt (recvLen_le _ (b :: bs) hle) (by decide)
                  obtain ⟨h, i, hverdict, hi⟩ := httpHeaderParse_cases default
                    (recvBuf s.buf s.len (b :: bs)) hsize
                  have hverdict' : recvVerdict s.buf s.len (b :: bs) = some (h, i) := hverdict
                  have hround := httpGetRound_incomplete hs hlen (List.cons_ne_nil b bs) hverdict'
                  rcases hi with hneg | rfl | ⟨rfl, hhlen⟩
                  · have hround := hround (by omega)
                    rw [httpGetLoop_left (by rw [hround]; simpa using hneg), hround]
                    refine hsilent hs rfl rfl rfl rfl (fun h' data rest hseen => ?_)
                      fun hpending => ?_
                    · obtain ⟨_, i', hv, hi'⟩ := hseen.verdict
                      rw [hverdict', Option.some.injEq, Prod.mk.injEq] at hv
                      omega
                    · obtain ⟨_, hv⟩ := hpending.1.verdict
                      rw [hverdict', Option.some.injEq, Prod.mk.injEq] at hv
                      omega
                  · have hround := hround (by omega)
                    rw [httpGetLoop_stays (by rw [hround]; rfl), hround]
                    obtain ⟨o, script, hout, hplays, hgot, hhdr⟩ := ih
                      (s := { s with
                        buf := recvBuf s.buf s.len (b :: bs), len := recvLen s.len (b :: bs)
                        req := { s.req with replyHdr := h }
                        reqErr := if (0 : Int) < 0 then .badResponse else s.reqErr
                        left := decide ((0 : Int) < 0) })
                      ⟨hs.answered, hs.fault, hs.gotHeader, rfl⟩ (recvLen_le _ _ hle)
                    exact ⟨o, script, hout.more (List.cons_ne_nil b bs) hlen hverdict',
                      hplays.congr rfl, hgot, hhdr⟩
                  · obtain ⟨hplays, hgot, hhdr⟩ := httpGetLoop_complete rs hs hlen
                      (List.cons_ne_nil b bs) hverdict' hhlen
                    have hseen : HttpHeaderSeen h _ (recvPieces rs) s.buf s.len
                        (recvPieces (.bytes (b :: bs) :: rs)) :=
                      .here hlen hverdict' Int.one_pos rfl
                    exact ⟨some h, _, .seen hseen, hplays, hgot,
                      fun h' heq => by rw [hhdr, Option.some.inj heq]⟩
      · have hround := httpGetRound_full (e := e) (s := s) (by omega) r
        rw [httpGetLoop_left (by rw [hround]), hround]
        exact hsilent hs rfl rfl rfl rfl (fun h data rest hseen => hlen hseen.lt)
          fun hpending => hlen hpending.1.lt

/-! ## The request -/

/-- The report of an error is one more call, and the result is its answer. -/
theorem httpGetReport_error
    (h : s.reqErr ≠ .none ∨ s.gotHeader = true ∧ s.req.replyHdr.responseCode ≠ 200) :
    (httpGetReport e s).events = s.events ++ [(.error, s.buf.take s.len)] ∧
      (httpGetReport e s).err = e.func s.calls.length := by
  unfold httpGetReport
  by_cases hcode : s.gotHeader = true ∧ s.req.replyHdr.responseCode ≠ 200
  · rw [if_pos hcode]
    simp [HttpGet.events, HttpGet.func, HttpReqCall.event, HttpReqCall.data]
  · have hreq := h.resolve_right hcode
    rw [if_neg hcode, if_pos hreq]
    simp [HttpGet.events, HttpGet.func, HttpReqCall.event, HttpReqCall.data]

theorem httpGetReport_none (hreq : s.reqErr = .none)
    (hcode : ¬ (s.gotHeader = true ∧ s.req.replyHdr.responseCode ≠ 200)) :
    httpGetReport e s = s := by
  unfold httpGetReport
  simp [if_neg hcode, hreq]

end Loop

section Http

variable (e : HttpReqEnv) (url : Url)

/-- The url is for `http`. -/
def HttpReqEnv.Http : Prop := e.urlParse = some url ∧ strcasecmpEq url.proto (bytes "http") = true

/-- The request is sent, and the callback lets it. -/
structure HttpReqEnv.Sends : Prop where
  socket : e.socket = true
  connect : e.connect = true
  send : e.send = true
  resolved : e.func 0 = 0
  connected : e.func 1 = 0
  sent : e.func 2 = 0

/-- The calls before the reply are answered 0. -/
theorem HttpReqEnv.Sends.zero {e : HttpReqEnv} (h : e.Sends) : ∀ i, i < 3 → e.func i = 0 := by
  intro i hi
  have hcases : i = 0 ∨ i = 1 ∨ i = 2 := by omega
  rcases hcases with rfl | rfl | rfl
  · exact h.resolved
  · exact h.connected
  · exact h.sent

/-- The memory after `snprintf`. -/
def printed (buf text : List UInt8) : List UInt8 := put buf 0 (text.take (httpBufSize - 1) ++ [0])

def resolveText : List UInt8 := bytes "resolving host " ++ url.host ++ bytes "\n"

def connectText : List UInt8 :=
  bytes "connecting to host " ++ url.host ++ bytes " at " ++ e.iaddrFmt ++ bytes "\n"

/-- The memory from `buf` on when the first bytes of the reply are received. -/
def httpGetMem : List UInt8 :=
  printed (printed (printed e.stack (resolveText url)) (connectText e url)) (httpGetText url)

def resolveEvent : HttpEvent :=
  (.resolve, (printed e.stack (resolveText url)).take (resolveText url).length)

def connectEvent : HttpEvent :=
  (.connect, (printed (printed e.stack (resolveText url)) (connectText e url)).take
    (connectText e url).length)

def sendEvent : HttpEvent := (.send, (httpGetMem e url).take (httpGetText url).length)

/-- The state when the callback has heard of the host, -/
def httpGetResolved : HttpGet :=
  ({ httpGetStart e with reqErr := .connect } : HttpGet).say e .resolve (resolveText url)

/-- of its address, -/
def httpGetConnected : HttpGet := (httpGetResolved e url).say e .connect (connectText e url)

/-- and of the request. -/
def httpGetRequested : HttpGet := (httpGetConnected e url).say e .send (httpGetText url)

/-- The state when the reply is awaited. -/
def httpGetAwait : HttpGet := { httpGetRequested e url with len := 0, gotHeader := false }

/-- The events before the reply, as far as the system calls go. -/
def openingScript : List HttpEvent :=
  if !e.socket then []
  else if !e.connect then [resolveEvent e url, connectEvent e url]
  else [resolveEvent e url, connectEvent e url, sendEvent e url]

variable {e url}

theorem not_file_of_http (h : e.Http url) : strcasecmpEq url.proto (bytes "file") = false := by
  have hproto : url.proto.map tolower = (bytes "http").map tolower := by
    simpa [strcasecmpEq] using h.2
  rw [strcasecmpEq, hproto]
  decide

/-- What `http_get` does for an `http` url up to the report, in terms of the answers. -/
theorem httpGetMain_http (h : e.Http url) :
    httpGetMain e (httpGetStart e)
      = if !e.socket then { httpGetStart e with reqErr := .connect }
        else if e.func 0 ≠ 0 then httpGetResolved e url
        else if e.func 1 ≠ 0 then httpGetConnected e url
        else if !e.connect then httpGetConnected e url
        else if e.func 2 ≠ 0 then httpGetRequested e url
        else if !e.send then httpGetRequested e url
        else { httpGetLoop e e.recv (httpGetAwait e url) with reqErr := .none } := by
  have hbranch : httpGetMain e (httpGetStart e)
      = httpGetHttp e url { httpGetStart e with reqErr := .badUrl } := by
    unfold httpGetMain
    simp [h.1, h.2, not_file_of_http h]
  rw [hbranch]
  rfl

/-- An error is reported by a call, and its answer is the result. -/
theorem httpGet_reported {s : HttpGet} (hmain : httpGetMain e (httpGetStart e) = s)
    (hfault : s.fault = false)
    (herr : s.reqErr ≠ .none ∨ s.gotHeader = true ∧ s.req.replyHdr.responseCode ≠ 200) :
    ∃ calls data, httpGet e = some (calls, e.func (calls.length - 1)) ∧
      calls.map HttpReqCall.event = s.events ++ [(.error, data)] := by
  obtain ⟨hevents, hret⟩ := httpGetReport_error (e := e) herr
  have hlen : (httpGetReport e s).calls.length - 1 = s.calls.length := by
    rw [← HttpGet.length_events, hevents, List.length_append, HttpGet.length_events]
    rfl
  refine ⟨_, s.buf.take s.len, ?_, hevents⟩
  rw [httpGet, hmain, hfault, hlen, ← hret]
  rfl

/-- Without an error, the result is that of the last call. -/
theorem httpGet_unreported {s : HttpGet} (hmain : httpGetMain e (httpGetStart e) = s)
    (hfault : s.fault = false) (hreq : s.reqErr = .none)
    (hcode : ¬ (s.gotHeader = true ∧ s.req.replyHdr.responseCode ≠ 200)) :
    httpGet e = some (s.calls, s.err) := by
  rw [httpGet, hmain, hfault, httpGetReport_none hreq hcode]
  rfl

/-- A request that is not sent, or not wanted by the callback, is reported. -/
theorem httpGet_unsent (h : e.Http url) (hsends : ¬ e.Sends) :
    ∃ calls data, httpGet e = some (calls, e.func (calls.length - 1)) ∧
      calls.map HttpReqCall.event
        = play (e.stops 0) (openingScript e url) ++ [(.error, data)] := by
  have hstage : ∀ s : HttpGet, httpGetMain e (httpGetStart e) = s →
      s.fault = false → s.reqErr = .connect →
      s.events = play (e.stops 0) (openingScript e url) →
      ∃ calls data, httpGet e = some (calls, e.func (calls.length - 1)) ∧
        calls.map HttpReqCall.event
          = play (e.stops 0) (openingScript e url) ++ [(.error, data)] := by
    intro s hs hfault hreq hevents
    obtain ⟨calls, data, hget, hcalls⟩ := httpGet_reported hs hfault (Or.inl (by simp [hreq]))
    exact ⟨calls, data, hget, hevents ▸ hcalls⟩
  have hmain := httpGetMain_http h
  -- one stage after the other, up to the one that fails
  by_cases hsocket : e.socket = true
  · by_cases h0 : e.func 0 = 0
    · by_cases h1 : e.func 1 = 0
      · by_cases hconnect : e.connect = true
        · refine hstage (httpGetRequested e url) ?_ rfl rfl ?_
          · by_cases h2 : e.func 2 = 0
            · have hsend : e.send = false := by
                by_contra hsend
                exact hsends ⟨hsocket, hconnect, by simpa using hsend, h0, h1, h2⟩
              simp [hmain, hsocket, hconnect, hsend, h0, h1]
            · simp [hmain, hsocket, hconnect, h0, h1, h2]
          · simp [openingScript, hsocket, hconnect, play, HttpReqEnv.stops, h0, h1]
            rfl
        · refine hstage (httpGetConnected e url) ?_ rfl rfl ?_
          · simp [hmain, hsocket, hconnect, h0]
          · simp [openingScript, hsocket, hconnect, play, HttpReqEnv.stops, h0]
            rfl
      · refine hstage (httpGetConnected e url) ?_ rfl rfl ?_
        · simp [hmain, hsocket, h0, h1]
        · cases hconnect : e.connect <;>
            simp [openingScript, hsocket, hconnect, play, HttpReqEnv.stops, h0, h1] <;> rfl
    · refine hstage (httpGetResolved e url) ?_ rfl rfl ?_
      · simp [hmain, hsocket, h0]
      · cases hconnect : e.connect <;>
          simp [openingScript, hsocket, hconnect, play, HttpReqEnv.stops, h0] <;> rfl
  · refine hstage { httpGetStart e with reqErr := .connect } ?_ rfl rfl ?_
    · simp [hmain, hsocket]
    · simp [openingScript, hsocket, httpGetStart, HttpGet.events]

theorem httpGetAwait_events (hsends : e.Sends) :
    (httpGetAwait e url).events = openingScript e url := by
  rw [openingScript, hsends.socket, hsends.connect]
  rfl

theorem httpGetAwait_waiting (e : HttpReqEnv) (url : Url) : (httpGetAwait e url).Waiting e where
  answered := ⟨List.cons_ne_nil _ _, rfl⟩
  fault := rfl
  gotHeader := rfl
  left := rfl

/-- A request that is sent gets the script of its reply, and a report where the status is not
200. -/
theorem httpGet_sent (h : e.Http url) (hsends : e.Sends) :
    ∃ o script calls data, HttpOutcome (httpGetMem e url) 0 e.recv o script ∧
      httpGet e = some (calls, e.func (calls.length - 1)) ∧
      calls.map HttpReqCall.event
        = openingScript e url ++ play (e.stops 3) script ++
          if ∃ h, o = some h ∧ h.responseCode ≠ 200 then [(.error, data)] else [] := by
  have hmain : httpGetMain e (httpGetStart e)
      = { httpGetLoop e e.recv (httpGetAwait e url) with reqErr := .none } := by
    simp [httpGetMain_http h, hsends.socket, hsends.connect, hsends.send, hsends.resolved,
      hsends.connected, hsends.sent]
  obtain ⟨o, script, hout, hplays, hgot, hhdr⟩ := httpGetLoop_waiting (e := e) e.recv
    (httpGetAwait_waiting e url) (Nat.zero_le _)
  have hevents := hplays.events
  rw [httpGetAwait_events hsends] at hevents
  have hreport : (∃ h, o = some h ∧ h.responseCode ≠ 200) ↔
      ((httpGetLoop e e.recv (httpGetAwait e url)).gotHeader = true ∧
        (httpGetLoop e e.recv (httpGetAwait e url)).req.replyHdr.responseCode ≠ 200) := by
    rw [hgot]
    constructor
    · rintro ⟨h, rfl, hcode⟩
      exact ⟨rfl, by rwa [hhdr h rfl]⟩
    · rintro ⟨hsome, hcode⟩
      obtain ⟨h, rfl⟩ := Option.isSome_iff_exists.mp hsome
      exact ⟨h, rfl, by rwa [hhdr h rfl] at hcode⟩
  by_cases hcode : ∃ h, o = some h ∧ h.responseCode ≠ 200
  · obtain ⟨calls, data, hget, hcalls⟩ := httpGet_reported hmain hplays.fault
      (Or.inr (hreport.mp hcode))
    refine ⟨o, script, calls, data, hout, hget, ?_⟩
    rw [if_pos hcode, hcalls]
    exact congrArg (· ++ _) hevents
  · have hget := httpGet_unreported hmain hplays.fault rfl fun hgot => hcode (hreport.mpr hgot)
    refine ⟨o, script, _, [], hout, hplays.answered.2 ▸ hget, ?_⟩
    rw [if_neg hcode, List.append_nil]
    exact hevents

end Http

end Bklib
