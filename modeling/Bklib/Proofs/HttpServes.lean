import Bklib.Proofs.HttpGetWith
import Bklib.Proofs.HttpHeaderText

/-!
# `Bklib.Proofs.HttpServes`: a body that comes to a callback with a state

The callback of `http_get` is never given more bytes than are in the buffer (`httpGet_sized`). A
host that serves a body (`HttpServes`) makes `http_get` give it to the callback, piece by piece, as
long as the callback answers 0: what each call keeps for the bytes so far holds for the whole body
in the end (`httpGetWith_serves`).
-/

set_option autoImplicit false

namespace Bklib

open Bklib.Lib

/-! ## The size of a piece -/

/-- A piece of a body is in the buffer. -/
def HttpReqCall.Sized (c : HttpReqCall) : Prop := c.req.reqState = .body → c.len ≤ c.buf.length

/-- So are the pieces so far, and what has been received. -/
structure HttpGet.Sized (s : HttpGet) : Prop where
  calls : ∀ c ∈ s.calls, c.Sized
  len   : s.len ≤ s.buf.length

section Sized

variable {e : HttpReqEnv} {s : HttpGet}

/-- A call with no more bytes than the buffer has keeps the pieces sized. -/
theorem HttpGet.Sized.func (h : s.Sized) (buf : List UInt8) (len : Nat)
    (hlen : s.req.reqState = .body → len ≤ buf.length) : (s.func e buf len).Sized where
  calls c hc := by
    rcases List.mem_append.mp hc with hc | hc
    · exact h.calls c hc
    · rw [List.mem_singleton.mp hc]
      exact hlen
  len := h.len

/-- A message keeps the pieces sized. -/
theorem HttpGet.Sized.say (h : s.Sized) {st : HttpReqState} (hst : st ≠ .body) (text : List UInt8) :
    (s.say e st text).Sized := by
  have hprinted : ((s.snprintf text).setState st).Sized := by
    refine ⟨h.calls, Nat.le_trans h.len ?_⟩
    show s.buf.length ≤ (put s.buf 0 (text.take (httpBufSize - 1) ++ [0])).length
    rw [length_put]
    omega
  exact hprinted.func _ _ fun hbody => absurd hbody hst

/-- Reading a file keeps the buffer's size. -/
theorem httpGetFread_sized (ds : List (List UInt8)) :
    ∀ {s : HttpGet}, s.Sized → (httpGetFread e ds s).Sized := by
  induction ds with
  | nil => exact fun h => ⟨h.calls, Nat.zero_le _⟩
  | cons d ds ih =>
      intro s h
      have hread : ({ s with
          buf := put s.buf 0 (d.take httpBufSize), len := (d.take httpBufSize).length } :
          HttpGet).Sized := by
        refine ⟨h.calls, ?_⟩
        show (d.take httpBufSize).length ≤ (put s.buf 0 (d.take httpBufSize)).length
        rw [length_put]
        omega
      have hcall := hread.func (e := e) _ _ fun _ => hread.len
      rw [httpGetFread]
      dsimp only
      split
      · exact hread
      · split
        · exact hcall
        · exact ih hcall

/-- So does a file url. -/
theorem httpGetFile_sized (h : s.Sized) : (httpGetFile e s).Sized := by
  unfold httpGetFile
  cases e.stat with
  | none => exact ⟨h.calls, h.len⟩
  | some size =>
      dsimp only
      split
      · exact ⟨h.calls, h.len⟩
      · have hread := httpGetFread_sized (e := e) e.fread (s := HttpGet.setState { s with
          reqErr := .fileNotFound
          req := { s.req with replyHdr := { s.req.replyHdr with contentLen := size } } } .body)
          ⟨h.calls, h.len⟩
        exact ⟨hread.calls, hread.len⟩

/-- So does the call for the header. -/
theorem httpGetHead_sized (h : s.Sized) (http : HttpHeader) : (httpGetHead e http s).Sized := by
  have hhead := HttpGet.Sized.func (e := e) (s := HttpGet.setState { s with
    gotHeader := true, req := { s.req with replyMax := natToInt32 http.contentLen } } .head)
    ⟨h.calls, h.len⟩ s.buf http.headerLen fun hbody => by cases hbody
  unfold httpGetHead
  dsimp only
  split
  · exact ⟨hhead.calls, hhead.len⟩
  · refine ⟨hhead.calls, ?_⟩
    have hle : s.len - http.headerLen ≤ s.buf.length := by
      have := h.len
      omega
    show s.len - http.headerLen ≤ List.length (if 0 < s.len - http.headerLen then
      put s.buf 0 ((s.buf.drop http.headerLen).take (s.len - http.headerLen)) else s.buf)
    by_cases hpos : 0 < s.len - http.headerLen
    · rw [if_pos hpos, length_put]
      omega
    · rw [if_neg hpos]
      exact hle

/-- So does a piece that is received. -/
theorem httpGetData_sized (h : s.Sized) : (httpGetData e s).Sized := by
  have hbody : ∀ {s : HttpGet}, s.Sized → (httpGetBody e s).Sized := by
    intro s h
    have hcall := HttpGet.Sized.func (e := e) (s := HttpGet.setState { s with
      req := { s.req with replyLen := toInt32 (s.req.replyLen + s.len) } } .body)
      ⟨h.calls, h.len⟩ s.buf s.len fun _ => h.len
    exact ⟨hcall.calls, Nat.zero_le _⟩
  have hparsed : ∀ http : HttpHeader,
      HttpGet.Sized { s with req := { s.req with replyHdr := http } } := fun _ => ⟨h.calls, h.len⟩
  have hheader : (httpGetHeader e s).Sized := by
    unfold httpGetHeader
    split
    · exact ⟨h.calls, h.len⟩
    · dsimp only
      split
      · exact ⟨h.calls, h.len⟩
      · split
        · exact ⟨h.calls, h.len⟩
        · exact httpGetHead_sized (hparsed _) _
  have hnext : (if s.gotHeader then s else httpGetHeader e s).Sized := by
    split
    · exact h
    · exact hheader
  have hrest : ∀ {t : HttpGet}, t.Sized →
      (if t.left then t else if t.gotHeader then httpGetBody e t else t).Sized := by
    intro t ht
    split
    · exact ht
    · split
      · exact hbody ht
      · exact ht
  exact hrest hnext

/-- So does a round of the loop. -/
theorem httpGetRound_sized (h : s.Sized) (r : RecvResult) : (httpGetRound e r s).Sized := by
  unfold httpGetRound
  split
  · exact ⟨h.calls, h.len⟩
  cases r with
  | bytes bs =>
      dsimp only
      split
      · have heof := HttpGet.Sized.func (e := e) (s := s.setState .eof) ⟨h.calls, h.len⟩
          [] 0 fun _ => Nat.zero_le _
        exact ⟨heof.calls, heof.len⟩
      · refine httpGetData_sized ⟨h.calls, ?_⟩
        show s.len + (bs.take (httpBufSize - s.len)).length
          ≤ (put s.buf s.len (bs.take (httpBufSize - s.len))).length
        rw [length_put]
        omega
  | error => exact ⟨h.calls, h.len⟩
  | wouldblock => exact ⟨h.calls, h.len⟩

/-- So does the loop. -/
theorem httpGetLoop_sized (rs : List RecvResult) :
    ∀ {s : HttpGet}, s.Sized → (httpGetLoop e rs s).Sized := by
  induction rs with
  | nil => exact fun h => httpGetRound_sized h _
  | cons r rs ih =>
      intro s h
      rw [httpGetLoop]
      split
      · exact httpGetRound_sized h r
      · exact ih (httpGetRound_sized h r)

/-- So does a request. -/
theorem httpGetHttp_sized (h : s.Sized) (url : Url) : (httpGetHttp e url s).Sized := by
  have hsay : ∀ {s : HttpGet} (st : HttpReqState) (text : List UInt8), s.Sized → st ≠ .body →
      (s.say e st text).Sized := fun st text h hst => h.say hst text
  have hloop : ∀ {s : HttpGet}, s.Sized →
      ({ httpGetLoop e e.recv { s with len := 0, gotHeader := false } with reqErr := .none } :
        HttpGet).Sized := by
    intro s h
    have hrun := httpGetLoop_sized (e := e) e.recv
      (s := { s with len := 0, gotHeader := false }) ⟨h.calls, Nat.zero_le _⟩
    exact ⟨hrun.calls, hrun.len⟩
  have hstart : ({ s with reqErr := .connect } : HttpGet).Sized := ⟨h.calls, h.len⟩
  have hresolve := hsay .resolve (bytes "resolving host " ++ url.host ++ bytes "\n") hstart
    (by decide)
  unfold httpGetHttp
  dsimp only
  split
  · exact hstart
  split
  · exact hresolve
  split
  · exact hsay _ _ hresolve (by decide)
  split
  · exact hsay _ _ hresolve (by decide)
  split
  · exact hsay _ _ (hsay _ _ hresolve (by decide)) (by decide)
  split
  · exact hsay _ _ (hsay _ _ hresolve (by decide)) (by decide)
  · exact hloop (hsay _ _ (hsay _ _ hresolve (by decide)) (by decide))

/-- Every piece of a body is in the buffer that the callback is given. -/
theorem httpGet_sized {calls : List HttpReqCall} {ret : Int}
    (hget : httpGet e = some (calls, ret)) :
    ∀ c ∈ calls, c.Sized := by
  have hstart : ({ httpGetStart e with reqErr := .badUrl } : HttpGet).Sized :=
    ⟨fun c hc => absurd hc List.not_mem_nil, Nat.zero_le _⟩
  have hmain : (httpGetMain e (httpGetStart e)).Sized := by
    unfold httpGetMain
    dsimp only
    split
    · exact hstart
    · split
      · exact httpGetFile_sized hstart
      · split
        · exact hstart
        · exact httpGetHttp_sized hstart _
  have hreport : ∀ {t : HttpGet}, t.Sized → (httpGetReport e t).Sized := by
    intro t ht
    have hcode : (if t.gotHeader ∧ t.req.replyHdr.responseCode ≠ 200 then
        { t with reqErr := .fileNotFound } else t).Sized := by
      split
      · exact ⟨ht.calls, ht.len⟩
      · exact ht
    have hcall : ∀ {s : HttpGet}, s.Sized → (if s.reqErr ≠ .none then
        { s with req := { s.req with reqState := .error, reqError := s.reqErr } }.func e s.buf s.len
        else s).Sized := by
      intro s hs
      split
      · exact HttpGet.Sized.func (s := { s with
          req := { s.req with reqState := .error, reqError := s.reqErr } }) ⟨hs.calls, hs.len⟩
          _ _ fun hbody => by cases hbody
      · exact hs
    exact hcall hcode
  rw [← httpGet_calls hget]
  split
  · exact hmain.calls
  · exact (hreport hmain).calls

end Sized

/-! ## A host that serves a body -/

/-- The url is for `http`, and its host takes the request and answers with a header of status 200
and the body, in pieces of any size. -/
structure HttpServes (e : HttpReqEnv) (urlstr body : List UInt8) : Prop where
  url     : ∃ url, httpGetUrl urlstr = some url ∧ strcasecmpEq url.proto (bytes "http") = true
  socket  : e.socket = true
  connect : e.connect = true
  send    : e.send = true
  stream  : ∃ head chunks, HttpHeaderText head 200 ∧ head.length < httpBufSize ∧
    HttpCut head.length (head ++ body) chunks ∧ e.recv = chunks.map .bytes

section Serves

variable {e : HttpReqEnv} {urlstr body : List UInt8}

/-- A delivery's body is its pieces in a row. -/
theorem bodyBytes_delivery (head : List UInt8) (bodies : List (List UInt8)) :
    bodyBytes (deliveryScript head bodies) = bodies.flatten := by
  have hmap : bodyBytes (bodies.map (.body, ·)) = bodies.flatten := by
    induction bodies with
    | nil => rfl
    | cons bs bodies ih => simp [ih]
  simp [deliveryScript, hmap]

/-- A delivery reports no error. -/
theorem deliveryScript_quiet (head : List UInt8) (bodies : List (List UInt8)) :
    ∀ ev ∈ deliveryScript head bodies, ev.1 ≠ .error := by
  intro ev hev
  simp only [deliveryScript, List.mem_cons, List.mem_append, List.mem_map, List.not_mem_nil,
    or_false] at hev
  rcases hev with rfl | ⟨bs, -, rfl⟩ | rfl <;> simp

/-- The calls, as long as they are answered 0. -/
theorem HttpServes.calls (h : HttpServes e urlstr body) :
    ∃ calls, httpGetCalls e urlstr (fun _ => 0) = some (calls, 0) ∧
      bodyBytes (calls.map HttpReqCall.event) = body ∧
      ∀ c ∈ calls, c.req.reqState ≠ .error ∧ c.Sized := by
  obtain ⟨url, hurl, hproto⟩ := h.url
  obtain ⟨head, chunks, htext, hlen, hcut, hrecv⟩ := h.stream
  obtain ⟨E, hE⟩ : ∃ E : HttpReqEnv,
    E = { e with urlParse := httpGetUrl urlstr, func := fun _ => 0 } := ⟨_, rfl⟩
  have hhttp : E.Http url := by
    rw [hE]
    exact ⟨hurl, hproto⟩
  have hzero : ∀ k, E.func k = 0 := by
    intro k
    rw [hE]
  have hsends : E.Sends := by
    rw [hE]
    exact ⟨h.socket, h.connect, h.send, rfl, rfl, rfl⟩
  obtain ⟨header, data, rest, bodies, hseen, hcode, hbody, hscript⟩ :=
    htext.outcome hlen hcut url (e := E) (by rw [hE]; exact hrecv)
  have hevents := httpGetSeen_of_headerSeen hhttp hsends hseen hcode
  rw [hscript, hzero, play_eq_self fun i _ => HttpReqEnv.stops_eq_false.mpr (hzero _)] at hevents
  obtain ⟨⟨calls, ret⟩, hget, hpair⟩ := Option.map_eq_some_iff.mp hevents
  obtain ⟨hcalls, rfl⟩ := Prod.ext_iff.mp hpair
  have hcalls : calls.map HttpReqCall.event = openingScript E url ++ deliveryScript head bodies :=
    hcalls
  refine ⟨calls, ?_, ?_, fun c hc => ⟨?_, httpGet_sized hget c hc⟩⟩
  · rw [hE] at hget
    exact hget
  · rw [hcalls, bodyBytes_append, bodyBytes_delivery, hbody, openingScript_of_sends url hsends]
    simp [resolveEvent, connectEvent, sendEvent]
  · have hmem : c.event ∈ calls.map HttpReqCall.event := List.mem_map_of_mem hc
    rw [hcalls] at hmem
    rcases List.mem_append.mp hmem with hmem | hmem
    · exact openingScript_quiet _ hmem
    · exact deliveryScript_quiet _ _ _ hmem

variable {σ : Type} {func : σ → HttpReqCall → σ × Int} {P : σ → List UInt8 → Prop}

/-- Calls that are no errors, and the bytes of the body they have brought. The induction is on the
calls: the ones before have brought `data`. -/
theorem stateAfter_serves
    (hstep : ∀ s data c, P s data → c.req.reqState ≠ .error → c.Sized →
      data ++ bodyBytes [c.event] <+: body →
      (func s c).2 = 0 ∧ P (func s c).1 (data ++ bodyBytes [c.event]))
    (cs : List HttpReqCall) :
    ∀ {s data}, P s data → (∀ c ∈ cs, c.req.reqState ≠ .error ∧ c.Sized) →
      data ++ bodyBytes (cs.map HttpReqCall.event) <+: body →
      P (stateAfter func s cs) (data ++ bodyBytes (cs.map HttpReqCall.event)) ∧
        ∀ k c, cs[k]? = some c → (func (stateAfter func s (cs.take k)) c).2 = 0 := by
  induction cs with
  | nil =>
      intro s data hs _ _
      refine ⟨?_, fun k c hc => by cases hc⟩
      rw [List.map_nil, bodyBytes_nil, List.append_nil]
      exact hs
  | cons c cs ih =>
      intro s data hs hcs hbody
      have hsplit : bodyBytes ((c :: cs).map HttpReqCall.event)
          = bodyBytes [c.event] ++ bodyBytes (cs.map HttpReqCall.event) := by
        rw [← bodyBytes_append]
        rfl
      rw [hsplit, ← List.append_assoc] at hbody ⊢
      obtain ⟨hc, hsized⟩ := hcs c List.mem_cons_self
      obtain ⟨hzero, hnext⟩ := hstep s data c hs hc hsized ((List.prefix_append _ _).trans hbody)
      obtain ⟨hlast, hanswers⟩ := ih hnext (fun d hd => hcs d (List.mem_cons_of_mem _ hd)) hbody
      refine ⟨hlast, fun k d hd => ?_⟩
      cases k with
      | zero =>
          obtain rfl := Option.some.inj hd
          exact hzero
      | succ k => exact hanswers k d hd

/-- `http_get` brings the body to a callback that answers 0. What each call keeps for the bytes so
far holds for the whole body in the end. -/
theorem httpGetWith_serves (h : HttpServes e urlstr body) (func : σ → HttpReqCall → σ × Int)
    (arg : σ) (hstart : P arg [])
    (hstep : ∀ s data c, P s data → c.req.reqState ≠ .error → c.Sized →
      data ++ bodyBytes [c.event] <+: body →
      (func s c).2 = 0 ∧ P (func s c).1 (data ++ bodyBytes [c.event])) :
    ∃ t, httpGetWith e urlstr func arg = some (t, 0) ∧ P t body := by
  obtain ⟨calls, hcalls, hbody, hquiet⟩ := h.calls
  have hasked : httpGetAsked e urlstr (fun _ => 0) = calls := by
    rw [httpGetAsked, hcalls]
    rfl
  obtain ⟨hlast, hanswers⟩ := stateAfter_serves hstep calls hstart hquiet
    (by rw [List.nil_append, hbody])
  rw [List.nil_append, hbody] at hlast
  refine ⟨_, ?_, hlast⟩
  have hzero : replies (httpGetAsked e urlstr) func arg 0 = fun _ => 0 :=
    replies_const (by rw [hasked]; exact hanswers)
  show (httpGetCalls e urlstr (replies (httpGetAsked e urlstr) func arg 0)).map _ = _
  rw [hzero, hcalls]
  rfl

end Serves

end Bklib
