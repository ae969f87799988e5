import Bklib.Model.Update
import Bklib.Proofs.HttpReport

/-!
# `Bklib.Proofs.HttpGetWith`: `http_get` and a callback with a state

The calls that `http_get` makes depend on nothing but the answers before them (`httpGet_asks`), so
that a callback with a state answers each of them in the state that the calls before it have left.
The calls are a dialogue that ends with the first answer that is not 0, and then there may be a
report of an error (`httpGetWith_dialogue`).
-/

set_option autoImplicit false

namespace Bklib

open Bklib.Lib

/-! ## The calls, one after the other -/

section Asks

variable (e : HttpReqEnv)

/-- A part of `http_get`, in the environment with these answers. -/
abbrev HttpAsks (F : HttpReqEnv → HttpGet → HttpGet) : Prop :=
  Asks HttpGet.calls fun (f : Nat → Int) s => F { e with func := f } s

variable {e} in
/-- A function that is the same for every callback's answers is a computation that asks. -/
theorem httpAsks_of_eq {F : (Nat → Int) → HttpGet → HttpGet} {G : HttpReqEnv → HttpGet → HttpGet}
    (hF : Asks HttpGet.calls F) (h : ∀ f s, G { e with func := f } s = F f s) : HttpAsks e G := by
  have heq : (fun f s => G { e with func := f } s) = F := funext₂ h
  rw [HttpAsks, heq]
  exact hF

/-- What makes no call asks for nothing. -/
theorem httpAsks_quiet (F : HttpGet → HttpGet) (h : ∀ s, (F s).calls = s.calls) :
    HttpAsks e fun _ s => F s :=
  Asks.quiet F h

/-- A call of the callback asks for one answer. -/
theorem httpAsks_func (buf : HttpGet → List UInt8) (len : HttpGet → Nat) :
    HttpAsks e fun e s => s.func e (buf s) (len s) :=
  @Asks.call Int HttpReqCall HttpGet HttpGet.calls
    (fun s i => { s with calls := s.calls ++ [⟨s.req, buf s, len s⟩], err := i })
    (fun s => ⟨s.req, buf s, len s⟩) fun _ _ => rfl

/-- So does a call that prints its text first. -/
theorem httpAsks_say (st : HttpReqState) (text : List UInt8) :
    HttpAsks e fun e s => s.say e st text :=
  (httpAsks_quiet e (fun s => (s.snprintf text).setState st) fun _ => rfl).comp
    (httpAsks_func e HttpGet.buf fun _ => text.length)

/-- The reads of a file, by induction on them: one answer for each that is not empty. -/
theorem httpGetFread_asks (ds : List (List UInt8)) : HttpAsks e fun e s => httpGetFread e ds s := by
  induction ds with
  | nil => exact httpAsks_quiet e (fun s => { s with len := 0 }) fun _ => rfl
  | cons d ds ih =>
      have hcall := (httpAsks_func e HttpGet.buf HttpGet.len).comp
        (Asks.ite (fun s => s.err ≠ 0) (httpAsks_quiet e id fun _ => rfl) ih)
      have hread := (httpAsks_quiet e (fun s => { s with
          buf := put s.buf 0 (d.take httpBufSize), len := (d.take httpBufSize).length })
        fun _ => rfl).comp (Asks.ite (fun s => s.len ≤ 0) (httpAsks_quiet e id fun _ => rfl) hcall)
      exact hread

/-- A file url asks for nothing but what its reads ask for. -/
theorem httpGetFile_asks : HttpAsks e httpGetFile := by
  have hnone := httpAsks_quiet e (fun s => { s with reqErr := .fileNotFound }) fun _ => rfl
  have hcase : ∀ r : Option Nat, HttpAsks e fun e s => r.elim s fun size =>
      let s := { s with
        req := { s.req with replyHdr := { s.req.replyHdr with contentLen := size } } }
      let s := s.setState .body
      if !e.fopen then s
      else
        let s := httpGetFread e e.fread s
        { s with reqErr := .none, err := 0 } := by
    rintro (_ | size)
    · exact httpAsks_quiet e id fun _ => rfl
    · have hread := (httpGetFread_asks e e.fread).comp
        (httpAsks_quiet e (fun s => { s with reqErr := .none, err := 0 }) fun _ => rfl)
      have hopen := Asks.ite (fun _ => (!e.fopen) = true) (httpAsks_quiet e id fun _ => rfl) hread
      have hsize := httpAsks_quiet e (fun s => HttpGet.setState { s with
        req := { s.req with replyHdr := { s.req.replyHdr with contentLen := size } } } .body)
        fun _ => rfl
      exact hsize.comp hopen
  have hfile := hnone.comp (hcase e.stat)
  refine httpAsks_of_eq hfile fun f s => ?_
  unfold httpGetFile
  cases e.stat <;> rfl

/-! ### The receive loop -/

/-- The call for the header. -/
theorem httpGetHead_asks (http : HttpHeader) : HttpAsks e fun e s => httpGetHead e http s := by
  have hmove := httpAsks_quiet e (fun s => { s with
    len := s.len - http.headerLen
    buf := if 0 < s.len - http.headerLen then
        put s.buf 0 ((s.buf.drop http.headerLen).take (s.len - http.headerLen))
      else s.buf }) fun _ => rfl
  have hleave := httpAsks_quiet e (fun s => { s with left := true }) fun _ => rfl
  have hcall := (httpAsks_func e HttpGet.buf fun _ => http.headerLen).comp
    (Asks.ite (fun s => s.err ≠ 0) hleave hmove)
  exact (httpAsks_quiet e (fun s => { s with
    gotHeader := true
    req := { s.req with reqState := .head, replyMax := natToInt32 http.contentLen } })
    fun _ => rfl).comp hcall

/-- The parser is run in front of it, and asks for nothing. -/
theorem httpGetHeader_asks : HttpAsks e httpGetHeader := by
  have hcase : ∀ r : Option (HttpHeader × Int), HttpAsks e fun e s =>
      r.elim { s with left := true, fault := true } fun parsed =>
        let s := { s with req := { s.req with replyHdr := parsed.1 } }
        if parsed.2 < 0 then { s with reqErr := .badResponse, left := true }
        else if parsed.2 = 0 then s
        else httpGetHead e parsed.1 s := by
    rintro (_ | ⟨http, i⟩)
    · exact httpAsks_quiet e (fun s => { s with left := true, fault := true }) fun _ => rfl
    · have hparsed := Asks.ite (fun _ => i < 0)
        (httpAsks_quiet e (fun s => { s with reqErr := .badResponse, left := true }) fun _ => rfl)
        (Asks.ite (fun _ => i = 0) (httpAsks_quiet e id fun _ => rfl) (httpGetHead_asks e http))
      exact (httpAsks_quiet e (fun s => { s with req := { s.req with replyHdr := http } })
        fun _ => rfl).comp hparsed
  have hheader :=
    Asks.choose (fun s => httpHeaderParse (httpHeaderClear s.req.replyHdr) s.buf s.len) _ hcase
  refine httpAsks_of_eq hheader fun f s => ?_
  unfold httpGetHeader
  cases httpHeaderParse (httpHeaderClear s.req.replyHdr) s.buf s.len <;> rfl

/-- The call for the body, which is skipped when there is none. -/
theorem httpGetBody_asks : HttpAsks e httpGetBody := by
  have hcall := (httpAsks_func e HttpGet.buf HttpGet.len).comp
    (httpAsks_quiet e (fun s => { s with len := 0, left := !(s.err == 0) }) fun _ => rfl)
  exact (httpAsks_quiet e (fun s => { s with
    req := { s.req with reqState := .body, replyLen := toInt32 (s.req.replyLen + s.len) } })
    fun _ => rfl).comp hcall

/-- The header and the body of one piece that was received. -/
theorem httpGetData_asks : HttpAsks e httpGetData := by
  have hbody := Asks.ite (fun s => s.gotHeader = true) (httpGetBody_asks e)
    (httpAsks_quiet e id fun _ => rfl)
  have hleft := Asks.ite (fun s => s.left = true) (httpAsks_quiet e id fun _ => rfl) hbody
  exact (Asks.ite (fun s => s.gotHeader = true) (httpAsks_quiet e id fun _ => rfl)
    (httpGetHeader_asks e)).comp hleft

/-- A result of `recv` is data, the end of the file or an error. -/
theorem httpGetRound_asks (r : RecvResult) : HttpAsks e fun e s => httpGetRound e r s := by
  have hfull := httpAsks_quiet e (fun s => { s with left := true }) fun _ => rfl
  have hfailed := httpAsks_quiet e (fun s => { s with reqErr := .incomplete, left := true })
    fun _ => rfl
  refine Asks.ite (fun s => httpBufSize ≤ s.len) hfull ?_
  cases r with
  | bytes bs =>
      have heof := ((httpAsks_quiet e (fun s => s.setState .eof) fun _ => rfl).comp
        (httpAsks_func e (fun _ => []) fun _ => 0)).comp hfull
      have hdata := (httpAsks_quiet e (fun s => { s with
          buf := put s.buf s.len (bs.take (httpBufSize - s.len))
          len := s.len + (bs.take (httpBufSize - s.len)).length }) fun _ => rfl).comp
        (httpGetData_asks e)
      exact Asks.ite (fun s => bs.take (httpBufSize - s.len) = []) heof hdata
  | error => exact hfailed
  | wouldblock => exact hfailed

/-- The rounds one after the other. A round that leaves the loop asks for no more. -/
theorem httpGetLoop_asks (rs : List RecvResult) : HttpAsks e fun e s => httpGetLoop e rs s := by
  induction rs with
  | nil => exact httpGetRound_asks e (.bytes [])
  | cons r rs ih =>
      exact (httpGetRound_asks e r).comp
        (Asks.ite (fun s => s.left = true) (httpAsks_quiet e id fun _ => rfl) ih)

/-! ### The request -/

/-- Up to the request there are three calls, and each may be the last. -/
theorem httpGetHttp_asks (url : Url) : HttpAsks e fun e s => httpGetHttp e url s := by
  have hstop := httpAsks_quiet e id fun _ => rfl
  have hloop := ((httpAsks_quiet e (fun s => { s with len := 0, gotHeader := false })
    fun _ => rfl).comp (httpGetLoop_asks e e.recv)).comp
    (httpAsks_quiet e (fun s => { s with reqErr := .none }) fun _ => rfl)
  have hsend := (httpAsks_say e .send (httpGetText url)).comp
    (Asks.ite (fun s => s.err ≠ 0) hstop (Asks.ite (fun _ => (!e.send) = true) hstop hloop))
  have hconnect := (httpAsks_say e .connect
      (bytes "connecting to host " ++ url.host ++ bytes " at " ++ e.iaddrFmt ++ bytes "\n")).comp
    (Asks.ite (fun s => s.err ≠ 0) hstop (Asks.ite (fun _ => (!e.connect) = true) hstop hsend))
  have hresolve := (httpAsks_say e .resolve
      (bytes "resolving host " ++ url.host ++ bytes "\n")).comp
    (Asks.ite (fun s => s.err ≠ 0) hstop hconnect)
  exact (httpAsks_quiet e (fun s => { s with reqErr := .connect }) fun _ => rfl).comp
    (Asks.ite (fun _ => (!e.socket) = true) hstop hresolve)

/-- All of it, whatever the url is. -/
theorem httpGetMain_asks : HttpAsks e httpGetMain := by
  have hbad := httpAsks_quiet e (fun s => { s with reqErr := .badUrl }) fun _ => rfl
  have hcase : ∀ r : Option Url, HttpAsks e fun e s => r.elim s fun url =>
      if strcasecmpEq url.proto (bytes "file") then httpGetFile e s
      else if !strcasecmpEq url.proto (bytes "http") then s
      else httpGetHttp e url s := by
    rintro (_ | url)
    · exact httpAsks_quiet e id fun _ => rfl
    · exact Asks.ite (fun _ => strcasecmpEq url.proto (bytes "file") = true)
        (httpGetFile_asks e) (Asks.ite (fun _ => (!strcasecmpEq url.proto (bytes "http")) = true)
          (httpAsks_quiet e id fun _ => rfl) (httpGetHttp_asks e url))
  have hmain := hbad.comp (hcase e.urlParse)
  refine httpAsks_of_eq hmain fun f s => ?_
  unfold httpGetMain
  cases e.urlParse <;> rfl

/-- The call for an error is the last one. -/
theorem httpGetReport_asks : HttpAsks e httpGetReport := by
  have hcall := (httpAsks_quiet e (fun s => { s with
      req := { s.req with reqState := .error, reqError := s.reqErr } }) fun _ => rfl).comp
    (httpAsks_func e HttpGet.buf HttpGet.len)
  exact (Asks.ite (fun s => s.gotHeader = true ∧ s.req.replyHdr.responseCode ≠ 200)
    (httpAsks_quiet e (fun s => { s with reqErr := .fileNotFound }) fun _ => rfl)
    (httpAsks_quiet e id fun _ => rfl)).comp
    (Asks.ite (fun s => s.reqErr ≠ .none) hcall (httpAsks_quiet e id fun _ => rfl))

/-- A call of `http_get` depends on the answers before it only. -/
theorem httpGet_asks :
    HttpAsks e fun e s => if (httpGetMain e s).fault then httpGetMain e s
      else httpGetReport e (httpGetMain e s) :=
  (httpGetMain_asks e).comp (Asks.ite (fun s => s.fault = true) (httpAsks_quiet e id fun _ => rfl)
    (httpGetReport_asks e))

end Asks

/-! ## The order of the calls -/

/-- The url is for `file`. -/
def HttpReqEnv.isFile (e : HttpReqEnv) : Bool :=
  match e.urlParse with
  | none     => false
  | some url => strcasecmpEq url.proto (bytes "file")

/-- A run of `http_get`: `script` up to the first call that is not answered 0, and `tail`, which is
empty or the report of an error. For a file the answers do not reach the result. -/
structure HttpGetShape (e : HttpReqEnv) (calls : List HttpReqCall) (ret : Int)
    (script tail : List HttpEvent) : Prop where
  run    : httpGet e = some (calls, ret)
  events : calls.map HttpReqCall.event = play (e.stops 0) script ++ tail
  quiet  : ∀ ev ∈ script, ev.1 ≠ .error
  ends   : tail = [] ∧ ret = (if e.isFile then 0 else e.func (calls.length - 1)) ∧
      (e.isFile = false → calls ≠ []) ∨
    (∃ data, tail = [(.error, data)]) ∧ ret = e.func (calls.length - 1)

section Shape

variable {e : HttpReqEnv} {url : Url}

/-- An error is reported, and nothing else is. -/
theorem httpGetShape_of_report {s : HttpGet} (hmain : httpGetMain e (httpGetStart e) = s)
    (hfault : s.fault = false) (herr : s.reqErr ≠ .none) (hevents : s.events = []) :
    ∃ calls ret script tail, HttpGetShape e calls ret script tail := by
  obtain ⟨calls, data, hget, hcalls⟩ := httpGet_reported hmain hfault (Or.inl herr)
  rw [hevents] at hcalls
  exact ⟨calls, _, [], _, hget, hcalls, fun _ h => absurd h List.not_mem_nil,
    Or.inr ⟨⟨data, rfl⟩, rfl⟩⟩

/-- A file url: its script is made of its reads, and there is no report. -/
theorem httpGetShape_file (hurl : e.urlParse = some url)
    (hfile : strcasecmpEq url.proto (bytes "file") = true) :
    ∃ calls ret script tail, HttpGetShape e calls ret script tail := by
  have hisFile : e.isFile = true := by
    rw [HttpReqEnv.isFile, hurl]
    exact hfile
  cases hstat : e.stat with
  | none =>
      exact httpGetShape_of_report (s := { httpGetStart e with reqErr := .fileNotFound })
        (by rw [httpGetMain, hurl]; simp only [hfile, if_true, httpGetFile, hstat]) rfl
        (by simp) rfl
  | some size =>
      cases hopen : e.fopen with
      | false =>
          exact httpGetShape_of_report (s := httpGetOpened e size)
            (by
              rw [httpGetMain, hurl]
              simp only [hfile, if_true, httpGetFile, hstat, hopen, Bool.not_false]
              rfl)
            rfl (by simp [httpGetOpened]) rfl
      | true =>
          have hseen := httpGetSeen_file hurl hfile hstat hopen
          obtain ⟨⟨calls, ret⟩, hget, hevents⟩ := Option.map_eq_some_iff.mp hseen
          obtain ⟨hcalls, rfl⟩ := Prod.ext_iff.mp hevents
          refine ⟨calls, _, _, [], hget, hcalls.trans (List.append_nil _).symm, ?_,
            Or.inl ⟨rfl, by rw [if_pos hisFile], fun h => absurd (h.symm.trans hisFile) (by simp)⟩⟩
          intro ev hev
          obtain ⟨d, -, rfl⟩ := List.mem_map.mp hev
          simp

/-- None of the calls before the reply is for an error. -/
theorem openingScript_quiet : ∀ ev ∈ openingScript e url, ev.1 ≠ .error := by
  intro ev hev
  unfold openingScript at hev
  cases hsocket : e.socket <;> cases hconnect : e.connect <;>
    simp only [hsocket, hconnect, Bool.not_true, Bool.not_false, Bool.false_eq_true, if_true,
      if_false, List.not_mem_nil, List.mem_cons, or_false] at hev
  · rcases hev with rfl | rfl <;> simp [resolveEvent, connectEvent]
  · rcases hev with rfl | rfl | rfl <;> simp [resolveEvent, connectEvent, sendEvent]

/-- Neither is one of the calls for a reply. -/
theorem HttpOutcome.quiet {buf : List UInt8} {len : Nat} {rs : List RecvResult}
    {o : Option HttpHeader} {script : List HttpEvent} (h : HttpOutcome buf len rs o script) :
    ∀ ev ∈ script, ev.1 ≠ .error := by
  intro ev hev
  cases h with
  | seen _ =>
      simp only [replyScript, bodyScript, List.mem_cons, List.mem_append, List.mem_map] at hev
      rcases hev with rfl | rfl | ⟨bs, -, rfl⟩ | hev
      · simp
      · simp
      · simp
      · split at hev
        · rw [List.mem_singleton.mp hev]
          simp
        · exact absurd hev List.not_mem_nil
  | eof => simp [List.mem_singleton.mp hev]
  | silent => exact absurd hev List.not_mem_nil

/-- An `http` url: the opening, what the reply makes of it, and the report if there is one. -/
theorem httpGetShape_http (hhttp : e.Http url) :
    ∃ calls ret script tail, HttpGetShape e calls ret script tail := by
  have hisFile : e.isFile = false := by
    rw [HttpReqEnv.isFile, hhttp.1]
    exact not_file_of_http hhttp
  by_cases hsends : e.Sends
  · obtain ⟨o, script, calls, data, hout, hget, hcalls⟩ := httpGet_sent hhttp hsends
    have hopening : (openingScript e url).length = 3 := by
      rw [openingScript_of_sends url hsends]
      rfl
    have hstops : (fun i => e.stops 0 ((openingScript e url).length + i)) = e.stops 3 := by
      funext i
      rw [hopening, HttpReqEnv.stops, HttpReqEnv.stops, Nat.zero_add]
    have hrun : ∀ i, i < (openingScript e url).length → e.stops 0 i = false := by
      intro i hi
      rw [HttpReqEnv.stops_eq_false, Nat.zero_add]
      exact hsends.zero i (hopening ▸ hi)
    have hplay := play_append_of_run (openingScript e url) hrun script
    rw [hstops] at hplay
    have hne : calls ≠ [] := by
      intro hnil
      rw [hnil, List.map_nil] at hcalls
      have hlen := congrArg List.length hcalls
      simp only [List.length_nil, List.length_append, hopening] at hlen
      omega
    refine ⟨calls, _, openingScript e url ++ script, _, hget, hplay ▸ hcalls, ?_, ?_⟩
    · intro ev hev
      rcases List.mem_append.mp hev with hev | hev
      · exact openingScript_quiet ev hev
      · exact hout.quiet ev hev
    · split
      · exact Or.inr ⟨⟨data, rfl⟩, rfl⟩
      · exact Or.inl ⟨rfl, by rw [hisFile]; rfl, fun _ => hne⟩
  · obtain ⟨calls, data, hget, hcalls⟩ := httpGet_unsent hhttp hsends
    exact ⟨calls, _, _, _, hget, hcalls, openingScript_quiet, Or.inr ⟨⟨data, rfl⟩, rfl⟩⟩

end Shape

/-- Every run of `http_get` has this form. -/
theorem httpGet_shape (e : HttpReqEnv) :
    ∃ calls ret script tail, HttpGetShape e calls ret script tail := by
  cases hurl : e.urlParse with
  | none =>
      exact httpGetShape_of_report (s := { httpGetStart e with reqErr := .badUrl })
        (by rw [httpGetMain, hurl]) rfl (by simp) rfl
  | some url =>
      by_cases hfile : strcasecmpEq url.proto (bytes "file") = true
      · exact httpGetShape_file hurl hfile
      · by_cases hproto : strcasecmpEq url.proto (bytes "http") = true
        · exact httpGetShape_http ⟨hurl, hproto⟩
        · exact httpGetShape_of_report (s := { httpGetStart e with reqErr := .badUrl })
            (by rw [httpGetMain, hurl]; simp [hfile, hproto]) rfl (by simp) rfl

/-! ## The dialogue -/

section Dialogue

variable {σ : Type} (e : HttpReqEnv) (urlstr : List UInt8)

/-- The url is for `file`. -/
def httpGetIsFile (urlstr : List UInt8) : Bool :=
  match httpGetUrl urlstr with
  | none     => false
  | some url => strcasecmpEq url.proto (bytes "file")

/-- The calls of `http_get`, for each way of answering them. -/
def httpGetAsked (answers : Nat → Int) : List HttpReqCall :=
  ((httpGetCalls e urlstr answers).map Prod.fst).getD []

/-- Where there is a result, no null string was read. -/
theorem httpGet_calls {e : HttpReqEnv} {calls : List HttpReqCall} {ret : Int}
    (h : httpGet e = some (calls, ret)) :
    (if (httpGetMain e (httpGetStart e)).fault then httpGetMain e (httpGetStart e)
      else httpGetReport e (httpGetMain e (httpGetStart e))).calls = calls := by
  unfold httpGet at h
  by_cases hfault : (httpGetMain e (httpGetStart e)).fault = true
  · simp only [hfault, if_true, reduceCtorEq] at h
  · simp only [if_neg hfault] at h ⊢
    exact (Prod.ext_iff.mp (Option.some.inj h)).1

/-- A call depends on the answers to the calls before it only. -/
theorem httpGetAsked_causal : Causal (httpGetAsked e urlstr) := by
  have hcausal := (httpGet_asks { e with urlParse := httpGetUrl urlstr }).causal
    (httpGetStart { e with urlParse := httpGetUrl urlstr })
  refine (congrArg Causal (funext fun answers => ?_)).mp hcausal
  obtain ⟨calls, ret, _, _, hshape⟩ :=
    httpGet_shape { e with urlParse := httpGetUrl urlstr, func := answers }
  rw [httpGetAsked, httpGetCalls, hshape.run]
  exact httpGet_calls hshape.run

variable (func : σ → HttpReqCall → σ × Int) (arg : σ)

/-- All calls of a script that was played but the last one are answered 0. -/
theorem play_stops_zero {e : HttpReqEnv} {script : List HttpEvent} {k : Nat}
    (hk : k + 1 < (play (e.stops 0) script).length) : e.func k = 0 := by
  have hzero : e.stops 0 k = false := by
    rcases play_cases (e.stops 0) script with ⟨hrun, hplay⟩ | ⟨i, -, hrun, -, hplay⟩
    · rw [hplay] at hk
      exact hrun k (by omega)
    · rw [hplay, List.length_take] at hk
      exact hrun k (by omega)
  rw [HttpReqEnv.stops_eq_false, Nat.zero_add] at hzero
  exact hzero

/-- `http_get` and its callback: a dialogue without an error, and then nothing more, or the report
of one. -/
theorem httpGetWith_dialogue :
    ∃ cs t i, Dialogue func 0 arg cs t i ∧ (∀ c ∈ cs, c.req.reqState ≠ .error) ∧
      (httpGetWith e urlstr func arg = some (t, if httpGetIsFile urlstr then 0 else i) ∨
        ∃ c, c.req.reqState = .error ∧ httpGetWith e urlstr func arg = some (func t c)) := by
  obtain ⟨f, hf⟩ : ∃ f, replies (httpGetAsked e urlstr) func arg 0 = f := ⟨_, rfl⟩
  obtain ⟨calls, ret, script, tail, hshape⟩ :=
    httpGet_shape { e with urlParse := httpGetUrl urlstr, func := f }
  have hrun : httpGetCalls e urlstr f = some (calls, ret) := hshape.run
  have hwith : httpGetWith e urlstr func arg = some (stateAfter func arg calls, ret) := by
    show (httpGetCalls e urlstr (replies (httpGetAsked e urlstr) func arg 0)).map _ = _
    rw [hf, hrun]
    rfl
  -- every answer is that of the callback
  have hanswers : ∀ k c, calls[k]? = some c →
      f k = (func (stateAfter func arg (calls.take k)) c).2 := by
    have hasked : httpGetAsked e urlstr f = calls := by rw [httpGetAsked, hrun]; rfl
    intro k c hc
    have hreply : ∀ k c, (httpGetAsked e urlstr (replies (httpGetAsked e urlstr) func arg 0))[k]?
        = some c → replies (httpGetAsked e urlstr) func arg 0 k = _ :=
      fun k c => replies_eq (httpGetAsked_causal e urlstr)
    rw [hf, hasked] at hreply
    exact hreply k c hc
  -- the calls are those of the script, and the report
  obtain ⟨cs, errs, rfl, hcs, herrs⟩ := List.map_eq_append_iff.mp hshape.events
  have hlen : cs.length = (play (HttpReqEnv.stops
      { e with urlParse := httpGetUrl urlstr, func := f } 0) script).length := by
    rw [← hcs, List.length_map]
  have hdialogue : Dialogue func 0 arg cs (stateAfter func arg cs)
      (if cs = [] then 0 else f (cs.length - 1)) := by
    refine dialogue_of_answers cs (fun k c hc => ?_) fun k hk => ?_
    · have hlt : k < cs.length := (List.getElem?_eq_some_iff.mp hc).1
      have hanswer := hanswers k c (by rw [List.getElem?_append_left hlt, hc])
      rwa [List.take_append_of_le_length (Nat.le_of_lt hlt)] at hanswer
    · exact play_stops_zero (e := { e with urlParse := httpGetUrl urlstr, func := f }) (hlen ▸ hk)
  refine ⟨cs, _, _, hdialogue, fun c hc => ?_, ?_⟩
  · have hevent : c.event ∈ script := by
      have hmem : c.event ∈ cs.map HttpReqCall.event := List.mem_map_of_mem hc
      rw [hcs] at hmem
      rcases play_cases (HttpReqEnv.stops { e with urlParse := httpGetUrl urlstr, func := f } 0)
        script with ⟨-, hplay⟩ | ⟨i, -, -, -, hplay⟩
      · exact hplay ▸ hmem
      · exact List.mem_of_mem_take (hplay ▸ hmem)
    exact hshape.quiet _ hevent
  · rcases hshape.ends with ⟨rfl, hret, hne⟩ | ⟨⟨data, rfl⟩, hret⟩
    · obtain rfl := List.map_eq_nil_iff.mp herrs
      rw [List.append_nil] at hret hne hwith
      refine Or.inl (hwith.trans ?_)
      have hfile : HttpReqEnv.isFile { e with urlParse := httpGetUrl urlstr, func := f }
          = httpGetIsFile urlstr := rfl
      rw [hfile] at hret hne
      rw [hret]
      cases hkind : httpGetIsFile urlstr with
      | true => rfl
      | false =>
          rw [if_neg (hne hkind)]
    · obtain ⟨c, rfl, hc⟩ := List.map_eq_singleton_iff.mp herrs
      refine Or.inr ⟨c, congrArg Prod.fst hc, hwith.trans ?_⟩
      have hget : (cs ++ [c])[cs.length]? = some c := List.getElem?_concat_length
      have hlast := hanswers cs.length c hget
      rw [List.take_left] at hlast
      have hstate : stateAfter func arg (cs ++ [c]) = (func (stateAfter func arg cs) c).1 :=
        List.foldl_concat ..
      rw [hret, hstate, List.length_append, List.length_singleton, Nat.add_sub_cancel]
      exact congrArg some (Prod.ext rfl hlast)

end Dialogue

end Bklib
