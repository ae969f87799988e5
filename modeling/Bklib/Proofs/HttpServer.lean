import Bklib.Lib.Run
import Bklib.Proofs.HttpServerInv

/-!
# `Bklib.Proofs.HttpServer`: which descriptors `http_server` closes

A client record starts with zeros, so `send_fd` is 0 until the first `open`, and
`http_server_client_free` closes every `send_fd` that is not negative, but no `sock` that is 0.
`HttpServerEvent.CloseOk` is the condition on an event under which this does no harm.

* `httpServer_closesOwn`: runs of such events.
* `httpServer_closesOwn_stdin`: a client that says nothing takes descriptor 0 with it.
-/

set_option autoImplicit false

namespace Bklib

open Lib

/-! ### The condition on an event -/

/-- The client is freed before a file is opened for it: the request is too long, the other side closes,
or the request does not parse or asks for a file that is not there. -/
def HttpServerClient.FreesEarly (client : HttpServerClient) (os : HttpServerOs)
    (rootDir : List UInt8) : Prop :=
  client.recvMax - client.recvLen ≤ 0 ∨ os.recv = .bytes [] ∨
  ∃ client' http i, client.receive os.recv = some client' ∧ client'.parse = some (http, i) ∧
    (i < 0 ∨ 0 < i ∧ os.stat (httpServerPath rootDir http.uri) = false)

/-- The client is freed at or behind the `open` of its file. -/
def HttpServerClient.FreesLate (client : HttpServerClient) (os : HttpServerOs)
    (rootDir : List UInt8) : Prop :=
  ∃ client' http i, client.receive os.recv = some client' ∧ client'.parse = some (http, i) ∧
    0 < i ∧ (os.openFile (httpServerPath rootDir http.uri) = none ∨ os.fstat = none ∨
      os.send = false)

/-- The client is freed by the write handler. -/
def HttpServerClient.FreesSending (client : HttpServerClient) (os : HttpServerOs) : Prop :=
  client.sendEnd ≤ client.sendOff ∨ ∀ n, os.sendfile ≠ .accept (n + 1)

/-- The condition on a call of the read handler: the 0 in `send_fd` is not the descriptor of somebody
else when the client is freed early, the socket is not 0 when it is freed late, and errors of `recv` do
not carry `recv_len` below the address. -/
structure HttpServerReadOk (s : HttpServer) (os : HttpServerOs) (c : Nat)
    (client : HttpServerClient) : Prop where
  early : client.FreesEarly os s.rootDir → s.fds.use 0 = none ∨ s.fds.use 0 = some (.sock c)
  late  : client.FreesLate os s.rootDir → client.sock ≠ 0
  recv  : ∀ client', client.receive os.recv = some client' → -16 ≤ client'.recvLen

/-- The condition on a call of a handler. It is about clients that were not freed before. -/
def HttpServerCallOk (s : HttpServer) (os : HttpServerOs) : HttpServerFunc → Prop
  | .accept  => True
  | .read c  => ∀ client, s.clients[c]? = some client → client.server = true →
      HttpServerReadOk s os c client
  | .write c => ∀ client, s.clients[c]? = some client → client.server = true →
      client.FreesSending os → client.sock ≠ 0

/-- The condition on an event. -/
def HttpServerEvent.CloseOk (s : HttpServer) (e : HttpServerEvent) : Prop :=
  s.fault = false → ∀ func, fdselectFunc s.sel e.fd e.event = some func →
    HttpServerCallOk s e.os func

/-! ### Runs -/

section Run

variable (allocOk : Nat → Bool) {s : HttpServer} {c : Nat} {client : HttpServerClient}

/-- A live client that is freed early: its `send_fd` still is 0. -/
theorem EndFreeOk.of_early (hfd : client.sendFd = 0)
    (hzero : s.fds.use 0 = none ∨ s.fds.use 0 = some (.sock c)) : EndFreeOk s c client where
  file _ := by
    rw [hfd]
    rcases hzero with hnone | hsock
    · exact Or.inl hnone
    · exact Or.inr (Or.inl hsock)
  sock _ := hfd

/-- The part of the read handler behind the parser. -/
theorem HttpServerInv.respond {os : HttpServerOs} (h : HttpServerInv none (s.put c client))
    (hlen : c < s.clients.length) (hlive : client.server = true) (hfd : client.sendFd = 0)
    (hnofile : s.NoFile c) (hfresh : os.Fresh s)
    (hearly : os.stat (httpServerPath s.rootDir client.httpReq.uri) = false →
      s.fds.use 0 = none ∨ s.fds.use 0 = some (.sock c))
    (hlate : (os.openFile (httpServerPath s.rootDir client.httpReq.uri) = none ∨ os.fstat = none ∨
      os.send = false) → client.sock ≠ 0) :
    HttpServerInv none (httpServerRespond allocOk os s c client) := by
  have hself : (s.put c client).clients[c]? = some client := List.getElem?_set_self hlen
  have hexempt := h.exempt c
  have hput : ∀ client' : HttpServerClient, client'.server = client.server →
      client'.sock = client.sock → HttpServerInv (some c) (s.put c client') := by
    intro client' hserver hsock
    have := hexempt.put hself hlive hserver hsock (Or.inr ⟨rfl, hnofile⟩)
    rwa [HttpServer.put, HttpServer.put, List.set_set] at this
  unfold httpServerRespond
  by_cases hstat : os.stat (httpServerPath s.rootDir client.httpReq.uri) = false
  · rw [if_pos hstat]
    exact hexempt.free_put allocOk hlen hlive (EndFreeOk.of_early hfd (hearly hstat))
  rw [if_neg hstat]
  cases hopen : os.openFile (httpServerPath s.rootDir client.httpReq.uri) with
  | none =>
      have hsock := hlate (Or.inl hopen)
      exact (hput { client with sendFd := -1 } rfl rfl).free_put allocOk hlen hlive
        ⟨fun hpos => absurd hpos (show ¬(0 : Int) ≤ -1 by decide), fun hzero => absurd hzero hsock⟩
  | some fd =>
      have hfree := hfresh.openFile _ fd hopen
      have hself' : ∀ client', (s.put c client').clients[c]? = some client' :=
        fun client' => List.getElem?_set_self hlen
      -- The descriptor in the record is the one that the file got.
      have hopened : ∀ client' : HttpServerClient, client'.server = client.server →
          client'.sock = client.sock → client'.sendFd = fd →
          HttpServerInv (some c) ({ s with fds := s.fds.acquire fd (.file c) }.put c client') :=
        fun client' hserver hsock hsend => (hput client' hserver hsock).openFile (hself' client')
          (hserver.trans hlive) hnofile hsend hfree
      have huse : (s.fds.acquire fd (.file c)).use fd = some (.file c) := by
        rw [Descriptors.acquire_use, if_pos rfl]
      cases hsize : os.fstat with
      | none =>
          have hsock := hlate (Or.inr (Or.inl hsize))
          exact (hopened { client with sendFd := fd } rfl rfl rfl).free_put allocOk hlen hlive
            ⟨fun _ => Or.inr (Or.inr huse), fun hzero => absurd hzero hsock⟩
      | some size =>
          let sending := { client with sendFd := fd, sendOff := 0, sendEnd := size }
          by_cases hsend : os.send = false
          · have hsock := hlate (Or.inr (Or.inr hsend))
            simp only [if_pos hsend]
            exact (hopened sending rfl rfl rfl).free_put allocOk hlen hlive
              ⟨fun _ => Or.inr (Or.inr huse), fun hzero => absurd hzero hsock⟩
          · simp only [if_neg hsend]
            exact (hopened sending rfl rfl rfl).send allocOk (hself' sending) huse rfl rfl

/-- `receive` leaves the descriptors of a client alone. -/
theorem HttpServerClient.receive_same {r : RecvResult} {client' : HttpServerClient}
    (h : client.receive r = some client') :
    client'.server = client.server ∧ client'.sock = client.sock ∧ client'.sendFd = client.sendFd := by
  cases r with
  | wouldblock => cases h
  | error => cases h; exact ⟨rfl, rfl, rfl⟩
  | bytes bs =>
      simp only [HttpServerClient.receive] at h
      split at h
      · cases h
      · cases h
        exact ⟨rfl, rfl, rfl⟩

/-- `http_server_client_select_read` keeps the invariant. -/
theorem HttpServerInv.selectRead {os : HttpServerOs} (h : HttpServerInv none s)
    (hc : s.clients[c]? = some client) (hlive : client.server = true) (hfd : client.sendFd = 0)
    (hnofile : s.NoFile c) (hfresh : os.Fresh s) (hok : HttpServerReadOk s os c client) :
    HttpServerInv none (httpServerClientSelectRead allocOk os s c client) := by
  have hlen : c < s.clients.length := (List.getElem?_eq_some_iff.mp hc).1
  have hfree : client.FreesEarly os s.rootDir →
      HttpServerInv none (httpServerClientFree allocOk s c client) := fun hearly =>
    (h.exempt c).free allocOk hc hlive (EndFreeOk.of_early hfd (hok.early hearly))
  unfold httpServerClientSelectRead
  by_cases hroom : client.recvMax - client.recvLen ≤ 0
  · -- the buffer is full before the header is complete
    rw [if_pos hroom]
    exact hfree (Or.inl hroom)
  rw [if_neg hroom]
  cases hreceive : client.receive os.recv with
  | none =>
      simp only
      by_cases hblock : os.recv = .wouldblock
      · rw [if_pos hblock]
        exact h
      · rw [if_neg hblock]
        -- an error, or the end of the stream
        refine hfree (Or.inr (Or.inl ?_))
        cases hrecv : os.recv with
        | wouldblock => exact absurd hrecv hblock
        | error =>
            rw [hrecv] at hreceive
            cases hreceive
        | bytes bs =>
            rw [hrecv] at hreceive
            simp only [HttpServerClient.receive] at hreceive
            split at hreceive
            · rename_i hnil
              have hpos : (client.recvMax - client.recvLen).toNat ≠ 0 := by omega
              rw [(List.take_eq_nil_iff.mp hnil).resolve_left hpos]
            · cases hreceive
  | some client' =>
      obtain ⟨hserver, hsock, hsend⟩ := HttpServerClient.receive_same hreceive
      have hrecv := hok.recv client' hreceive
      simp only
      unfold httpServerParse
      rw [if_neg (by omega)]
      cases hparse : client'.parse with
      | none => exact h.fault
      | some r =>
          obtain ⟨http, i⟩ := r
          have hput : HttpServerInv none (s.put c { client' with httpReq := http }) :=
            h.put hc hlive hserver hsock (Or.inl hsend)
          have hlive' : ({ client' with httpReq := http } : HttpServerClient).server = true :=
            hserver.trans hlive
          simp only
          -- 0: the header is not complete; below 0: an error
          by_cases hzero : i = 0
          · rw [if_pos hzero]
            exact hput
          rw [if_neg hzero]
          by_cases hneg : i < 0
          · rw [if_pos hneg]
            have hearly := hok.early
              (Or.inr (Or.inr ⟨client', http, i, hreceive, hparse, Or.inl hneg⟩))
            exact (hput.exempt c).free_put allocOk hlen hlive'
              (EndFreeOk.of_early (hsend.trans hfd) hearly)
          · rw [if_neg hneg]
            have hpos : 0 < i := by omega
            refine hput.respond allocOk hlen hlive' (hsend.trans hfd) hnofile hfresh ?_ ?_
            · intro hstat
              exact hok.early
                (Or.inr (Or.inr ⟨client', http, i, hreceive, hparse, Or.inr ⟨hpos, hstat⟩⟩))
            · intro hends
              exact hsock ▸ hok.late ⟨client', http, i, hreceive, hparse, hpos, hends⟩

/-- `http_server_client_select_write` keeps the invariant. -/
theorem HttpServerInv.selectWrite {os : HttpServerOs} (h : HttpServerInv none s)
    (hc : s.clients[c]? = some client) (hlive : client.server = true)
    (hfile : s.fds.use client.sendFd = some (.file c))
    (hok : client.FreesSending os → client.sock ≠ 0) :
    HttpServerInv none (httpServerClientSelectWrite allocOk os s c client) := by
  have hfree : client.FreesSending os →
      HttpServerInv none (httpServerClientFree allocOk s c client) := fun hends =>
    (h.exempt c).free allocOk hc hlive
      ⟨fun _ => Or.inr (Or.inr hfile), fun hzero => absurd hzero (hok hends)⟩
  unfold httpServerClientSelectWrite
  by_cases hend : client.sendEnd ≤ client.sendOff
  · rw [if_pos hend]
    exact hfree (Or.inl hend)
  rw [if_neg hend]
  cases hsend : os.sendfile with
  | error => exact hfree (Or.inr fun n => by rw [hsend]; simp)
  | wouldblock => exact hfree (Or.inr fun n => by rw [hsend]; simp)
  | accept n =>
      cases n with
      | zero => exact hfree (Or.inr fun n => by rw [hsend]; simp)
      | succ n => exact h.put hc hlive rfl rfl (Or.inl rfl)

/-- A record that was freed before ends the process. -/
theorem httpServerClientSelectRead_dead (os : HttpServerOs) (s : HttpServer) (c : Nat) :
    httpServerClientSelectRead allocOk os s c {} = { s with fault := true } := rfl

theorem httpServerClientSelectWrite_dead (os : HttpServerOs) (s : HttpServer) (c : Nat) :
    httpServerClientSelectWrite allocOk os s c {} = { s with fault := true } := rfl

/-- The step lemma. -/
theorem HttpServerInv.step {e : HttpServerEvent} (h : HttpServerInv none s)
    (hfresh : e.os.Fresh s) (hok : e.CloseOk s) :
    HttpServerInv none (httpServerStep allocOk s e) := by
  unfold httpServerStep
  by_cases hfault : s.fault = true
  · rw [if_pos hfault]
    exact h
  rw [if_neg hfault]
  cases hfunc : fdselectFunc s.sel e.fd e.event with
  | none => exact h
  | some func =>
      have hcall := hok (by simpa using hfault) func hfunc
      unfold HttpServerEvent.event at hfunc
      cases hwrite : e.write with
      | true =>
          rw [hwrite, if_pos rfl] at hfunc
          obtain ⟨c, client, rfl, hc, hclient⟩ := h.writes _ _ hfunc
          simp only [httpServerCall, hc]
          cases hserver : client.server with
          | true =>
              exact h.selectWrite allocOk hc hserver (hclient hserver (by simp))
                (hcall client hc hserver)
          | false =>
              rw [h.dead c client hc hserver, httpServerClientSelectWrite_dead]
              exact h.fault
      | false =>
          rw [hwrite, if_neg Bool.false_ne_true] at hfunc
          rcases h.reads _ _ hfunc with rfl | ⟨c, client, rfl, hc, hclient⟩
          · exact h.selectAccept allocOk hfresh
          · simp only [httpServerCall, hc]
            cases hserver : client.server with
            | true =>
                obtain ⟨hfd, hnofile⟩ := (hclient hserver).2 (by simp)
                exact h.selectRead allocOk hc hserver hfd hnofile hfresh (hcall client hc hserver)
            | false =>
                rw [h.dead c client hc hserver, httpServerClientSelectRead_dead]
                exact h.fault

/-- A server that starts holds the invariant. -/
theorem httpServerInv_start (rootDir : List UInt8) (acceptSock : Int) {inherited : Int → Bool}
    (hneg : ∀ d, d < 0 → inherited d = false) :
    HttpServerInv none (httpServerStart allocOk rootDir acceptSock inherited) := by
  obtain ⟨hwf, hfunc⟩ := fdselectFunc_of_set allocOk wf_fdselectInit acceptSock (Or.inl rfl)
    HttpServerFunc.accept
  have hnone : ∀ d ev, fdselectFunc (fdselectInit : Fdselect HttpServerFunc) d ev = none :=
    fun d ev => rfl
  have huse : ∀ {d u}, (httpServerStart allocOk rootDir acceptSock inherited).fds.use d = some u →
      u = .other d := by
    intro d u hd
    have hd : (if inherited d then some (FdUse.other d) else none) = some u := hd
    split at hd
    · exact (Option.some.inj hd).symm
    · cases hd
  constructor
  case wf => exact hwf
  case clean =>
    refine ⟨fun d hd => ?_, fun hd hd' => ?_, List.nodup_nil, fun he => absurd he List.not_mem_nil⟩
    · show (if inherited d then some (FdUse.other d) else none) = none
      rw [hneg d hd, if_neg Bool.false_ne_true]
    · exact FdUse.other.inj ((huse hd).symm.trans (huse hd'))
  case closed => exact fun e he => absurd he List.not_mem_nil
  case dead => exact fun c client hc => absurd hc (by simp [httpServerStart])
  case sock => exact fun c d hd => nomatch huse hd
  case file => exact fun c d hd => nomatch huse hd
  case live => exact fun c client hc => absurd hc (by simp [httpServerStart])
  case reads =>
    intro d f hf
    rcases hfunc d _ f (Or.inl rfl) hf with ⟨-, -, rfl⟩ | hf
    · exact Or.inl rfl
    · rw [hnone] at hf
      cases hf
  case writes =>
    intro d f hf
    rcases hfunc d _ f (Or.inr rfl) hf with ⟨-, hev, -⟩ | hf
    · exact absurd hev (by decide)
    · rw [hnone] at hf
      cases hf

end Run

/-- In every run whose events meet the condition, the server closes what it owns. -/
theorem httpServer_closesOwn (allocOk : Nat → Bool) (rootDir : List UInt8) (acceptSock : Int)
    (inherited : Int → Bool) (hneg : ∀ d, d < 0 → inherited d = false)
    (events : List HttpServerEvent)
    (hevents : AllSteps (fun s e => e.os.Fresh s ∧ e.CloseOk s) (httpServerStep allocOk)
      (httpServerStart allocOk rootDir acceptSock inherited) events) :
    HttpServerClosesOwn
      (run (httpServerStep allocOk) (httpServerStart allocOk rootDir acceptSock inherited) events) :=
  (run_inv_of_allSteps (fun _ _ h hok => HttpServerInv.step allocOk h hok.1 hok.2)
    (httpServerInv_start allocOk rootDir acceptSock hneg) hevents).closesOwn

/-- The descriptors of a process that was started from a shell and listens at 3. -/
def shellFds (fd : Int) : Bool := 0 ≤ fd ∧ fd ≤ 3

/-- The server of that process. -/
def shellServer : HttpServer := httpServerStart (fun _ => true) [] 3 shellFds

/-- A client connects, and its socket is 4. -/
def clientAccept : HttpServerEvent := { fd := 3, write := false, os := { accept := .sock 4 } }

/-- The client asks for an empty file. -/
def clientGet : HttpServerEvent where
  fd := 4
  write := false
  os :=
    { recv := .bytes (bytes "GET / HTTP/1.0\n\n"), stat := fun _ => true, openFile := fun _ => some 5
      fstat := some 0, send := true }

/-- The end of the file is reached. -/
def clientSent : HttpServerEvent := { fd := 4, write := true, os := {} }

/-- The client closes the connection. -/
def clientEof : HttpServerEvent := { fd := 4, write := false, os := { recv := .bytes [] } }

/-- The client is connected. -/
def shellAccepted : HttpServer := httpServerStep (fun _ => true) shellServer clientAccept

/-- The file is being sent. -/
def shellSending : HttpServer := httpServerStep (fun _ => true) shellAccepted clientGet

/-- The sample's accept is honest. -/
theorem clientAccept_ok :
    clientAccept.os.Fresh shellServer ∧ clientAccept.CloseOk shellServer := by
  refine ⟨⟨?_, ?_⟩, ?_⟩
  · intro fd hfd
    cases hfd
    rfl
  · intro path fd hfd
    cases hfd
  · intro _ func hfunc
    cases (show some HttpServerFunc.accept = some func from hfunc)
    exact trivial

/-- The sample's request is honest. -/
theorem clientGet_ok : clientGet.os.Fresh shellAccepted ∧ clientGet.CloseOk shellAccepted := by
  refine ⟨⟨?_, ?_⟩, ?_⟩
  · intro fd hfd
    cases hfd
  · intro path fd hfd
    cases hfd
    rfl
  · intro _ func hfunc
    cases (show some (HttpServerFunc.read 0) = some func from hfunc)
    intro client hc _
    cases (show some (httpServerClientInit 4) = some client from hc)
    have hparse : (((httpServerClientInit 4).received (bytes "GET / HTTP/1.0\n\n") 16).parse.map
        Prod.snd) = some 1 := by decide +kernel
    refine ⟨?_, fun _ => by decide, ?_⟩
    · rintro (hroom | hnil | ⟨client', http, i, hreceive, hrest, hends⟩)
      · exact absurd hroom (by decide)
      · exact absurd hnil (by decide)
      · cases hreceive
        have hi : some i = some 1 := by
          rw [← hparse]
          exact (congrArg (Option.map Prod.snd) hrest).symm
        cases hi
        rcases hends with hneg | ⟨-, hstat⟩
        · exact absurd hneg (by decide)
        · cases hstat
    · intro client' hreceive
      cases hreceive
      decide

/-- The sample's sending is honest. -/
theorem clientSent_ok : clientSent.os.Fresh shellSending ∧ clientSent.CloseOk shellSending := by
  refine ⟨⟨?_, ?_⟩, ?_⟩
  · intro fd hfd
    cases hfd
  · intro path fd hfd
    cases hfd
  · intro _ func hfunc
    have hwrite : fdselectFunc shellSending.sel 4 fdselectWRITE = some (.write 0) := by
      decide +kernel
    cases hwrite.symm.trans hfunc
    intro client hc _ _
    have hsock : (shellSending.clients[0]?.map HttpServerClient.sock) = some 4 := by decide +kernel
    rw [hc] at hsock
    rw [Option.some.inj hsock]
    decide

/-- A connection with one request. -/
theorem httpServer_closesOwn_get :
    HttpServerClosesOwn
      (run (httpServerStep fun _ => true) shellServer [clientAccept, clientGet, clientSent]) :=
  httpServer_closesOwn _ [] 3 shellFds (fun d hd => by simp [shellFds]; omega) _
    ⟨clientAccept_ok, clientGet_ok, clientSent_ok, trivial⟩

/-- A client that closes before it has asked for anything takes the standard input with it. -/
theorem httpServer_closesOwn_stdin :
    AllSteps (fun s e => e.os.Fresh s) (httpServerStep fun _ => true) shellServer
      [clientAccept, clientEof] ∧
    ¬HttpServerClosesOwn
      (run (httpServerStep fun _ => true) shellServer [clientAccept, clientEof]) := by
  refine ⟨⟨clientAccept_ok.1, ⟨fun _ h => (nomatch h), fun _ _ h => (nomatch h)⟩, trivial⟩, ?_⟩
  intro h
  have hclosed : (0, FdUse.other 0) ∈
      (run (httpServerStep fun _ => true) shellServer [clientAccept, clientEof]).fds.closed := by
    decide
  exact absurd (h.own _ hclosed) (by decide)

end Bklib
