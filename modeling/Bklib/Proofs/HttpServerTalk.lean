import Bklib.Lib.Run
import Bklib.Proofs.HttpServerNet

/-!
# `Bklib.Proofs.HttpServerTalk`: the talks with the clients in every run of `http_server`

A call of a handler keeps `HttpServerNetInv`: of the accept handler, which adds a client, of the read
handler, outcome by outcome, and of the write handler, which goes on with the file. So in every run
each client is in a talk that depends on nothing but what it sent (`httpServer_talks`).
-/

set_option autoImplicit false

namespace Bklib

open Lib

/-! ### The read handler -/

section Read

variable {files : List UInt8 → List UInt8} {rootDir : List UInt8} {allocOk : Nat → Bool}
  {os : HttpServerOs} {takes : HttpServerTakes} {n n' : HttpServerNet} {io : HttpServerIo} {c : Nat}
  {client client' : HttpServerClient} {d : Int}

/-- The kernel `n'` behind a call of the read handler for a client that got nothing before. -/
structure HttpServerReadCall (n n' : HttpServerNet) (os : HttpServerOs) (io : HttpServerIo) (c : Nat)
    (client : HttpServerClient) : Prop where
  wire   : ∀ u, u ≠ .sock c → n'.wire u = n.wire u
  self   : n'.wire (.sock c) = if 0 ≤ client.sock then io.sent else []
  got    : ∀ k, k ≠ c → n'.got k = n.got k
  gotc   : n'.got c = httpServerGot os.recv client (n.got c)
  disk   : ∀ d u, n.server.fds.use d = some u → n'.disk d = n.disk d
  opened : ∀ fd path, io.opened = some (fd, path) → n'.disk fd = path

/-- A network changed by the call's own sending, opening and receiving is what the call makes of it.
-/
theorem httpServerReadCall_of_io (n' : HttpServerNet) (s' : HttpServer)
    (hinv : HttpServerInv none n.server)
    (hc : n.server.clients[c]? = some client) (hlive : client.server = true)
    (hwire : n.wire (.sock c) = []) (hfresh : os.Fresh n.server)
    (hopen : ∀ {fd path}, io.opened = some (fd, path) → os.openFile path = some fd)
    (hn' : n' = { n.put client.sock io.sent with
      server := s'
      disk := match io.opened with
        | none            => n.disk
        | some (fd, path) => fun d => if d = fd then path else n.disk d
      got := fun k => if k = c then httpServerGot os.recv client (n.got c) else n.got k }) :
    HttpServerReadCall n n' os io c client := by
  obtain ⟨hself, hothers⟩ := HttpServerNet.put_wire hinv hc hlive io.sent
  rw [hwire, List.nil_append] at hself
  subst hn'
  constructor
  case wire => exact hothers
  case self => exact hself
  case got => exact fun k hk => if_neg hk
  case gotc => exact if_pos rfl
  case disk =>
    intro d u hu
    cases hio : io.opened with
    | none => rfl
    | some o =>
        obtain ⟨fd, path⟩ := o
        -- a descriptor that is opened was free
        refine if_neg fun heq => ?_
        rw [heq, hfresh.openFile path fd (hopen hio)] at hu
        cases hu
  case opened =>
    intro fd path hio
    rw [hio]
    exact if_pos rfl

/-- It is not registered for writing: it would have got a header. -/
theorem HttpServerNetInv.no_write (h : HttpServerNetInv files rootDir n)
    (hc : n.server.clients[c]? = some client)
    (hreading : HttpServerReading d (n.got c) (n.wire (.sock c)) client) (d' : Int) :
    fdselectFunc n.server.sel d' fdselectWRITE ≠ some (.write c) := by
  intro hd
  obtain ⟨old, hold, hsending⟩ := h.writes d' c hd
  cases hc.symm.trans hold
  have hheader := hsending.wire
  rw [hreading.wire] at hheader
  exact httpServerHead_ne_nil _ (List.append_eq_nil_iff.mp hheader.symm).1

/-- It is registered for reading at its socket only. -/
theorem HttpServerNetInv.read_at (h : HttpServerNetInv files rootDir n)
    (hc : n.server.clients[c]? = some client) (hsock : client.sock = d) {d' : Int}
    (hd : fdselectFunc n.server.sel d' fdselectREAD = some (.read c)) : d' = d := by
  obtain ⟨old, hold, hother⟩ := h.reads d' c hd
  cases hc.symm.trans hold
  exact hother.sock.1.symm.trans hsock

/-- The client is freed. -/
theorem HttpServerReadCall.free (allocOk : Nat → Bool) (client' : HttpServerClient) (s : HttpServer)
    (hcall : HttpServerReadCall n n' os io c client)
    (h : HttpServerNetInv files rootDir n) (hinv : HttpServerInv none n'.server)
    (hc : n.server.clients[c]? = some client)
    (hreading : HttpServerReading d (n.got c) (n.wire (.sock c)) client)
    (hserver : n'.server = httpServerClientFree allocOk s c client') (hlive : client'.server = true)
    (hsock : client'.sock = client.sock)
    (hs : s.clients = n.server.clients ∧ s.sel = n.server.sel ∧ s.rootDir = n.server.rootDir)
    (hended : HttpServerEnded files n.server.rootDir (n'.got c) io.sent) :
    HttpServerNetInv files rootDir n' := by
  refine h.free allocOk hinv hc hserver hlive hsock (hreading.sock.1 ▸ hreading.sock.2) hs hcall.wire
    hcall.got hcall.disk ?_
  rw [hcall.self]
  split
  · exact hended
  · exact .silent

/-- The client goes on reading. -/
theorem HttpServerReadCall.stay (client' : HttpServerClient)
    (hcall : HttpServerReadCall n n' os io c client)
    (h : HttpServerNetInv files rootDir n) (hinv : HttpServerInv none n'.server)
    (hc : n.server.clients[c]? = some client)
    (hreading : HttpServerReading d (n.got c) (n.wire (.sock c)) client)
    (hclients : n'.server.clients = n.server.clients.set c client')
    (hroot : n'.server.rootDir = n.server.rootDir) (hsel : n'.server.sel = n.server.sel)
    (hnew : HttpServerReading d (n'.got c) (n'.wire (.sock c)) client') :
    HttpServerNetInv files rootDir n' := by
  have hlen : c < n.server.clients.length := (List.getElem?_eq_some_iff.mp hc).1
  refine h.frame hinv hlen hclients hroot hcall.wire hcall.got hcall.disk (fun d' k _ hk => ?_)
    (fun d' k _ hk => ?_) hnew.talk (fun d' hd' => ?_)
    fun d' hd' => absurd ?_ (h.no_write hc hreading d')
  · rwa [hsel] at hk
  · rwa [hsel] at hk
  · rw [hsel] at hd'
    exact h.read_at hc hreading.sock.1 hd' ▸ hnew
  · rwa [hsel] at hd'

/-- The client gets its file: the registration for reading goes, and one for writing comes. -/
theorem HttpServerReadCall.send (allocOk : Nat → Bool)
    (hcall : HttpServerReadCall n n' os io c client)
    (h : HttpServerNetInv files rootDir n) (hinv : HttpServerInv none n'.server)
    (hc : n.server.clients[c]? = some client)
    (hreading : HttpServerReading d (n.got c) (n.wire (.sock c)) client)
    (hclients : n'.server.clients = n.server.clients.set c client')
    (hroot : n'.server.rootDir = n.server.rootDir) {sel₁ : Fdselect HttpServerFunc}
    (hsel₁ : (fdselectUnset allocOk n.server.sel d fdselectREAD).1 = sel₁)
    (hsel₂ : (fdselectSet allocOk sel₁ d fdselectWRITE (some (.write c))).1 = n'.server.sel)
    (hnew : HttpServerSending files n.server.rootDir d (n'.disk client'.sendFd) (n'.got c)
      (n'.wire (.sock c)) client') : HttpServerNetInv files rootDir n' := by
  have hlen : c < n.server.clients.length := (List.getElem?_eq_some_iff.mp hc).1
  obtain ⟨hwf₁, hfunc₁⟩ := fdselectFunc_of_unset allocOk h.inv.wf d (Or.inl rfl)
  rw [hsel₁] at hwf₁ hfunc₁
  obtain ⟨-, hfunc₂⟩ := fdselectFunc_of_set allocOk hwf₁ d (Or.inr rfl) (.write c)
  rw [hsel₂] at hfunc₂
  -- for reading, nothing is left at the socket
  have hread : ∀ {d' f}, fdselectFunc n'.server.sel d' fdselectREAD = some f →
      d' ≠ d ∧ fdselectFunc n.server.sel d' fdselectREAD = some f := by
    intro d' f hf
    rcases hfunc₂ d' _ _ (Or.inl rfl) hf with ⟨-, hev, -⟩ | hf
    · exact absurd hev (by decide)
    · obtain ⟨hnot, hf⟩ := hfunc₁ d' _ _ (Or.inl rfl) hf
      exact ⟨fun heq => hnot ⟨heq, rfl⟩, hf⟩
  -- for writing, the client is new
  have hwrite : ∀ {d' f}, fdselectFunc n'.server.sel d' fdselectWRITE = some f →
      (d' = d ∧ f = .write c) ∨ fdselectFunc n.server.sel d' fdselectWRITE = some f := by
    intro d' f hf
    rcases hfunc₂ d' _ _ (Or.inr rfl) hf with ⟨heq, -, rfl⟩ | hf
    · exact Or.inl ⟨heq, rfl⟩
    · exact Or.inr (hfunc₁ d' _ _ (Or.inr rfl) hf).2
  refine h.frame hinv hlen hclients hroot hcall.wire hcall.got hcall.disk
    (fun d' k _ hk => (hread hk).2) (fun d' k hne hk => ?_) hnew.talk (fun d' hd' => ?_)
    (fun d' hd' => ?_)
  · rcases hwrite hk with ⟨-, hf⟩ | hk
    · exact absurd (HttpServerFunc.write.inj hf) hne
    · exact hk
  · obtain ⟨hne, hd'⟩ := hread hd'
    exact absurd (h.read_at hc hreading.sock.1 hd') hne
  · rcases hwrite hd' with ⟨rfl, -⟩ | hd'
    · exact hnew
    · exact absurd hd' (h.no_write hc hreading d')

/-- A call of the read handler. -/
theorem HttpServerNetInv.read (h : HttpServerNetInv files rootDir n)
    (hinv : HttpServerInv none (httpServerClientSelectRead allocOk os n.server c client))
    (hreg : fdselectFunc n.server.sel d fdselectREAD = some (.read c))
    (hc : n.server.clients[c]? = some client) (hfresh : os.Fresh n.server)
    (hhonest : HttpServerCallHonest files n os takes (.read c)) :
    HttpServerNetInv files rootDir { n.io os takes files (.read c) with
      server := httpServerClientSelectRead allocOk os n.server c client } := by
  obtain ⟨old, hold, hreading⟩ := h.reads d c hreg
  cases hc.symm.trans hold
  have hlive := hreading.live
  obtain ⟨hsend, hfile⟩ := hhonest client hc
  have houtcome : HttpServerReads allocOk os takes n.server c client _ _ := httpServerRead_outcome
  have hcall := fun n' => httpServerReadCall_of_io n'
    (httpServerClientSelectRead allocOk os n.server c client) h.inv hc hlive hreading.wire
    hfresh houtcome.opened
  simp only [HttpServerNet.io, hc]
  generalize httpServerClientSelectRead allocOk os n.server c client = s' at *
  generalize httpServerReadIo os takes n.server.rootDir client = io at *
  suffices hall : ∀ n', HttpServerReadCall n n' os io c client → n'.server = s' →
      HttpServerNetInv files rootDir n' from hall _ (hcall _ rfl) rfl
  clear hcall
  intro n' hcall hserver
  have hinv' : HttpServerInv none n'.server := hserver ▸ hinv
  have hfree := fun client' s => hcall.free allocOk client' s h hinv' hc hreading
  have hstay := fun client' => hcall.stay client' h hinv' hc hreading
  have hsetself : n.server.clients.set c client = n.server.clients := by
    rw [← (List.getElem?_eq_some_iff.mp hc).2, List.set_getElem_self]
  -- what is in the buffer behind `recv`
  have hreceived : ∀ client', ¬client.recvMax - client.recvLen ≤ 0 →
      client.receive os.recv = some client' →
      (client'.server = true ∧ client'.sock = client.sock) ∧
        client'.recvMax = httpServerClientBufMax ∧ HttpServerBuffered (n'.got c) client' := by
    intro client' hroom hreceive
    obtain ⟨hserver', hsock, -⟩ := HttpServerClient.receive_same hreceive
    rw [hcall.gotc]
    exact ⟨⟨hserver'.trans hlive, hsock⟩, (HttpServerClient.receive_max hreceive).trans hreading.max,
      hreading.buffered.receive hreading.max hroom hreceive⟩
  cases houtcome with
  | eof => exact hfree client n.server hserver hlive rfl ⟨rfl, rfl, rfl⟩ .silent
  | idle hrecv =>
      have hsame : n'.got c = n.got c := by
        rw [hcall.gotc, hrecv, httpServerGot_wouldblock]
      exact hstay client (by rw [hserver, hsetself]) (by rw [hserver]) (by rw [hserver])
        { hreading with
          wire := by rw [hcall.self, ite_self]
          buffered := hsame ▸ hreading.buffered
          asked := hsame ▸ hreading.asked }
  | fault client' hroom hreceive hfault =>
      obtain ⟨-, -, hbuffered⟩ := hreceived client' hroom hreceive
      -- less than `2 ^ 31` bytes always have a parse, so some call of `recv` failed
      have hnone : ∀ t, n'.got c ≠ some t := by
        intro t ht
        obtain ⟨hrecvLen, hfits, -⟩ := hbuffered t ht
        rcases hfault with hlow | hparse
        · omega
        · obtain ⟨http, i, hsome, -⟩ := httpHeaderParse_cases client'.httpReq
            (readAt client'.recvBuf 0 (httpServerClientBufMax + 1)) (n := client'.recvLen.toNat)
            (by unfold httpServerClientBufMax at hfits; omega)
          rw [HttpServerClient.parse, hsome] at hparse
          cases hparse
      exact hstay client (by rw [hserver, hsetself]) (by rw [hserver]) (by rw [hserver])
        { hreading with
          wire := by rw [hcall.self, ite_self]
          buffered := fun t ht => absurd ht (hnone t)
          asked := fun t ht => absurd ht (hnone t) }
  | tooLong hroom =>
      refine hfree client n.server hserver hlive rfl ⟨rfl, rfl, rfl⟩ ?_
      unfold httpServerFail
      rw [hreading.req]
      refine .tooLong takes.stack takes.page fun t ht => ?_
      rw [hcall.gotc, httpServerGot_full hroom] at ht
      obtain ⟨hrecvLen, hfits, -⟩ := hreading.buffered t ht
      have hmax := hreading.max
      unfold httpServerClientBufMax at *
      omega
  | more client' http hroom hreceive hparse =>
      obtain ⟨⟨hserver', hsock⟩, hmax, hbuffered⟩ := hreceived client' hroom hreceive
      obtain rfl := (httpHeaderParse_result hparse).1 rfl
      exact hstay { client' with httpReq := httpHeaderClear default } (by rw [hserver])
        (by rw [hserver]) (by rw [hserver])
        { live := hserver'
          sock := hsock ▸ hreading.sock
          wire := by rw [hcall.self, ite_self]
          req := rfl
          max := hmax
          buffered := hbuffered
          asked := hbuffered.parse hparse }
  | bad client' http i hneg hroom hreceive hparse =>
      obtain ⟨⟨hserver', hsock⟩, -, hbuffered⟩ := hreceived client' hroom hreceive
      exact hfree _ n.server hserver hserver' hsock ⟨rfl, rfl, rfl⟩
        (.bad http i takes.stack takes.page hneg (hbuffered.parse hparse))
  | failed client' http hroom hreceive hparse s freed opened size k hs hfreed hopened hsize =>
      obtain ⟨⟨hserver', hsock⟩, -, hbuffered⟩ := hreceived client' hroom hreceive
      refine hfree freed s hserver (hfreed.1.trans hserver') (hfreed.2.trans hsock) hs ?_
      have hended : ∀ k, HttpServerEnded files n.server.rootDir (n'.got c) _ := fun k =>
        .failed http k takes.stack takes.page (hbuffered.parse hparse)
      rcases hsize with rfl | ⟨hstat, fd, rfl⟩
      · exact hended 0
      · rw [hfile fd _ size rfl hstat]
        exact hended k
  | sending client' http hroom hreceive hparse fd size hopened hsize hsent sel₁ sel₂ hsel₁ hsel₂ =>
      obtain ⟨⟨hserver', hsock⟩, -, hbuffered⟩ := hreceived client' hroom hreceive
      obtain ⟨rfl, hne⟩ := hreading.sock
      obtain rfl := hfile fd _ size rfl hsize
      -- the header could be sent, so there is a socket
      have hpos : 0 < client.sock := by
        by_contra hneg
        rw [hsend (h.inv.clean.nonneg client.sock (by omega))] at hsent
        cases hsent
      rw [hsock] at hsel₁ hsel₂
      refine hcall.send allocOk h hinv' hc hreading (by rw [hserver]) (by rw [hserver])
        hsel₁ (by rw [hsel₂, hserver]) ?_
      rw [hcall.opened fd _ rfl, hcall.self, if_pos (by omega)]
      exact ⟨hserver', ⟨hsock, hpos⟩, rfl, hbuffered.parse hparse, rfl, Nat.zero_le _,
        (List.append_nil _).symm⟩

end Read

/-! ### The step -/

section Calls

variable {files : List UInt8 → List UInt8} {rootDir : List UInt8} (allocOk : Nat → Bool)
  {os : HttpServerOs} {takes : HttpServerTakes} {n : HttpServerNet} {c : Nat}
  {client : HttpServerClient}

/-- A call of the write handler. -/
theorem HttpServerNetInv.write {d : Int} (h : HttpServerNetInv files rootDir n)
    (hinv : HttpServerInv none (httpServerClientSelectWrite allocOk os n.server c client))
    (hreg : fdselectFunc n.server.sel d fdselectWRITE = some (.write c))
    (hc : n.server.clients[c]? = some client)
    (hhonest : HttpServerCallHonest files n os takes (.write c)) :
    HttpServerNetInv files rootDir { n.io os takes files (.write c) with
      server := httpServerClientSelectWrite allocOk os n.server c client } := by
  have hlen : c < n.server.clients.length := (List.getElem?_eq_some_iff.mp hc).1
  obtain ⟨old, hold, hsending⟩ := h.writes d c hreg
  cases hc.symm.trans hold
  have hlive := hsending.live
  have hpos : 0 < client.sock := hsending.sock.1 ▸ hsending.sock.2
  obtain ⟨hput, hwire⟩ := HttpServerNet.put_wire h.inv hc hlive
    (httpServerWriteSent os (files (n.disk client.sendFd)) client)
  rw [if_pos (by omega)] at hput
  simp only [HttpServerNet.io, hc]
  generalize hn' : n.put client.sock
    (httpServerWriteSent os (files (n.disk client.sendFd)) client) = n' at *
  have hgot : n'.got = n.got := hn' ▸ rfl
  have hdisk : n'.disk = n.disk := hn' ▸ rfl
  clear hn'
  -- It is not registered for reading: it would have got nothing.
  have hnoread : ∀ d, fdselectFunc n.server.sel d fdselectREAD ≠ some (.read c) := by
    intro d hd
    obtain ⟨old, hold, hreading⟩ := h.reads d c hd
    cases hc.symm.trans hold
    have hempty := hreading.wire
    rw [hsending.wire] at hempty
    exact httpServerHead_ne_nil _ (List.append_eq_nil_iff.mp hempty).1
  -- It is registered for writing at its socket only.
  have hat : ∀ d', fdselectFunc n.server.sel d' fdselectWRITE = some (.write c) → d' = d := by
    intro d' hd'
    obtain ⟨old, hold, hother⟩ := h.writes d' c hd'
    cases hc.symm.trans hold
    exact hother.sock.1.symm.trans hsending.sock.1
  -- What has been sent so far is a first part of the file.
  have hended : n'.wire (.sock c) = n.wire (.sock c) → HttpServerEnded files n.server.rootDir
      (n'.got c) (n'.wire (.sock c)) := by
    intro hsame
    have hpath := hsending.opened
    rw [hsame, hgot, hsending.wire, hsending.size, hpath]
    exact .file client.httpReq client.sendOff hsending.asked
  have hfree : HttpServerInv none (httpServerClientFree allocOk n.server c client) →
      n'.wire (.sock c) = n.wire (.sock c) →
      HttpServerNetInv files rootDir
        { n' with server := httpServerClientFree allocOk n.server c client } :=
    fun hinv hsame => h.free allocOk hinv hc rfl hlive rfl (by omega) ⟨rfl, rfl, rfl⟩ hwire
      (fun _ _ => congrFun hgot _) (fun _ _ _ => congrFun hdisk _) (hended hsame)
  unfold httpServerWriteSent at hput
  unfold httpServerClientSelectWrite at hinv ⊢
  by_cases hend : client.sendEnd ≤ client.sendOff
  · -- everything was sent before
    rw [if_pos hend] at hput hinv ⊢
    rw [List.append_nil] at hput
    exact hfree hinv hput
  rw [if_neg hend] at hput hinv ⊢
  cases hsendfile : os.sendfile with
  | error =>
      rw [hsendfile] at hput hinv
      exact hfree hinv (hput.trans (List.append_nil _))
  | wouldblock =>
      rw [hsendfile] at hput hinv
      exact hfree hinv (hput.trans (List.append_nil _))
  | accept k =>
      have hfits := hhonest client hc k hsendfile
      rw [hsendfile] at hput hinv
      cases k with
      | zero => exact hfree hinv (hput.trans (by simp))
      | succ k =>
          -- the piece goes on where the last one ended
          have hnew : HttpServerSending files n.server.rootDir d (n'.disk client.sendFd) (n'.got c)
              (n'.wire (.sock c)) { client with sendOff := client.sendOff + (k + 1) } := by
            rw [hdisk, hgot]
            have hoff : client.sendOff + (k + 1) ≤ client.sendEnd := by omega
            refine ⟨hlive, hsending.sock, hsending.opened, hsending.asked, hsending.size, hoff, ?_⟩
            rw [hput, hsending.wire, List.append_assoc, ← List.take_add]
          refine h.frame (c := c) hinv hlen rfl rfl hwire (fun _ _ => congrFun hgot _)
            (fun _ _ _ => congrFun hdisk _) (fun d k _ hk => hk) (fun d k _ hk => hk)
            hnew.talk (fun d' hd => absurd hd (hnoread d')) (fun d' hd => hat d' hd ▸ hnew)

/-- A new client has said nothing. -/
theorem httpServerReading_init {sock : Int} (hsock : sock ≠ 0) :
    HttpServerReading sock (some []) [] (httpServerClientInit sock) where
  live := rfl
  sock := ⟨rfl, hsock⟩
  wire := rfl
  req := rfl
  max := rfl
  buffered t ht := by
    cases ht
    exact ⟨rfl, Nat.zero_le _, fun i => rfl⟩
  asked t ht := by
    cases ht
    rfl

/-- An accepted client keeps the invariant of the network. -/
theorem HttpServerNetInv.accepted (h : HttpServerNetInv files rootDir n)
    (fds : Descriptors Nat FdUse) {sock : Int} (hsock : sock ≠ 0)
    (hinv : HttpServerInv none (httpServerAccepted allocOk { n.server with fds } sock)) :
    HttpServerNetInv files rootDir
      { n with server := httpServerAccepted allocOk { n.server with fds } sock } := by
  obtain ⟨-, hfunc⟩ := fdselectFunc_of_set allocOk h.inv.wf sock (Or.inl rfl)
    (.read n.server.clients.length)
  obtain ⟨hwire, hgot⟩ := h.new n.server.clients.length (Nat.le_refl _)
  have hinit : HttpServerReading sock (n.got n.server.clients.length)
      (n.wire (.sock n.server.clients.length)) (httpServerClientInit sock) := by
    rw [hwire, hgot]
    exact httpServerReading_init hsock
  have hkeep : ∀ {c : Nat} {client : HttpServerClient}, n.server.clients[c]? = some client →
      (n.server.clients ++ [httpServerClientInit sock])[c]? = some client := by
    intro c client hc
    rw [List.getElem?_append_left (List.getElem?_eq_some_iff.mp hc).1, hc]
  constructor
  case inv => exact hinv
  case root => exact h.root
  case stray => exact h.stray
  case new =>
    intro c hc
    refine h.new c (Nat.le_trans ?_ hc)
    simp [httpServerAccepted]
  case talk =>
    intro c client hc
    have hc : (n.server.clients ++ [httpServerClientInit sock])[c]? = some client := hc
    -- a client is an old one, or the new one at the end
    rw [List.getElem?_append] at hc
    split at hc
    · exact h.talk c client hc
    · rename_i hlt
      obtain ⟨hle, hval⟩ := List.getElem?_eq_some_iff.mp hc
      rw [List.length_singleton] at hle
      obtain rfl : c = n.server.clients.length := by omega
      rw [List.getElem_singleton] at hval
      exact hval ▸ hinit.talk
  case reads =>
    intro d c hd
    rcases hfunc d _ _ (Or.inl rfl) hd with ⟨rfl, -, hf⟩ | hd
    · cases hf
      exact ⟨_, List.getElem?_concat_length, hinit⟩
    · obtain ⟨client, hc, hreading⟩ := h.reads d c hd
      exact ⟨client, hkeep hc, hreading⟩
  case writes =>
    intro d c hd
    rcases hfunc d _ _ (Or.inr rfl) hd with ⟨-, hev, -⟩ | hd
    · exact absurd hev (by decide)
    · obtain ⟨client, hc, hsending⟩ := h.writes d c hd
      exact ⟨client, hkeep hc, hsending⟩

/-- A call of the accept handler. -/
theorem HttpServerNetInv.accept (h : HttpServerNetInv files rootDir n)
    (hinv : HttpServerInv none (httpServerSelectAccept allocOk os n.server))
    (hhonest : os.accept ≠ .sock 0) :
    HttpServerNetInv files rootDir
      { n with server := httpServerSelectAccept allocOk os n.server } := by
  unfold httpServerSelectAccept at hinv ⊢
  cases hacc : os.accept with
  | error => exact h
  | wouldblock =>
      rw [hacc] at hinv
      exact h.accepted allocOk n.server.fds (by decide) hinv
  | sock fd =>
      rw [hacc] at hinv
      refine h.accepted allocOk _ (fun hzero => hhonest ?_) hinv
      rw [hacc, Int.natCast_eq_zero.mp hzero]

/-- The step lemma. -/
theorem HttpServerNetInv.step {e : HttpServerNetEvent} (h : HttpServerNetInv files rootDir n)
    (hfresh : e.os.Fresh n.server) (hok : e.CloseOk n.server) (hhonest : e.Honest files n) :
    HttpServerNetInv files rootDir (httpServerNetStep allocOk files n e) := by
  have hinv := h.inv.step allocOk hfresh hok
  unfold httpServerNetStep
  unfold httpServerStep at hinv ⊢
  by_cases hfault : n.server.fault = true
  · rw [if_pos hfault]
    exact h
  simp only [if_neg hfault] at hinv ⊢
  cases hfunc : fdselectFunc n.server.sel e.fd e.event with
  | none => exact h
  | some func =>
      have hcall := hhonest func hfunc
      rw [hfunc] at hinv
      simp only at hinv ⊢
      unfold HttpServerEvent.event at hfunc
      cases hwrite : e.write with
      | true =>
          rw [hwrite, if_pos rfl] at hfunc
          obtain ⟨c, client, rfl, hc, -⟩ := h.inv.writes _ _ hfunc
          simp only [httpServerCall, hc] at hinv ⊢
          exact h.write allocOk hinv hfunc hc hcall
      | false =>
          rw [hwrite, if_neg Bool.false_ne_true] at hfunc
          rcases h.inv.reads _ _ hfunc with rfl | ⟨c, client, rfl, hc, -⟩
          · exact h.accept allocOk hinv hcall
          · simp only [httpServerCall, hc] at hinv ⊢
            exact h.read hinv hfunc hc hfresh hcall

end Calls

/-! ### Runs -/

section Run

variable (allocOk : Nat → Bool) (files : List UInt8 → List UInt8)

/-- The kernel does nothing to the server. -/
theorem httpServerNetStep_server (n : HttpServerNet) (e : HttpServerNetEvent) :
    (httpServerNetStep allocOk files n e).server
      = httpServerStep allocOk n.server e.toHttpServerEvent := by
  unfold httpServerNetStep httpServerStep
  by_cases hfault : n.server.fault = true
  · simp only [if_pos hfault]
  · simp only [if_neg hfault]
    cases fdselectFunc n.server.sel e.fd e.event <;> rfl

/-- The run of the server with its kernel is the run of the server. -/
theorem run_httpServerNet_server (events : List HttpServerNetEvent) :
    ∀ n, (run (httpServerNetStep allocOk files) n events).server
      = run (httpServerStep allocOk) n.server (events.map (·.toHttpServerEvent)) := by
  induction events with
  | nil => intro n; rfl
  | cons e events ih =>
      intro n
      rw [run_cons, ih, httpServerNetStep_server, List.map_cons, run_cons]

end Run

/-- The condition on an event: the results of the system calls are what the kernel gives, and freeing a
client closes no descriptor of another. -/
def HttpServerNetEvent.Ok (files : List UInt8 → List UInt8) (n : HttpServerNet)
    (e : HttpServerNetEvent) : Prop :=
  e.os.Fresh n.server ∧ e.CloseOk n.server ∧ e.Honest files n

/-- A run of such events keeps the invariant. -/
theorem HttpServerNetInv.run (allocOk : Nat → Bool) {files : List UInt8 → List UInt8}
    {rootDir : List UInt8} {n : HttpServerNet} (h : HttpServerNetInv files rootDir n)
    {events : List HttpServerNetEvent}
    (hevents : AllSteps (HttpServerNetEvent.Ok files) (httpServerNetStep allocOk files) n events) :
    HttpServerNetInv files rootDir (run (httpServerNetStep allocOk files) n events) :=
  run_inv_of_allSteps (fun _ _ h hok => h.step allocOk hok.1 hok.2.1 hok.2.2) h hevents

end Bklib
