import Bklib.Model.HttpServerNet
import Bklib.Proofs.HttpReply
import Bklib.Proofs.HttpScan
import Bklib.Proofs.HttpServer
import Mathlib.Data.List.GetD

/-!
# `Bklib.Proofs.HttpServerNet`: what each client of `http_server` gets

Many clients are served at once, each call of a handler is for one of them. `HttpServerTalk` is what a
single client and the server have said to each other: the client has not asked for anything complete
and got nothing; or it gets the header and a first part of the file it asked for; or it is gone, with
one of the answers of `HttpServerEnded`. In every run each client is in such a talk, by what it sent
itself, and nothing is written to anything but the sockets of clients (`HttpServerNetInv.step`).
-/

set_option autoImplicit false

namespace Bklib

open Lib

/-! ### One client -/

/-- What `http_header_parse` says of the bytes from a client, at the start of a buffer of zeros. -/
def httpServerAsk (t : List UInt8) : Option (HttpHeader × Int) :=
  httpHeaderParse default (t ++ List.replicate (httpServerClientBufMax + 1 - t.length) 0) t.length

/-- The bytes from a client, if they are known, parse like this. -/
def HttpServerAsked (got : Option (List UInt8)) (http : HttpHeader) (i : Int) : Prop :=
  ∀ t, got = some t → httpServerAsk t = some (http, i)

/-- What a client got when its connection is over, if these bytes came from it: nothing; a first part
of a page, because the request was too long, did not parse, or could not be answered; or the header and
a first part of the file it asked for. -/
inductive HttpServerEnded (files : List UInt8 → List UInt8) (rootDir : List UInt8)
    (got : Option (List UInt8)) : List UInt8 → Prop
  | silent : HttpServerEnded files rootDir got []
  | tooLong (stack : List UInt8) (j : Nat) (hfull : ∀ t, got = some t → t.length = 4096) :
      HttpServerEnded files rootDir got
        ((httpServerPageBuf stack (httpServerErrorPage 405 none)).take j)
  | bad (http : HttpHeader) (i : Int) (stack : List UInt8) (j : Nat) (hneg : i < 0)
      (hasked : HttpServerAsked got http i) :
      HttpServerEnded files rootDir got
        ((httpServerPageBuf stack (httpServerErrorPage (-i) http.uri)).take j)
  | failed (http : HttpHeader) (k : Nat) (stack : List UInt8) (j : Nat)
      (hasked : HttpServerAsked got http 1) :
      HttpServerEnded files rootDir got
        ((httpServerHead (files (httpServerPath rootDir http.uri)).length).take k ++
          (httpServerPageBuf stack (httpServerErrorPage 404 http.uri)).take j)
  | file (http : HttpHeader) (k : Nat) (hasked : HttpServerAsked got http 1) :
      HttpServerEnded files rootDir got
        (httpServerHead (files (httpServerPath rootDir http.uri)).length ++
          (files (httpServerPath rootDir http.uri)).take k)

/-- What a client has sent and got, with its record. -/
inductive HttpServerTalk (files : List UInt8 → List UInt8) (rootDir : List UInt8)
    (got : Option (List UInt8)) : List UInt8 → HttpServerClient → Prop
  | reading (client : HttpServerClient) (hlive : client.server = true) (http : HttpHeader)
      (hasked : HttpServerAsked got http 0) : HttpServerTalk files rootDir got [] client
  | sending (client : HttpServerClient) (hlive : client.server = true)
      (hasked : HttpServerAsked got client.httpReq 1)
      (hend : client.sendEnd = (files (httpServerPath rootDir client.httpReq.uri)).length)
      (hoff : client.sendOff ≤ client.sendEnd) :
      HttpServerTalk files rootDir got
        (httpServerHead client.sendEnd ++
          (files (httpServerPath rootDir client.httpReq.uri)).take client.sendOff) client
  | ended (client : HttpServerClient) (hdead : client.server = false) {wire : List UInt8}
      (hended : HttpServerEnded files rootDir got wire) : HttpServerTalk files rootDir got wire client

/-- The answer of the kernel to a call of a handler: no client gets the descriptor 0, a `send` on a
socket that is not open fails, a file has the size that `fstat` says, and `sendfile` takes no more than
it is asked for. -/
def HttpServerCallHonest (files : List UInt8 → List UInt8) (n : HttpServerNet) (os : HttpServerOs)
    (takes : HttpServerTakes) : HttpServerFunc → Prop
  | .accept  => os.accept ≠ .sock 0
  | .read c  => ∀ client, n.server.clients[c]? = some client →
      (n.server.fds.use client.sock = none → os.send = false) ∧
      ∀ fd path size, (httpServerReadIo os takes n.server.rootDir client).opened = some (fd, path) →
        os.fstat = some size → size = (files path).length
  | .write c => ∀ client, n.server.clients[c]? = some client → ∀ k, os.sendfile = .accept k →
      k ≤ client.sendEnd - client.sendOff

/-- The condition on the kernel in an event. -/
def HttpServerNetEvent.Honest (files : List UInt8 → List UInt8) (n : HttpServerNet)
    (e : HttpServerNetEvent) : Prop :=
  ∀ func, fdselectFunc n.server.sel e.fd e.event = some func →
    HttpServerCallHonest files n e.os e.takes func

/-! ### The buffer of a client -/

section Buffer

variable {got : Option (List UInt8)} {client client' : HttpServerClient}

/-- The buffer holds what the client sent. -/
def HttpServerBuffered (got : Option (List UInt8)) (client : HttpServerClient) : Prop :=
  ∀ t, got = some t → client.recvLen = t.length ∧ t.length ≤ httpServerClientBufMax ∧
    ∀ i : Nat, client.recvBuf i = t.getD i 0

/-- A text in cleared memory is read back with zeros behind it. -/
theorem readAt_getD (mem : Int → UInt8) (t : List UInt8) (n : Nat) (hlen : t.length ≤ n)
    (hmem : ∀ i : Nat, mem i = t.getD i 0) :
    readAt mem 0 n = t ++ List.replicate (n - t.length) 0 := by
  apply List.ext_getElem
  · rw [length_readAt, List.length_append, List.length_replicate]
    omega
  · intro i h1 h2
    simp only [readAt, List.getElem_map, List.getElem_range, Int.zero_add, hmem]
    by_cases hi : i < t.length
    · rw [List.getElem_append_left hi, List.getD_eq_getElem _ _ hi]
    · rw [List.getElem_append_right (by omega), List.getElem_replicate,
        List.getD_eq_default _ _ (by omega)]

theorem httpServerGot_wouldblock (client : HttpServerClient) (got : Option (List UInt8)) :
    httpServerGot .wouldblock client got = got := by
  unfold httpServerGot
  rw [ite_self]

theorem httpServerGot_full {r : RecvResult} (hroom : client.recvMax - client.recvLen ≤ 0) :
    httpServerGot r client got = got := by
  unfold httpServerGot
  rw [if_pos hroom]

/-- Receiving leaves the size of the buffer. -/
theorem HttpServerClient.receive_max {r : RecvResult} (h : client.receive r = some client') :
    client'.recvMax = client.recvMax := by
  cases r with
  | wouldblock => cases h
  | error => cases h; rfl
  | bytes bs =>
      simp only [HttpServerClient.receive] at h
      split at h
      · cases h
      · cases h
        rfl

/-- What is in the buffer is parsed like the bytes themselves. -/
theorem HttpServerBuffered.parse (h : HttpServerBuffered got client) {http : HttpHeader} {i : Int}
    (hparse : client.parse = some (http, i)) : HttpServerAsked got http i := by
  intro t ht
  obtain ⟨hlen, hfits, hmem⟩ := h t ht
  rw [← hparse, HttpServerClient.parse, hlen, readAt_getD _ t _ (by omega) hmem]
  rfl

/-- A piece is appended, with a zero behind it. -/
theorem HttpServerBuffered.receive (h : HttpServerBuffered got client)
    (hmax : client.recvMax = httpServerClientBufMax) {r : RecvResult}
    (hroom : ¬client.recvMax - client.recvLen ≤ 0) (hreceive : client.receive r = some client') :
    HttpServerBuffered (httpServerGot r client got) client' := by
  intro t' ht'
  unfold httpServerGot at ht'
  rw [if_neg hroom] at ht'
  cases r with
  | wouldblock => cases hreceive
  | error => cases ht'
  | bytes bs =>
      obtain ⟨t, ht, rfl⟩ := Option.map_eq_some_iff.mp ht'
      obtain ⟨hlen, hfits, hmem⟩ := h t ht
      simp only [HttpServerClient.receive] at hreceive
      split at hreceive
      · cases hreceive
      cases hreceive
      -- the piece fits into the room that is left
      have hpiece : (bs.take (client.recvMax - client.recvLen).toNat).length
          ≤ httpServerClientBufMax - t.length := by
        rw [List.length_take]
        omega
      generalize bs.take (client.recvMax - client.recvLen).toNat = piece at *
      refine ⟨?_, ?_, fun i => ?_⟩
      · simp only [HttpServerClient.received, hlen, List.length_append]
        omega
      · rw [List.length_append]
        omega
      · simp only [HttpServerClient.received, hlen]
        by_cases hlast : i = t.length + piece.length
        · have hzero := writeAt_add (writeAt client.recvBuf t.length piece)
            ((t.length : Int) + piece.length) [0] 0 (by simp)
          rw [hlast, List.getD_eq_default _ _ (by rw [List.length_append])]
          simpa using hzero
        · -- the zero is written elsewhere
          have hskip : writeAt (writeAt client.recvBuf t.length piece)
              ((t.length : Int) + piece.length) [0] i = writeAt client.recvBuf t.length piece i := by
            by_cases hlt : i < t.length + piece.length
            · exact writeAt_of_lt _ _ (by omega)
            · exact writeAt_of_ge _ _ (by rw [List.length_singleton]; omega)
          rw [hskip]
          by_cases hin : i < t.length
          · rw [writeAt_of_lt _ _ (by omega), hmem, List.getD_append _ _ _ _ hin]
          · obtain ⟨k, rfl⟩ := Nat.exists_eq_add_of_le (Nat.le_of_not_lt hin)
            rw [List.getD_append_right _ _ _ _ (by omega), Nat.add_sub_cancel_left]
            by_cases hk : k < piece.length
            · rw [Nat.cast_add, writeAt_add _ _ _ _ hk, List.getD_eq_getElem _ _ hk]
            · rw [writeAt_of_ge _ _ (by omega), hmem, List.getD_eq_default _ _ (by omega),
                List.getD_eq_default _ _ (by omega)]

end Buffer

/-! ### The invariant -/

/-- A client that is registered for reading at `d`. -/
structure HttpServerReading (d : Int) (got : Option (List UInt8)) (wire : List UInt8)
    (client : HttpServerClient) : Prop where
  live     : client.server = true
  sock     : client.sock = d ∧ d ≠ 0
  wire     : wire = []
  req      : client.httpReq = httpHeaderClear default
  max      : client.recvMax = httpServerClientBufMax
  buffered : HttpServerBuffered got client
  asked    : HttpServerAsked got (httpHeaderClear default) 0

/-- A client that is registered for writing at `d`, with the path that its file was opened with. -/
structure HttpServerSending (files : List UInt8 → List UInt8) (rootDir : List UInt8) (d : Int)
    (path : List UInt8) (got : Option (List UInt8)) (wire : List UInt8) (client : HttpServerClient) :
    Prop where
  live   : client.server = true
  sock   : client.sock = d ∧ 0 < d
  opened : path = httpServerPath rootDir client.httpReq.uri
  asked  : HttpServerAsked got client.httpReq 1
  size   : client.sendEnd = (files path).length
  off    : client.sendOff ≤ client.sendEnd
  wire   : wire = httpServerHead client.sendEnd ++ (files path).take client.sendOff

/-- Each client is in a talk, and the one whose handler is called next is in the right one. -/
structure HttpServerNetInv (files : List UInt8 → List UInt8) (rootDir : List UInt8)
    (n : HttpServerNet) : Prop where
  inv    : HttpServerInv none n.server
  root   : n.server.rootDir = rootDir
  stray  : ∀ u, (∀ c, u ≠ .sock c) → n.wire u = []
  new    : ∀ c, n.server.clients.length ≤ c → n.wire (.sock c) = [] ∧ n.got c = some []
  talk   : ∀ c client, n.server.clients[c]? = some client →
    HttpServerTalk files n.server.rootDir (n.got c) (n.wire (.sock c)) client
  reads  : ∀ d c, fdselectFunc n.server.sel d fdselectREAD = some (.read c) →
    ∃ client, n.server.clients[c]? = some client ∧
      HttpServerReading d (n.got c) (n.wire (.sock c)) client
  writes : ∀ d c, fdselectFunc n.server.sel d fdselectWRITE = some (.write c) →
    ∃ client, n.server.clients[c]? = some client ∧
      HttpServerSending files n.server.rootDir d (n.disk client.sendFd) (n.got c) (n.wire (.sock c))
        client

section Step

variable {files : List UInt8 → List UInt8} {rootDir path : List UInt8} {got : Option (List UInt8)}
  {wire : List UInt8} {client client' : HttpServerClient} {n n' : HttpServerNet} {c : Nat} {d : Int}

theorem HttpServerReading.talk (h : HttpServerReading d got wire client) :
    HttpServerTalk files rootDir got wire client := by
  rw [h.wire]
  exact .reading client h.live _ h.asked

/-- A client that is being sent a file talks. -/
theorem HttpServerSending.talk (h : HttpServerSending files rootDir d path got wire client) :
    HttpServerTalk files rootDir got wire client := by
  have hopened := h.opened
  subst hopened
  rw [h.wire]
  exact .sending client h.live h.asked h.size h.off

/-- A call for the client `c` leaves the others as they are, and so their talks. -/
theorem HttpServerNetInv.frame (h : HttpServerNetInv files rootDir n)
    (hinv : HttpServerInv none n'.server) (hlen : c < n.server.clients.length)
    (hclients : n'.server.clients = n.server.clients.set c client')
    (hroot : n'.server.rootDir = n.server.rootDir)
    (hwire : ∀ u, u ≠ .sock c → n'.wire u = n.wire u) (hgot : ∀ k, k ≠ c → n'.got k = n.got k)
    (hdisk : ∀ d u, n.server.fds.use d = some u → n'.disk d = n.disk d)
    (hreads : ∀ d k, k ≠ c → fdselectFunc n'.server.sel d fdselectREAD = some (.read k) →
      fdselectFunc n.server.sel d fdselectREAD = some (.read k))
    (hwrites : ∀ d k, k ≠ c → fdselectFunc n'.server.sel d fdselectWRITE = some (.write k) →
      fdselectFunc n.server.sel d fdselectWRITE = some (.write k))
    (htalk : HttpServerTalk files n.server.rootDir (n'.got c) (n'.wire (.sock c)) client')
    (hread : ∀ d, fdselectFunc n'.server.sel d fdselectREAD = some (.read c) →
      HttpServerReading d (n'.got c) (n'.wire (.sock c)) client')
    (hwrite : ∀ d, fdselectFunc n'.server.sel d fdselectWRITE = some (.write c) →
      HttpServerSending files n.server.rootDir d (n'.disk client'.sendFd) (n'.got c)
        (n'.wire (.sock c)) client') : HttpServerNetInv files rootDir n' := by
  -- A record is an old one of another client, or the new one.
  have hget : ∀ {k : Nat} {old : HttpServerClient}, n'.server.clients[k]? = some old →
      (k ≠ c ∧ n.server.clients[k]? = some old) ∨ (k = c ∧ old = client') := by
    intro k old hk
    rw [hclients] at hk
    exact getElem?_of_set hk
  have hother : ∀ {k : Nat}, k ≠ c → n'.wire (.sock k) = n.wire (.sock k) ∧ n'.got k = n.got k :=
    fun hk => ⟨hwire _ (fun heq => hk (FdUse.sock.inj heq)), hgot _ hk⟩
  constructor
  case inv => exact hinv
  case root => exact hroot.trans h.root
  case stray =>
    intro u hu
    rw [hwire u (hu c), h.stray u hu]
  case new =>
    intro k hk
    rw [hclients, List.length_set] at hk
    obtain ⟨hw, hg⟩ := hother (k := k) (by omega)
    rw [hw, hg]
    exact h.new k hk
  case talk =>
    intro k old hk
    rw [hroot]
    rcases hget hk with ⟨hne, hk⟩ | ⟨rfl, rfl⟩
    · obtain ⟨hw, hg⟩ := hother hne
      rw [hw, hg]
      exact h.talk k old hk
    · exact htalk
  case reads =>
    intro d k hreg
    by_cases hk : k = c
    · subst hk
      exact ⟨client', by rw [hclients, List.getElem?_set_self hlen], hread d hreg⟩
    · obtain ⟨hw, hg⟩ := hother hk
      obtain ⟨old, hold, hreading⟩ := h.reads d k (hreads d k hk hreg)
      rw [hw, hg]
      exact ⟨old, by rw [hclients, List.getElem?_set_ne (Ne.symm hk), hold], hreading⟩
  case writes =>
    intro d k hreg
    rw [hroot]
    by_cases hk : k = c
    · subst hk
      exact ⟨client', by rw [hclients, List.getElem?_set_self hlen], hwrite d hreg⟩
    · obtain ⟨hw, hg⟩ := hother hk
      have hreg' := hwrites d k hk hreg
      obtain ⟨old, hold, hsending⟩ := h.writes d k hreg'
      -- its file is open, so the descriptor is not one that was opened just now
      obtain ⟨k', old', hfunc, hk', hfile⟩ := h.inv.writes d _ hreg'
      obtain rfl := HttpServerFunc.write.inj hfunc
      obtain rfl := Option.some.inj (hold.symm.trans hk')
      refine ⟨old, by rw [hclients, List.getElem?_set_ne (Ne.symm hk), hold], ?_⟩
      rw [hw, hg, hdisk _ _ (hfile hsending.live (by simp))]
      exact hsending

/-- Behind `http_server_client_free` nothing is registered at the socket. -/
theorem httpServerClientFree_unset (allocOk : Nat → Bool) {s : HttpServer} (hwf : s.sel.Wf)
    (hlive : client.server = true) (hsock : client.sock ≠ 0) {d : Int} {ev : FdEvents}
    (hev : IsRw ev) {f : HttpServerFunc}
    (hf : fdselectFunc (httpServerClientFree allocOk s c client).sel d ev = some f) :
    d ≠ client.sock := by
  have hw := fdselectFunc_of_unset allocOk hwf client.sock (Or.inr rfl)
  have hr := fdselectFunc_of_unset allocOk hw.1 client.sock (Or.inl rfl)
  rintro rfl
  have hsel : fdselectFunc (fdselectUnset allocOk
      (fdselectUnset allocOk s.sel client.sock fdselectWRITE).1 client.sock fdselectREAD).1
      client.sock ev = some f := by
    unfold httpServerClientFree at hf
    rw [if_neg (by simp [hlive])] at hf
    by_cases hfd : 0 ≤ client.sendFd <;>
      simpa only [hfd, hsock, ne_eq, not_false_eq_true, if_true, if_false] using hf
  obtain ⟨hread, hf⟩ := hr.2 _ _ _ hev hsel
  obtain ⟨hwrite, -⟩ := hw.2 _ _ _ hev hf
  rcases hev with rfl | rfl
  · exact hread ⟨rfl, rfl⟩
  · exact hwrite ⟨rfl, rfl⟩

/-- Freeing a client leaves the root directory. -/
theorem httpServerClientFree_rootDir (allocOk : Nat → Bool) (s : HttpServer) (c : Nat)
    (client : HttpServerClient) : (httpServerClientFree allocOk s c client).rootDir = s.rootDir := by
  unfold httpServerClientFree
  by_cases hdead : client.server = false
  · rw [if_pos hdead]
  · rw [if_neg hdead]
    by_cases hfd : 0 ≤ client.sendFd <;> by_cases hsock : client.sock = 0 <;>
      simp only [hfd, hsock, ne_eq, not_true_eq_false, not_false_eq_true, if_true, if_false]

/-- The client `c` is freed, with this answer. -/
theorem HttpServerNetInv.free (allocOk : Nat → Bool) {s : HttpServer}
    (h : HttpServerNetInv files rootDir n) (hinv : HttpServerInv none n'.server)
    (hc : n.server.clients[c]? = some client)
    (hserver : n'.server = httpServerClientFree allocOk s c client') (hlive : client'.server = true)
    (hsock : client'.sock = client.sock) (hne : client.sock ≠ 0)
    (hs : s.clients = n.server.clients ∧ s.sel = n.server.sel ∧ s.rootDir = n.server.rootDir)
    (hwire : ∀ u, u ≠ .sock c → n'.wire u = n.wire u) (hgot : ∀ k, k ≠ c → n'.got k = n.got k)
    (hdisk : ∀ d u, n.server.fds.use d = some u → n'.disk d = n.disk d)
    (hended : HttpServerEnded files n.server.rootDir (n'.got c) (n'.wire (.sock c))) :
    HttpServerNetInv files rootDir n' := by
  obtain ⟨hclients, hsel, hroot⟩ := hs
  have hlen : c < n.server.clients.length := (List.getElem?_eq_some_iff.mp hc).1
  have hwf : s.sel.Wf := hsel ▸ h.inv.wf
  have hkept := (httpServerClientFree_sel allocOk c client' hwf).2
  -- nothing is registered at its socket any more
  have hgone : ∀ {d ev f}, IsRw ev → fdselectFunc n'.server.sel d ev = some f → d ≠ client.sock := by
    intro d ev f hev hf
    rw [hserver] at hf
    rw [← hsock]
    exact httpServerClientFree_unset allocOk hwf hlive (hsock ▸ hne) hev hf
  rw [← hserver, hsel] at hkept
  have hset : n'.server.clients = n.server.clients.set c {} := by
    rw [hserver, httpServerClientFree_clients allocOk s c hlive, hclients]
  refine h.frame hinv hlen hset ?_ hwire hgot hdisk
    (fun d k _ hk => hkept d _ _ (Or.inl rfl) hk) (fun d k _ hk => hkept d _ _ (Or.inr rfl) hk)
    (.ended _ rfl hended) (fun d hd => ?_) (fun d hd => ?_)
  · rw [hserver, httpServerClientFree_rootDir, hroot]
  · obtain ⟨old, hold, hreading⟩ := h.reads d c (hkept d _ _ (Or.inl rfl) hd)
    cases hc.symm.trans hold
    exact absurd hreading.sock.1.symm (hgone (Or.inl rfl) hd)
  · obtain ⟨old, hold, hsending⟩ := h.writes d c (hkept d _ _ (Or.inr rfl) hd)
    cases hc.symm.trans hold
    exact absurd hsending.sock.1.symm (hgone (Or.inr rfl) hd)

/-! ### What goes out -/

theorem httpServerHead_ne_nil (size : Nat) : httpServerHead size ≠ [] := by
  simp [httpServerHead, bytes]

/-- A client is sent something: it goes to the client, if it has a socket, and nowhere else. -/
theorem HttpServerNet.put_wire (hinv : HttpServerInv none n.server)
    (hc : n.server.clients[c]? = some client) (hlive : client.server = true) (bs : List UInt8) :
    (n.put client.sock bs).wire (.sock c)
        = n.wire (.sock c) ++ (if 0 ≤ client.sock then bs else []) ∧
      ∀ u, u ≠ .sock c → (n.put client.sock bs).wire u = n.wire u := by
  by_cases hpos : 0 ≤ client.sock
  · have huse := hinv.live c client hc hlive hpos
    refine ⟨?_, fun u hu => ?_⟩
    · simp only [HttpServerNet.put, huse, if_pos hpos, if_true]
    · simp only [HttpServerNet.put, huse]
      exact if_neg fun heq => hu (Option.some.inj heq).symm
  · have huse := hinv.clean.nonneg client.sock (by omega)
    simp [HttpServerNet.put, huse, hpos]

end Step

/-! ### What the read handler does -/

/-- `http_header_parse` clears the header of a request that is not complete, and says 1 of one that
is. -/
theorem httpHeaderParse_result {http http' : HttpHeader} {buf : List UInt8} {len : Nat} {i : Int}
    (h : httpHeaderParse http buf len = some (http', i)) :
    (i = 0 → http' = httpHeaderClear default) ∧ (0 < i → i = 1) := by
  have hsane := HttpScan.Sane.loop buf (s := httpStart http) ⟨by simp [httpStart], by simp [httpStart]⟩
    len
  unfold httpHeaderParse httpFinish at h
  generalize httpLoop buf len (httpStart http) = s at *
  by_cases hfault : s.fault = true
  · rw [if_pos hfault] at h
    cases h
  rw [if_neg hfault] at h
  by_cases herror : s.state = .error
  · -- the number of the state is positive
    have hcode := hsane.error herror
    rw [if_pos herror] at h
    cases h
    omega
  rw [if_neg herror] at h
  by_cases hdone : s.state ≠ .done
  · rw [if_pos hdone] at h
    cases h
    exact ⟨fun _ => rfl, by omega⟩
  · rw [if_neg hdone] at h
    obtain ⟨p, -, h⟩ := Option.bind_eq_some_iff.mp h
    obtain ⟨contentType, -, h⟩ := Option.bind_eq_some_iff.mp h
    cases h
    exact ⟨by omega, fun _ => rfl⟩

section Outcome

variable (allocOk : Nat → Bool) (os : HttpServerOs) (takes : HttpServerTakes) (s : HttpServer)
  (c : Nat) (client : HttpServerClient)

/-- The outcomes of a call of the read handler: the server behind it, the file that was opened, and what
was sent. `client'` is the record behind `recv`, `s'` and `freed` are what is left when the client is
freed. -/
inductive HttpServerReads : HttpServer → HttpServerIo → Prop
  | idle (hrecv : os.recv = .wouldblock) : HttpServerReads s {}
  | eof : HttpServerReads (httpServerClientFree allocOk s c client) {}
  | fault (client' : HttpServerClient) (hroom : ¬client.recvMax - client.recvLen ≤ 0)
      (hreceive : client.receive os.recv = some client')
      (hfault : client'.recvLen < -16 ∨ client'.parse = none) :
      HttpServerReads { s with fault := true } {}
  | tooLong (hroom : client.recvMax - client.recvLen ≤ 0) :
      HttpServerReads (httpServerClientFree allocOk s c client)
        { sent := httpServerFail takes 405 client }
  | more (client' : HttpServerClient) (http : HttpHeader)
      (hroom : ¬client.recvMax - client.recvLen ≤ 0) (hreceive : client.receive os.recv = some client')
      (hparse : client'.parse = some (http, 0)) :
      HttpServerReads { s with clients := s.clients.set c { client' with httpReq := http } } {}
  | bad (client' : HttpServerClient) (http : HttpHeader) (i : Int) (hneg : i < 0)
      (hroom : ¬client.recvMax - client.recvLen ≤ 0) (hreceive : client.receive os.recv = some client')
      (hparse : client'.parse = some (http, i)) :
      HttpServerReads (httpServerClientFree allocOk s c { client' with httpReq := http })
        { sent := httpServerFail takes (-i) { client' with httpReq := http } }
  | failed (client' : HttpServerClient) (http : HttpHeader)
      (hroom : ¬client.recvMax - client.recvLen ≤ 0) (hreceive : client.receive os.recv = some client')
      (hparse : client'.parse = some (http, 1)) (s' : HttpServer) (freed : HttpServerClient)
      (opened : Option (Nat × List UInt8)) (size k : Nat)
      (hs : s'.clients = s.clients ∧ s'.sel = s.sel ∧ s'.rootDir = s.rootDir)
      (hfreed : freed.server = client'.server ∧ freed.sock = client'.sock)
      (hopened : ∀ fd path, opened = some (fd, path) → os.openFile path = some fd)
      (hsize : k = 0 ∨ os.fstat = some size ∧
        ∃ fd, opened = some (fd, httpServerPath s.rootDir http.uri)) :
      HttpServerReads (httpServerClientFree allocOk s' c freed)
        { opened, sent := (httpServerHead size).take k ++
            httpServerFail takes 404 { client' with httpReq := http } }
  | sending (client' : HttpServerClient) (http : HttpHeader)
      (hroom : ¬client.recvMax - client.recvLen ≤ 0) (hreceive : client.receive os.recv = some client')
      (hparse : client'.parse = some (http, 1)) (fd size : Nat)
      (hopened : os.openFile (httpServerPath s.rootDir http.uri) = some fd)
      (hsize : os.fstat = some size) (hsend : os.send = true)
      (sel₁ sel₂ : Fdselect HttpServerFunc)
      (hsel₁ : (fdselectUnset allocOk s.sel client'.sock fdselectREAD).1 = sel₁)
      (hsel₂ : (fdselectSet allocOk sel₁ client'.sock fdselectWRITE (some (.write c))).1 = sel₂) :
      HttpServerReads
        { s with
          sel := sel₂, fds := s.fds.acquire fd (.file c)
          clients := s.clients.set c
            { client' with httpReq := http, sendFd := fd, sendOff := 0, sendEnd := size } }
        { opened := some (fd, httpServerPath s.rootDir http.uri), sent := httpServerHead size }

variable {allocOk os takes s c client}

/-- The part behind the parser. -/
theorem HttpServerReads.respond {client' : HttpServerClient} {http : HttpHeader}
    (hroom : ¬client.recvMax - client.recvLen ≤ 0)
    (hreceive : client.receive os.recv = some client') (hparse : client'.parse = some (http, 1)) :
    HttpServerReads allocOk os takes s c client
      (httpServerRespond allocOk os s c { client' with httpReq := http })
      (httpServerRespondIo os takes s.rootDir { client' with httpReq := http }) := by
  have hfail := @HttpServerReads.failed allocOk os takes s c client client' http hroom hreceive hparse
  unfold httpServerRespond httpServerRespondIo
  by_cases hstat : os.stat (httpServerPath s.rootDir http.uri) = false
  · simp only [if_pos hstat]
    exact hfail s _ none 0 0 ⟨rfl, rfl, rfl⟩ ⟨rfl, rfl⟩ (by simp) (Or.inl rfl)
  simp only [if_neg hstat]
  cases hopen : os.openFile (httpServerPath s.rootDir http.uri) with
  | none => exact hfail s _ none 0 0 ⟨rfl, rfl, rfl⟩ ⟨rfl, rfl⟩ (by simp) (Or.inl rfl)
  | some fd =>
      have hopened : ∀ fd' path, some (fd, httpServerPath s.rootDir http.uri) = some (fd', path) →
          os.openFile path = some fd' := by
        intro fd' path heq
        cases heq
        exact hopen
      cases hsize : os.fstat with
      | none =>
          exact hfail { s with fds := s.fds.acquire fd (.file c) } _ _ 0 0 ⟨rfl, rfl, rfl⟩
            ⟨rfl, rfl⟩ hopened (Or.inl rfl)
      | some size =>
          by_cases hsend : os.send = false
          · simp only [if_pos hsend]
            exact hfail { s with fds := s.fds.acquire fd (.file c) } _ _ size takes.head
              ⟨rfl, rfl, rfl⟩ ⟨rfl, rfl⟩ hopened (Or.inr ⟨hsize, fd, rfl⟩)
          · simp only [if_neg hsend]
            exact .sending client' http hroom hreceive hparse fd size hopen hsize
              (by simpa using hsend) _ _ rfl rfl

/-- Every call of the read handler has one of these outcomes. -/
theorem httpServerRead_outcome :
    HttpServerReads allocOk os takes s c client (httpServerClientSelectRead allocOk os s c client)
      (httpServerReadIo os takes s.rootDir client) := by
  unfold httpServerClientSelectRead httpServerReadIo
  by_cases hroom : client.recvMax - client.recvLen ≤ 0
  · rw [if_pos hroom, if_pos hroom]
    exact .tooLong hroom
  rw [if_neg hroom, if_neg hroom]
  cases hreceive : client.receive os.recv with
  | none =>
      simp only
      by_cases hblock : os.recv = .wouldblock
      · rw [if_pos hblock]
        exact .idle hblock
      · rw [if_neg hblock]
        exact .eof
  | some client' =>
      simp only
      unfold httpServerParse httpServerParseIo
      by_cases hlow : client'.recvLen < -16
      · rw [if_pos hlow, if_pos hlow]
        exact .fault client' hroom hreceive (Or.inl hlow)
      rw [if_neg hlow, if_neg hlow]
      cases hparse : client'.parse with
      | none => exact .fault client' hroom hreceive (Or.inr hparse)
      | some r =>
          obtain ⟨http, i⟩ := r
          simp only
          by_cases hzero : i = 0
          · subst hzero
            rw [if_pos rfl, if_pos rfl]
            exact .more client' http hroom hreceive hparse
          rw [if_neg hzero, if_neg hzero]
          by_cases hneg : i < 0
          · rw [if_pos hneg, if_pos hneg]
            exact .bad client' http i hneg hroom hreceive hparse
          · rw [if_neg hneg, if_neg hneg]
            have hone := (httpHeaderParse_result hparse).2 (by omega)
            exact .respond hroom hreceive (hone ▸ hparse)

/-- The file that is opened in a call. -/
theorem HttpServerReads.opened {s' : HttpServer} {io : HttpServerIo}
    (h : HttpServerReads allocOk os takes s c client s' io) {fd : Nat} {path : List UInt8}
    (hio : io.opened = some (fd, path)) : os.openFile path = some fd := by
  cases h with
  | idle => cases hio
  | eof => cases hio
  | fault => cases hio
  | tooLong => cases hio
  | more => cases hio
  | bad => cases hio
  | failed _ _ _ _ _ _ _ _ _ _ _ _ hopened _ => exact hopened fd path hio
  | sending _ _ _ _ _ _ _ hopened =>
      cases hio
      exact hopened

end Outcome

end Bklib
