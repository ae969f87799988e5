import Bklib.Model.HttpServer
import Bklib.Proofs.Fdselect

/-!
# `Bklib.Proofs.HttpServerInv`: who owns which descriptor of `http_server`

`HttpServerClosesOwn` is what the server owes its process: freeing a client closes the socket of that
client and its file, each once, and nothing else. `HttpServerInv` says who holds what, and which
handler is registered for whom; it gives the property at once. Freeing a client keeps it when
`EndFreeOk` holds, and so do a new client, a file that is opened and the change from reading to writing.
-/

set_option autoImplicit false

namespace Bklib

open Lib

/-- Freeing a client closes its own socket and file, each once, and nothing else. -/
structure HttpServerClosesOwn (s : HttpServer) : Prop where
  own  : ∀ e ∈ s.fds.closed, e.2 = .sock e.1 ∨ e.2 = .file e.1
  once : (s.fds.closed.map Prod.snd).Nodup
  all  : ∀ (c : Nat) (client : HttpServerClient), s.clients[c]? = some client → client.server = false →
    ∀ d, s.fds.use d ≠ some (.sock c) ∧ s.fds.use d ≠ some (.file c)

/-! ### Registrations -/

section Registrations

variable (allocOk : Nat → Bool) {sel : Fdselect HttpServerFunc}

/-- What is registered behind `fdselect_set` was registered before, or is the new function. -/
theorem fdselectFunc_of_set (h : sel.Wf) (fd : Int) {ev : FdEvents} (hev : IsRw ev)
    (func : HttpServerFunc) :
    (fdselectSet allocOk sel fd ev (some func)).1.Wf ∧
    ∀ d ev' f, IsRw ev' →
      fdselectFunc (fdselectSet allocOk sel fd ev (some func)).1 d ev' = some f →
      (d = fd ∧ ev' = ev ∧ f = func) ∨ fdselectFunc sel d ev' = some f := by
  have haddr : eventsOf ev &&& fdselectADDRESS = 0 ∨ eventsOf ev &&& fdselectREAD ≠ 0 := by
    rcases hev with rfl | rfl <;> decide
  obtain ⟨sel', r, hset, hwf, hcases⟩ := fdselectFunc_set allocOk h fd ev (some func) haddr
  rw [hset]
  refine ⟨hwf, fun d ev' f hev' hf => ?_⟩
  rcases hcases with ⟨-, -, -, hsame⟩ | ⟨-, hnew⟩
  · rw [hsame] at hf
    exact Or.inr hf
  · rw [hnew d ev' hev'] at hf
    split at hf
    · rename_i hat
      refine Or.inl ⟨hat.1, ?_, (Option.some.inj hf).symm⟩
      have hbits := hat.2
      rcases hev with rfl | rfl <;> rcases hev' with rfl | rfl
      · rfl
      · exact absurd (by decide) hbits
      · exact absurd (by decide) hbits
      · rfl
    · exact Or.inr hf

/-- What is registered behind `fdselect_unset` was registered before, and not for what was unset. -/
theorem fdselectFunc_of_unset (h : sel.Wf) (fd : Int) {ev : FdEvents} (hev : IsRw ev) :
    (fdselectUnset allocOk sel fd ev).1.Wf ∧
    ∀ d ev' f, IsRw ev' → fdselectFunc (fdselectUnset allocOk sel fd ev).1 d ev' = some f →
      ¬(d = fd ∧ ev' = ev) ∧ fdselectFunc sel d ev' = some f := by
  obtain ⟨sel', r, hset, hwf, -, hfunc⟩ := fdselectFunc_unset allocOk h fd ev
    (by rcases hev with rfl | rfl <;> simp)
  rw [hset]
  refine ⟨hwf, fun d ev' f hev' hf => ?_⟩
  rw [hfunc d ev' hev'] at hf
  split at hf
  · cases hf
  · rename_i hnot
    refine ⟨fun hat => hnot ⟨hat.1, ?_⟩, hf⟩
    rw [hat.2]
    rcases hev with rfl | rfl <;> decide

end Registrations

/-! ### The invariant -/

/-- The two functions of a client are registered as they should be, except that the client `x` may
already have its file while it still is registered for reading. -/
structure HttpServerInv (x : Option Nat) (s : HttpServer) : Prop where
  wf     : s.sel.Wf
  clean  : s.fds.Clean
  closed : ∀ e ∈ s.fds.closed, (e.2 = .sock e.1 ∨ e.2 = .file e.1) ∧
    ∃ client : HttpServerClient, s.clients[e.1]? = some client ∧ client.server = false
  dead   : ∀ (c : Nat) (client : HttpServerClient), s.clients[c]? = some client →
    client.server = false → client = {}
  sock   : ∀ c d, s.fds.use d = some (.sock c) →
    ∃ client : HttpServerClient, s.clients[c]? = some client ∧ client.server = true ∧ client.sock = d
  file   : ∀ c d, s.fds.use d = some (.file c) →
    ∃ client : HttpServerClient, s.clients[c]? = some client ∧ client.server = true ∧ client.sendFd = d
  live   : ∀ (c : Nat) (client : HttpServerClient), s.clients[c]? = some client →
    client.server = true → 0 ≤ client.sock → s.fds.use client.sock = some (.sock c)
  reads  : ∀ d f, fdselectFunc s.sel d fdselectREAD = some f →
    f = .accept ∨ ∃ (c : Nat) (client : HttpServerClient), f = .read c ∧ s.clients[c]? = some client ∧
      (client.server = true → client.sock = d ∧
        (x ≠ some c → client.sendFd = 0 ∧ ∀ d', s.fds.use d' ≠ some (.file c)))
  writes : ∀ d f, fdselectFunc s.sel d fdselectWRITE = some f →
    ∃ (c : Nat) (client : HttpServerClient), f = .write c ∧ s.clients[c]? = some client ∧
      (client.server = true → x ≠ some c → s.fds.use client.sendFd = some (.file c))

/-- The invariant says that only own descriptors are closed. -/
theorem HttpServerInv.closesOwn {s : HttpServer} (h : HttpServerInv none s) :
    HttpServerClosesOwn s where
  own e he := (h.closed e he).1
  once := h.clean.once
  all c client hc hdead d := by
    constructor
    · intro hd
      obtain ⟨client', hc', hlive, -⟩ := h.sock c d hd
      rw [hc] at hc'
      cases hc'
      rw [hdead] at hlive
      cases hlive
    · intro hd
      obtain ⟨client', hc', hlive, -⟩ := h.file c d hd
      rw [hc] at hc'
      cases hc'
      rw [hdead] at hlive
      cases hlive

/-- The end of the process changes nothing. -/
theorem HttpServerInv.fault {x : Option Nat} {s : HttpServer} (h : HttpServerInv x s) :
    HttpServerInv x { s with fault := true } :=
  ⟨h.wf, h.clean, h.closed, h.dead, h.sock, h.file, h.live, h.reads, h.writes⟩

/-- A client that may have its file while it still is registered for reading. -/
theorem HttpServerInv.exempt {s : HttpServer} (h : HttpServerInv none s) (c : Nat) :
    HttpServerInv (some c) s where
  wf := h.wf
  clean := h.clean
  closed := h.closed
  dead := h.dead
  sock := h.sock
  file := h.file
  live := h.live
  reads d f hf := by
    rcases h.reads d f hf with hacc | ⟨c', client, hread, hc', hclient⟩
    · exact Or.inl hacc
    · exact Or.inr ⟨c', client, hread, hc', fun hlive =>
        ⟨(hclient hlive).1, fun _ => (hclient hlive).2 (by simp)⟩⟩
  writes d f hf := by
    obtain ⟨c', client, hwrite, hc', hclient⟩ := h.writes d f hf
    exact ⟨c', client, hwrite, hc', fun hlive _ => hclient hlive (by simp)⟩

/-! ### Freeing a client -/

section Records

variable {α : Type} {l : List α} {i j : Nat} {x y : α}

/-- What stands in a list where one element was replaced. -/
theorem getElem?_of_set (h : (l.set i x)[j]? = some y) :
    (j ≠ i ∧ l[j]? = some y) ∨ (j = i ∧ y = x) := by
  rw [List.getElem?_set] at h
  split at h
  · rename_i heq
    split at h
    · exact Or.inr ⟨heq.symm, (Option.some.inj h).symm⟩
    · cases h
  · rename_i hne
    exact Or.inl ⟨Ne.symm hne, h⟩

/-- An element after one of them is set. -/
theorem getElem?_set_some (i : Nat) (x : α) (h : l[j]? = some y) :
    (l.set i x)[j]? = some (if j = i then x else y) := by
  have hlt := (List.getElem?_eq_some_iff.mp h).1
  by_cases heq : j = i
  · subst heq
    rw [if_pos rfl, List.getElem?_set_self hlt]
  · rw [if_neg heq, List.getElem?_set_ne (Ne.symm heq), h]

end Records

section Free

variable (allocOk : Nat → Bool) {s : HttpServer} {c : Nat} {client : HttpServerClient}

/-- The descriptors that `http_server_client_free` closes. -/
def HttpServerClient.closes (client : HttpServerClient) : List Int :=
  (if 0 ≤ client.sendFd then [client.sendFd] else []) ++
    (if client.sock ≠ 0 then [client.sock] else [])

/-- Freeing a client closes what it has open. -/
theorem httpServerClientFree_fds (s : HttpServer) (c : Nat) (hlive : client.server = true) :
    (httpServerClientFree allocOk s c client).fds = s.fds.closeAll c client.closes := by
  unfold httpServerClientFree HttpServerClient.closes
  rw [if_neg (by simp [hlive])]
  by_cases hfd : 0 ≤ client.sendFd <;> by_cases hsock : client.sock = 0 <;>
    simp only [hfd, hsock, ne_eq, not_true_eq_false, not_false_eq_true, if_true, if_false] <;> rfl

/-- Freeing a client clears its place and no other. -/
theorem httpServerClientFree_clients (s : HttpServer) (c : Nat) (hlive : client.server = true) :
    (httpServerClientFree allocOk s c client).clients = s.clients.set c {} := by
  unfold httpServerClientFree
  rw [if_neg (by simp [hlive])]
  by_cases hfd : 0 ≤ client.sendFd <;> by_cases hsock : client.sock = 0 <;>
    simp only [hfd, hsock, ne_eq, not_true_eq_false, not_false_eq_true, if_true, if_false]

/-- Freeing a client registers nothing. -/
theorem httpServerClientFree_sel (c : Nat) (client : HttpServerClient) (h : s.sel.Wf) :
    (httpServerClientFree allocOk s c client).sel.Wf ∧
    ∀ d ev f, IsRw ev → fdselectFunc (httpServerClientFree allocOk s c client).sel d ev = some f →
      fdselectFunc s.sel d ev = some f := by
  unfold httpServerClientFree
  by_cases hdead : client.server = false
  · rw [if_pos hdead]
    exact ⟨h, fun d ev f _ hf => hf⟩
  · rw [if_neg hdead]
    by_cases hsock : client.sock = 0
    · by_cases hfd : 0 ≤ client.sendFd <;>
        simp only [hfd, hsock, ne_eq, not_true_eq_false, if_true, if_false] <;>
        exact ⟨h, fun d ev f _ hf => hf⟩
    · have hw := fdselectFunc_of_unset allocOk h client.sock (Or.inr rfl)
      have hr := fdselectFunc_of_unset allocOk hw.1 client.sock (Or.inl rfl)
      by_cases hfd : 0 ≤ client.sendFd <;>
        simp only [hfd, hsock, ne_eq, not_false_eq_true, if_true, if_false] <;>
        exact ⟨hr.1, fun d ev f hev hf => (hw.2 d ev f hev (hr.2 d ev f hev hf).2).2⟩

/-- What `http_server_client_free` closes is free or its own, and its socket is among it. -/
structure EndFreeOk (s : HttpServer) (c : Nat) (client : HttpServerClient) : Prop where
  file : 0 ≤ client.sendFd → s.fds.use client.sendFd = none ∨
    s.fds.use client.sendFd = some (.sock c) ∨ s.fds.use client.sendFd = some (.file c)
  sock : client.sock = 0 → client.sendFd = 0

/-- Everything that is closed is free or the client's. -/
theorem EndFreeOk.own {x : Option Nat} (hfree : EndFreeOk s c client) (h : HttpServerInv x s)
    (hc : s.clients[c]? = some client) (hlive : client.server = true) {d : Int}
    (hd : d ∈ client.closes) :
    s.fds.use d = none ∨ s.fds.use d = some (.sock c) ∨ s.fds.use d = some (.file c) := by
  rcases List.mem_append.mp hd with hd | hd
  · split at hd
    · rename_i hpos
      rw [List.mem_singleton.mp hd]
      exact hfree.file hpos
    · cases hd
  · split at hd
    · rw [List.mem_singleton.mp hd]
      by_cases hpos : 0 ≤ client.sock
      · exact Or.inr (Or.inl (h.live c client hc hlive hpos))
      · exact Or.inl (h.clean.nonneg _ (by omega))
    · cases hd

/-- Everything that is the client's is closed. -/
theorem EndFreeOk.all {x : Option Nat} (hfree : EndFreeOk s c client) (h : HttpServerInv x s)
    (hc : s.clients[c]? = some client) {d : Int}
    (hd : s.fds.use d = some (.sock c) ∨ s.fds.use d = some (.file c)) : d ∈ client.closes := by
  have hpos : 0 ≤ d := by
    by_contra hneg
    rw [h.clean.nonneg d (by omega)] at hd
    simp at hd
  unfold HttpServerClient.closes
  rcases hd with hd | hd
  · obtain ⟨client', hc', -, hsock⟩ := h.sock c d hd
    rw [hc] at hc'
    cases hc'
    by_cases hzero : client.sock = 0
    · have hfd := hfree.sock hzero
      rw [hfd, if_pos (by decide)]
      simp [← hsock, hzero]
    · rw [if_pos hzero, hsock]
      exact List.mem_append_right _ (List.mem_singleton_self d)
  · obtain ⟨client', hc', -, hfd⟩ := h.file c d hd
    rw [hc] at hc'
    cases hc'
    rw [hfd, if_pos hpos]
    simp

/-- Freeing a client keeps the invariant. -/
theorem HttpServerInv.free (h : HttpServerInv (some c) s) (hc : s.clients[c]? = some client)
    (hlive : client.server = true) (hfree : EndFreeOk s c client) :
    HttpServerInv none (httpServerClientFree allocOk s c client) := by
  obtain ⟨hwf, hsel⟩ := httpServerClientFree_sel allocOk c client h.wf
  have hfds := httpServerClientFree_fds allocOk s c hlive
  have hclients := httpServerClientFree_clients allocOk s c hlive
  generalize httpServerClientFree allocOk s c client = s' at *
  have huse : ∀ {d u}, s'.fds.use d = some u → d ∉ client.closes ∧ s.fds.use d = some u := by
    intro d u hd
    rw [hfds, Descriptors.closeAll_use] at hd
    split at hd
    · cases hd
    · exact ⟨‹_›, hd⟩
  -- A descriptor of another client is not closed.
  have hkeep : ∀ {d u}, u ≠ .sock c → u ≠ .file c → s.fds.use d = some u →
      s'.fds.use d = some u := by
    intro d u hsock hfile hd
    rw [hfds, Descriptors.closeAll_use, if_neg, hd]
    intro hmem
    rcases hfree.own h hc hlive hmem with hnone | hs | hf
    · rw [hnone] at hd
      cases hd
    · exact hsock (Option.some.inj (hd.symm.trans hs))
    · exact hfile (Option.some.inj (hd.symm.trans hf))
  have hlen : c < s.clients.length := (List.getElem?_eq_some_iff.mp hc).1
  have hset : ∀ {c' : Nat} {client' : HttpServerClient}, s.clients[c']? = some client' →
      ∃ client'' : HttpServerClient, s'.clients[c']? = some client'' ∧
        (client''.server = true → client'' = client' ∧ c' ≠ c) := by
    intro c' client' hc'
    rw [hclients]
    refine ⟨_, getElem?_set_some c {} hc', fun hlive' => ?_⟩
    by_cases heq : c' = c
    · rw [if_pos heq] at hlive'
      cases hlive'
    · exact ⟨if_neg heq, heq⟩
  have hget : ∀ {c' : Nat} {client' : HttpServerClient}, s'.clients[c']? = some client' →
      client'.server = true → c' ≠ c ∧ s.clients[c']? = some client' := by
    intro c' client' hc' hlive'
    rw [hclients] at hc'
    rcases getElem?_of_set hc' with hc' | ⟨-, rfl⟩
    · exact hc'
    · cases hlive'
  constructor
  case wf => exact hwf
  case clean => exact hfds ▸ h.clean.closeAll client.closes
  case closed =>
    intro e he
    rw [hfds] at he
    rcases Descriptors.mem_closed_closeAll client.closes he with he | ⟨hk, d, hd, huse⟩
    · obtain ⟨hown, client', hc', hdead⟩ := h.closed e he
      obtain ⟨client'', hc'', hsame⟩ := hset hc'
      refine ⟨hown, client'', hc'', ?_⟩
      by_contra hne
      obtain ⟨rfl, -⟩ := hsame (by simpa using hne)
      exact hne hdead
    · rw [hk]
      refine ⟨?_, {}, by rw [hclients]; exact List.getElem?_set_self hlen, rfl⟩
      rcases hfree.own h hc hlive hd with hnone | hs | hf
      · rw [hnone] at huse
        cases huse
      · exact Or.inl (Option.some.inj (huse.symm.trans hs))
      · exact Or.inr (Option.some.inj (huse.symm.trans hf))
  case dead =>
    intro c' client' hc' hdead
    rw [hclients] at hc'
    rcases getElem?_of_set hc' with ⟨-, hc'⟩ | ⟨-, hzero⟩
    · exact h.dead c' client' hc' hdead
    · exact hzero
  case sock =>
    intro c' d hd
    obtain ⟨hnot, hd⟩ := huse hd
    obtain ⟨client', hc', hlive', hsock⟩ := h.sock c' d hd
    have hne : c' ≠ c := fun heq => hnot (hfree.all h hc (Or.inl (heq ▸ hd)))
    exact ⟨client', by rw [hclients, List.getElem?_set_ne (Ne.symm hne), hc'], hlive', hsock⟩
  case file =>
    intro c' d hd
    obtain ⟨hnot, hd⟩ := huse hd
    obtain ⟨client', hc', hlive', hfile⟩ := h.file c' d hd
    have hne : c' ≠ c := fun heq => hnot (hfree.all h hc (Or.inr (heq ▸ hd)))
    exact ⟨client', by rw [hclients, List.getElem?_set_ne (Ne.symm hne), hc'], hlive', hfile⟩
  case live =>
    intro c' client' hc' hlive' hpos
    obtain ⟨hne, hc'⟩ := hget hc' hlive'
    exact hkeep (by simpa using hne) (by simp) (h.live c' client' hc' hlive' hpos)
  case reads =>
    intro d f hf
    rcases h.reads d f (hsel d _ f (Or.inl rfl) hf) with hacc | ⟨c', client', hread, hc', hold⟩
    · exact Or.inl hacc
    · obtain ⟨client'', hc'', hsame⟩ := hset hc'
      refine Or.inr ⟨c', client'', hread, hc'', fun hlive' => ?_⟩
      obtain ⟨rfl, hne⟩ := hsame hlive'
      obtain ⟨hsock, hfresh⟩ := hold hlive'
      obtain ⟨hfd, hnofile⟩ := hfresh (by simpa using Ne.symm hne)
      exact ⟨hsock, fun _ => ⟨hfd, fun d' hd' => hnofile d' (huse hd').2⟩⟩
  case writes =>
    intro d f hf
    obtain ⟨c', client', hwrite, hc', hold⟩ := h.writes d f (hsel d _ f (Or.inr rfl) hf)
    obtain ⟨client'', hc'', hsame⟩ := hset hc'
    refine ⟨c', client'', hwrite, hc'', fun hlive' _ => ?_⟩
    obtain ⟨rfl, hne⟩ := hsame hlive'
    exact hkeep (by simp) (by simpa using hne) (hold hlive' (by simpa using Ne.symm hne))

/-- The record of a client is replaced. -/
def HttpServer.put (s : HttpServer) (c : Nat) (client : HttpServerClient) : HttpServer :=
  { s with clients := s.clients.set c client }

/-- What the record of a client held before it is freed does not matter. -/
theorem httpServerClientFree_put (s : HttpServer) (c : Nat) (client client' : HttpServerClient)
    (hlive : client.server = true) :
    httpServerClientFree allocOk (s.put c client') c client =
      httpServerClientFree allocOk s c client := by
  unfold httpServerClientFree
  have hserver : ¬client.server = false := by simp [hlive]
  simp only [if_neg hserver]
  by_cases hfd : 0 ≤ client.sendFd <;> by_cases hsock : client.sock = 0 <;>
    simp only [HttpServer.put, hfd, hsock, ne_eq, not_true_eq_false, not_false_eq_true, if_true,
      if_false, List.set_set]

/-- No descriptor is open for the file of a client. -/
def HttpServer.NoFile (s : HttpServer) (c : Nat) : Prop := ∀ d, s.fds.use d ≠ some (.file c)

/-- A record is replaced by one with the same descriptors, or with another `send_fd` while no file is
open for the client. -/
theorem HttpServerInv.put {x : Option Nat} (h : HttpServerInv x s) (hc : s.clients[c]? = some client)
    (hlive : client.server = true) {client' : HttpServerClient}
    (hserver : client'.server = client.server) (hsock : client'.sock = client.sock)
    (hfd : client'.sendFd = client.sendFd ∨ x = some c ∧ s.NoFile c) :
    HttpServerInv x (s.put c client') := by
  have hlen : c < s.clients.length := (List.getElem?_eq_some_iff.mp hc).1
  -- Where there was a record, there is one that says the same.
  have hset : ∀ {c' : Nat} {old : HttpServerClient}, s.clients[c']? = some old →
      ∃ new : HttpServerClient, (s.put c client').clients[c']? = some new ∧
        new.server = old.server ∧ new.sock = old.sock ∧
        (new.sendFd = old.sendFd ∨ x = some c' ∧ s.NoFile c') := by
    intro c' old hold
    refine ⟨_, getElem?_set_some c client' hold, ?_⟩
    by_cases heq : c' = c
    · subst heq
      rw [hc] at hold
      cases hold
      rw [if_pos rfl]
      exact ⟨hserver, hsock, hfd⟩
    · rw [if_neg heq]
      exact ⟨rfl, rfl, Or.inl rfl⟩
  have hget : ∀ {c' : Nat} {new : HttpServerClient}, (s.put c client').clients[c']? = some new →
      s.clients[c']? = some new ∨ c' = c ∧ new = client' := fun hnew =>
    (getElem?_of_set hnew).imp_left And.right
  constructor
  case wf => exact h.wf
  case clean => exact h.clean
  case closed =>
    intro e he
    obtain ⟨hown, old, hold, hdead⟩ := h.closed e he
    obtain ⟨new, hnew, hs, -⟩ := hset hold
    exact ⟨hown, new, hnew, hs.trans hdead⟩
  case dead =>
    intro c' new hnew hdead
    rcases hget hnew with hold | ⟨-, rfl⟩
    · exact h.dead c' new hold hdead
    · rw [hserver, hlive] at hdead
      cases hdead
  case sock =>
    intro c' d hd
    obtain ⟨old, hold, hlive', hsock'⟩ := h.sock c' d hd
    obtain ⟨new, hnew, hs, hk, -⟩ := hset hold
    exact ⟨new, hnew, hs.trans hlive', hk.trans hsock'⟩
  case file =>
    intro c' d hd
    obtain ⟨old, hold, hlive', hfile⟩ := h.file c' d hd
    obtain ⟨new, hnew, hs, -, hf⟩ := hset hold
    have hsame := hf.resolve_right fun hno => hno.2 d hd
    exact ⟨new, hnew, hs.trans hlive', hsame.trans hfile⟩
  case live =>
    intro c' new hnew hlive' hpos
    rcases hget hnew with hold | ⟨rfl, rfl⟩
    · exact h.live c' new hold hlive' hpos
    · rw [hsock] at hpos ⊢
      exact h.live c' client hc hlive hpos
  case reads =>
    intro d f hf
    rcases h.reads d f hf with hacc | ⟨c', old, hread, hold, hclient⟩
    · exact Or.inl hacc
    · obtain ⟨new, hnew, hs, hk, hfd'⟩ := hset hold
      refine Or.inr ⟨c', new, hread, hnew, fun hlive' => ?_⟩
      obtain ⟨hsock', hfresh⟩ := hclient (hs.symm.trans hlive')
      refine ⟨hk.trans hsock', fun hx => ?_⟩
      rw [hfd'.resolve_right fun hno => hx hno.1]
      exact hfresh hx
  case writes =>
    intro d f hf
    obtain ⟨c', old, hwrite, hold, hclient⟩ := h.writes d f hf
    obtain ⟨new, hnew, hs, -, hfd'⟩ := hset hold
    refine ⟨c', new, hwrite, hnew, fun hlive' hx => ?_⟩
    rw [hfd'.resolve_right fun hno => hx hno.1]
    exact hclient (hs.symm.trans hlive') hx

/-- A client whose record was brought up to date is freed. -/
theorem HttpServerInv.free_put (h : HttpServerInv (some c) (s.put c client))
    (hlen : c < s.clients.length) (hlive : client.server = true) (hfree : EndFreeOk s c client) :
    HttpServerInv none (httpServerClientFree allocOk s c client) := by
  rw [← httpServerClientFree_put allocOk s c client client hlive]
  exact h.free allocOk (List.getElem?_set_self hlen) hlive ⟨hfree.file, hfree.sock⟩

end Free

/-! ### Opening and sending -/

section Respond

variable (allocOk : Nat → Bool) {s : HttpServer} {c : Nat} {client : HttpServerClient}

/-- The file of a response gets a descriptor that was free. -/
theorem HttpServerInv.openFile (h : HttpServerInv (some c) s) (hc : s.clients[c]? = some client)
    (hlive : client.server = true) (hnofile : s.NoFile c) {fd : Nat} (hfd : client.sendFd = fd)
    (hnew : s.fds.use fd = none) :
    HttpServerInv (some c) { s with fds := s.fds.acquire fd (.file c) } := by
  have hkeep : ∀ {d u}, s.fds.use d = some u → (s.fds.acquire fd (.file c)).use d = some u := by
    intro d u hd
    rw [Descriptors.acquire_use, if_neg, hd]
    rintro rfl
    rw [hnew] at hd
    cases hd
  -- A descriptor that is open for something else was so before.
  have hold : ∀ {d u}, (s.fds.acquire fd (.file c)).use d = some u →
      (d = fd ∧ u = .file c) ∨ s.fds.use d = some u := by
    intro d u hd
    rw [Descriptors.acquire_use] at hd
    split at hd
    · exact Or.inl ⟨‹_›, (Option.some.inj hd).symm⟩
    · exact Or.inr hd
  constructor
  case wf => exact h.wf
  case clean =>
    refine h.clean.acquire (Int.natCast_nonneg fd) hnofile fun e he heq => ?_
    -- What was closed for a client was closed when the client was freed.
    obtain ⟨hown, dead, hdead, hserver⟩ := h.closed e he
    have hclient : c = e.1 := by
      rcases hown with hown | hown
      · cases heq.symm.trans hown
      · exact FdUse.file.inj (heq.symm.trans hown)
    rw [← hclient, hc] at hdead
    cases hdead
    rw [hlive] at hserver
    cases hserver
  case closed => exact h.closed
  case dead => exact h.dead
  case sock =>
    intro c' d hd
    rcases hold hd with ⟨-, hu⟩ | hd
    · cases hu
    · exact h.sock c' d hd
  case file =>
    intro c' d hd
    rcases hold hd with ⟨rfl, hu⟩ | hd
    · cases hu
      exact ⟨client, hc, hlive, hfd⟩
    · exact h.file c' d hd
  case live =>
    intro c' client' hc' hlive' hpos
    exact hkeep (h.live c' client' hc' hlive' hpos)
  case reads =>
    intro d f hf
    rcases h.reads d f hf with hacc | ⟨c', client', hread, hc', hclient⟩
    · exact Or.inl hacc
    · refine Or.inr ⟨c', client', hread, hc', fun hlive' => ⟨(hclient hlive').1, fun hx => ?_⟩⟩
      obtain ⟨hzero, hno⟩ := (hclient hlive').2 hx
      refine ⟨hzero, fun d' hd' => ?_⟩
      rcases hold hd' with ⟨-, hu⟩ | hd'
      · exact hx (congrArg some (FdUse.file.inj hu).symm)
      · exact hno d' hd'
  case writes =>
    intro d f hf
    obtain ⟨c', client', hwrite, hc', hclient⟩ := h.writes d f hf
    exact ⟨c', client', hwrite, hc', fun hlive' hx => hkeep (hclient hlive' hx)⟩

/-- A client with its file is no longer registered for reading, but for writing. -/
theorem HttpServerInv.send (h : HttpServerInv (some c) s) (hc : s.clients[c]? = some client)
    (hfile : s.fds.use client.sendFd = some (.file c)) {sel₁ sel₂ : Fdselect HttpServerFunc}
    (hsel₁ : (fdselectUnset allocOk s.sel client.sock fdselectREAD).1 = sel₁)
    (hsel₂ : (fdselectSet allocOk sel₁ client.sock fdselectWRITE (some (.write c))).1 = sel₂) :
    HttpServerInv none { s with sel := sel₂ } := by
  obtain ⟨hwf₁, hfunc₁⟩ := fdselectFunc_of_unset allocOk h.wf client.sock (Or.inl rfl)
  rw [hsel₁] at hwf₁ hfunc₁
  obtain ⟨hwf₂, hfunc₂⟩ := fdselectFunc_of_set allocOk hwf₁ client.sock (Or.inr rfl) (.write c)
  rw [hsel₂] at hwf₂ hfunc₂
  refine ⟨hwf₂, h.clean, h.closed, h.dead, h.sock, h.file, h.live, ?_, ?_⟩
  · intro d f hf
    -- only clients that were read from before, and this one not any more
    rcases hfunc₂ d _ f (Or.inl rfl) hf with ⟨-, hev, -⟩ | hf
    · exact absurd hev (by decide)
    obtain ⟨hat, hf⟩ := hfunc₁ d _ f (Or.inl rfl) hf
    rcases h.reads d f hf with hacc | ⟨c', old, hread, hold, hclient⟩
    · exact Or.inl hacc
    · refine Or.inr ⟨c', old, hread, hold, fun hlive => ?_⟩
      obtain ⟨hsock, hfresh⟩ := hclient hlive
      refine ⟨hsock, fun _ => hfresh fun hx => ?_⟩
      obtain rfl : c = c' := Option.some.inj hx
      rw [hc] at hold
      cases hold
      exact hat ⟨hsock.symm, rfl⟩
  · intro d f hf
    -- and this one is written to, which has its file
    rcases hfunc₂ d _ f (Or.inr rfl) hf with ⟨-, -, rfl⟩ | hf
    · exact ⟨c, client, rfl, hc, fun _ _ => hfile⟩
    obtain ⟨-, hf⟩ := hfunc₁ d _ f (Or.inr rfl) hf
    obtain ⟨c', old, hwrite, hold, hclient⟩ := h.writes d f hf
    refine ⟨c', old, hwrite, hold, fun hlive _ => ?_⟩
    by_cases heq : c' = c
    · subst heq
      rw [hc] at hold
      cases hold
      exact hfile
    · exact hclient hlive (by simpa using Ne.symm heq)

end Respond

/-! ### Accepting -/

section Accept

variable (allocOk : Nat → Bool) {s : HttpServer}

/-- A new client, whose socket is in the table of descriptors unless there is none. -/
theorem HttpServerInv.accepted {fds : Descriptors Nat FdUse} {sock : Int}
    (h : HttpServerInv none s) (hclean : fds.Clean) (hclosed : fds.closed = s.fds.closed)
    (huse : ∀ d u, fds.use d = some u ↔
      s.fds.use d = some u ∨ d = sock ∧ u = .sock s.clients.length ∧ 0 ≤ sock) :
    HttpServerInv none (httpServerAccepted allocOk { s with fds } sock) := by
  obtain ⟨hwf, hfunc⟩ := fdselectFunc_of_set allocOk h.wf sock (Or.inl rfl)
    (.read s.clients.length)
  have hkeep : ∀ {c : Nat} {client : HttpServerClient}, s.clients[c]? = some client →
      (s.clients ++ [httpServerClientInit sock])[c]? = some client := by
    intro c client hc
    rw [List.getElem?_append_left (List.getElem?_eq_some_iff.mp hc).1, hc]
  have hlast : (s.clients ++ [httpServerClientInit sock])[s.clients.length]?
      = some (httpServerClientInit sock) := by simp
  -- a client is an old one, or the new one at the end
  have hget : ∀ {c : Nat} {client : HttpServerClient},
      (s.clients ++ [httpServerClientInit sock])[c]? = some client →
      s.clients[c]? = some client ∨ c = s.clients.length ∧ client = httpServerClientInit sock := by
    intro c client hc
    rw [List.getElem?_append] at hc
    split at hc
    · exact Or.inl hc
    · rename_i hlt
      obtain ⟨hle, hval⟩ := List.getElem?_eq_some_iff.mp hc
      rw [List.length_singleton] at hle
      exact Or.inr ⟨by omega, by rw [← hval, List.getElem_singleton]⟩
  have hnofile : ∀ d, s.fds.use d ≠ some (.file s.clients.length) := by
    intro d hd
    obtain ⟨client, hc, -, -⟩ := h.file _ d hd
    exact absurd (List.getElem?_eq_some_iff.mp hc).1 (Nat.lt_irrefl _)
  constructor
  case wf => exact hwf
  case clean => exact hclean
  case closed =>
    intro e he
    obtain ⟨hown, client, hc, hdead⟩ := h.closed e (hclosed ▸ he)
    exact ⟨hown, client, hkeep hc, hdead⟩
  case dead =>
    intro c client hc hdead
    rcases hget hc with hc | ⟨-, rfl⟩
    · exact h.dead c client hc hdead
    · cases hdead
  case sock =>
    intro c d hd
    rcases (huse d _).mp hd with hd | ⟨rfl, hu, -⟩
    · obtain ⟨client, hc, hlive, hsock⟩ := h.sock c d hd
      exact ⟨client, hkeep hc, hlive, hsock⟩
    · cases hu
      exact ⟨_, hlast, rfl, rfl⟩
  case file =>
    intro c d hd
    rcases (huse d _).mp hd with hd | ⟨-, hu, -⟩
    · obtain ⟨client, hc, hlive, hfile⟩ := h.file c d hd
      exact ⟨client, hkeep hc, hlive, hfile⟩
    · cases hu
  case live =>
    intro c client hc hlive hpos
    rcases hget hc with hc | ⟨rfl, rfl⟩
    · exact (huse _ _).mpr (Or.inl (h.live c client hc hlive hpos))
    · exact (huse _ _).mpr (Or.inr ⟨rfl, rfl, hpos⟩)
  case reads =>
    intro d f hf
    rcases hfunc d _ f (Or.inl rfl) hf with ⟨rfl, -, rfl⟩ | hf
    · refine Or.inr ⟨_, _, rfl, hlast, fun _ => ⟨rfl, fun _ => ⟨rfl, fun d' hd' => ?_⟩⟩⟩
      rcases (huse d' _).mp hd' with hd' | ⟨-, hu, -⟩
      · exact hnofile d' hd'
      · cases hu
    · rcases h.reads d f hf with hacc | ⟨c, client, hread, hc, hclient⟩
      · exact Or.inl hacc
      · refine Or.inr ⟨c, client, hread, hkeep hc, fun hlive => ?_⟩
        obtain ⟨hsock, hfresh⟩ := hclient hlive
        refine ⟨hsock, fun hx => ⟨(hfresh hx).1, fun d' hd' => ?_⟩⟩
        rcases (huse d' _).mp hd' with hd' | ⟨-, hu, -⟩
        · exact (hfresh hx).2 d' hd'
        · cases hu
  case writes =>
    intro d f hf
    rcases hfunc d _ f (Or.inr rfl) hf with ⟨-, hev, -⟩ | hf
    · exact absurd hev (by decide)
    · obtain ⟨c, client, hwrite, hc, hclient⟩ := h.writes d f hf
      exact ⟨c, client, hwrite, hkeep hc, fun hlive hx =>
        (huse _ _).mpr (Or.inl (hclient hlive hx))⟩

/-- The results of `accept` and `open` are descriptors that are free. -/
structure HttpServerOs.Fresh (os : HttpServerOs) (s : HttpServer) : Prop where
  accept   : ∀ fd, os.accept = .sock fd → s.fds.use fd = none
  openFile : ∀ path fd, os.openFile path = some fd → s.fds.use fd = none

/-- `http_server_select_accept` keeps the invariant. -/
theorem HttpServerInv.selectAccept {os : HttpServerOs} (h : HttpServerInv none s)
    (hfresh : os.Fresh s) : HttpServerInv none (httpServerSelectAccept allocOk os s) := by
  unfold httpServerSelectAccept
  cases hacc : os.accept with
  | error => exact h
  | wouldblock =>
      exact h.accepted allocOk h.clean rfl fun d u =>
        ⟨Or.inl, fun hu => hu.resolve_right fun hnew => absurd hnew.2.2 (by decide)⟩
  | sock fd =>
      have hfree := hfresh.accept fd hacc
      have hnew : ∀ d, s.fds.use d ≠ some (.sock s.clients.length) := by
        intro d hd
        obtain ⟨client, hc, -, -⟩ := h.sock _ d hd
        exact absurd (List.getElem?_eq_some_iff.mp hc).1 (Nat.lt_irrefl _)
      refine h.accepted allocOk (h.clean.acquire (Int.natCast_nonneg fd) hnew fun e he heq => ?_) rfl
        fun d u => ?_
      · obtain ⟨hown, client, hc, -⟩ := h.closed e he
        have hlt := (List.getElem?_eq_some_iff.mp hc).1
        rw [heq] at hown
        rcases hown with hown | hown
        · exact absurd (FdUse.sock.inj hown).symm (Nat.ne_of_lt hlt)
        · cases hown
      · rw [Descriptors.acquire_use]
        split
        · rename_i hat
          rw [hat, hfree, Option.some.injEq]
          simp [eq_comm]
        · rename_i hat
          simp [hat]

end Accept

end Bklib
