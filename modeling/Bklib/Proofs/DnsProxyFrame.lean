import Bklib.Proofs.DnsProxy

/-!
# `Bklib.Proofs.DnsProxyFrame`: what the proxy leaves alone

A datagram that is sent on is the one that was received, but for the two bytes of its id, in every run
(`dnsProxy_changesOnlyId`): the header is taken apart and put together again, and every flag and count
survives that.

A call of `dns_proxy_forward` leaves the requests of other clients alone, unless all its draws are in
use. Then the node that it frees is not its own but the one that the last draw found
(`dnsProxyForward_leavesOthers_iff`).
-/

set_option autoImplicit false

namespace Bklib

open Bklib.Lib

/-! ### Datagrams -/

/-- What `recvfrom` stores of a datagram. -/
def dnsProxyReceived (datagram : List UInt8) : List UInt8 := datagram.take dnsProxyRecvMax

/-- What is sent is what was received, with other bytes for the id. -/
structure OnlyIdChanged (received sent id : List UInt8) : Prop where
  header : 12 ≤ received.length
  length : sent.length = received.length
  id : sent.take 2 = id
  rest : sent.drop 2 = received.drop 2

/-- A datagram with another id in front of its rest is changed in the id alone. -/
theorem onlyIdChanged_append {received id : List UInt8} (hlen : 12 ≤ received.length)
    (hid : id.length = 2) : OnlyIdChanged received (id ++ received.drop 2) id where
  header := hlen
  length := by
    rw [List.length_append, List.length_drop, hid]
    omega
  id := by rw [← hid, List.take_left]
  rest := by rw [← hid, List.drop_left]

/-- The invariant of every run. -/
theorem dnsProxyOwned_run (addrOf : Nat → Nat) (sock : Int) (forwardAddrs : List SockaddrIn)
    (events : List DnsProxyEvent) :
    ∃ reqs, DnsProxyOwned
      (run (DnsProxyRun.step addrOf) (dnsProxyStart sock forwardAddrs) events) reqs := by
  refine run_inv (I := fun s => ∃ reqs, DnsProxyOwned s reqs) (fun s e h => ?_)
    ⟨_, (dnsProxyInv_start sock forwardAddrs).toDnsProxyOwned⟩ events
  obtain ⟨reqs, h⟩ := h
  obtain ⟨reqs', hstep⟩ := dnsProxyStep_spec addrOf h.table e
  exact ⟨reqs', h.step hstep⟩

/-- A request that is sent on has the id that it was saved under. -/
theorem dnsProxyForward_sent (addrOf : Nat → Nat) {proxy : DnsProxy}
    {reqs : UInt64 → Option DnsProxyReq} (h : DnsProxyTable proxy.reqHashId reqs)
    (mem : Int → UInt8) (buf : Int) (bytes : List UInt8) (origSock : Int) (origAddr : SockaddrIn)
    (now : Int) (rand : Nat → UInt16) (sendto : Nat → Int) {sent : UdpSend}
    (hsent : sent ∈
      (dnsProxyForward addrOf proxy mem buf bytes origSock origAddr now rand sendto).sent) :
    ∃ req, (dnsProxyForward addrOf proxy mem buf bytes origSock origAddr now rand sendto).saved
        = some req ∧
      OnlyIdChanged bytes sent.bytes (bytes16 (htons (UInt16.ofInt req.id).toNat)) := by
  have hspec := dnsProxyForward_spec addrOf h mem buf bytes origSock origAddr now rand sendto
  generalize dnsProxyForward addrOf proxy mem buf bytes origSock origAddr now rand sendto = f
    at hspec hsent ⊢
  cases hspec with
  | short _ _ _ hnone _ =>
      rw [hnone] at hsent
      exact absurd hsent List.not_mem_nil
  | used _ _ _ _ hnone _ =>
      rw [hnone] at hsent
      exact absurd hsent List.not_mem_nil
  | saved j origId req hlen hfirst hid hsaved hreq hall htable =>
      refine ⟨req, hsaved, ?_⟩
      have hidj : UInt16.ofInt req.id = rand j := by rw [hreq]; exact ofInt_toNat (rand j)
      rw [hall sent hsent, hidj]
      exact onlyIdChanged_append hlen rfl

/-- A datagram without a header is dropped, and the proxy is as it was. -/
theorem dnsProxySelectRecv_short {proxy : DnsProxy} (mem : Int → UInt8) (buf : Int)
    {datagram : List UInt8} (hlen : (dnsProxyReceived datagram).length < 12) :
    dnsProxySelectRecv proxy mem buf (some datagram) = (proxy, none) := by
  simp only [dnsProxySelectRecv]
  unfold dnsProxyReceived at hlen
  split
  · rfl
  · rw [dnsInit_short mem buf hlen, if_pos (by decide)]

/-- In every run, a request that is forwarded is sent as it was received but for its id, which is that
of the proxy, and a reply that is relayed is sent as it was received but for its id, which is that of
the client whose request is pending under the id that it came with. -/
theorem dnsProxy_changesOnlyId (addrOf : Nat → Nat) (sock : Int) (forwardAddrs : List SockaddrIn)
    (events : List DnsProxyEvent) :
    let s := run (DnsProxyRun.step addrOf) (dnsProxyStart sock forwardAddrs) events
    (∀ mem buf bytes origSock origAddr now rand sendto,
      let f := dnsProxyForward addrOf s.proxy mem buf bytes origSock origAddr now rand sendto
      ∀ sent ∈ f.sent, ∃ req, f.saved = some req ∧
        OnlyIdChanged bytes sent.bytes (bytes16 (htons (UInt16.ofInt req.id).toNat))) ∧
    ∀ mem buf datagram relay,
      (dnsProxySelectRecv s.proxy mem buf (some datagram)).2 = some relay →
      ∃ query, s.Pending query ∧ datagram.take 2 = bytes16 (htons query.id.toNat) ∧
        OnlyIdChanged (dnsProxyReceived datagram) relay.bytes (query.bytes.take 2) := by
  intro s
  obtain ⟨reqs, h⟩ := dnsProxyOwned_run addrOf sock forwardAddrs events
  refine ⟨fun mem buf bytes origSock origAddr now rand sendto sent hsent =>
    dnsProxyForward_sent addrOf h.table mem buf bytes origSock origAddr now rand sendto hsent, ?_⟩
  intro mem buf datagram relay hrelay
  have hlen : 12 ≤ (dnsProxyReceived datagram).length := by
    by_contra hshort
    rw [dnsProxySelectRecv_short mem buf (Nat.not_le.mp hshort)] at hrelay
    exact absurd hrelay (by simp)
  have hlen' : 12 ≤ datagram.length := by
    rw [dnsProxyReceived, List.length_take] at hlen
    omega
  -- The first two bytes are an id in network order.
  obtain ⟨id, hid⟩ : ∃ id : UInt16, bytes16 (htons id.toNat) = datagram.take 2 := by
    obtain ⟨_, _, _, _, ⟨id, _, hid⟩, _⟩ := dnsReceived (fun _ => 0) 0 hlen'
    exact ⟨id, hid⟩
  obtain ⟨query, req, hpending, rfl, -, hfor, rfl⟩ := h.relay hid.symm hrelay
  refine ⟨query, hpending, hid.symm, ?_⟩
  rw [← hfor.origId]
  exact onlyIdChanged_append hlen rfl

/-- A request with id 100 goes to one server as 7, and the reply comes back as 100. -/
example :
    (dnsProxyForward id (dnsProxyNew 3 [⟨2, 53⟩]) (fun _ => 0) 1 (headerDatagram 100) 4 ⟨1, 1000⟩ 0
        (fun _ => 7) fun _ => 12).sent = [⟨3, ⟨2, 53⟩, headerDatagram 7⟩] ∧
      (dnsProxySelectRecv
        (run (DnsProxyRun.step id) (dnsProxyStart 3 [⟨2, 53⟩]) [headerRequest 100 1000 7]).proxy
        (fun _ => 0) 1 (some (headerDatagram 7))).2 = some ⟨4, ⟨1, 1000⟩, headerDatagram 100⟩ := by
  decide +kernel

/-! ### Requests of other clients -/

/-- An error leaves the requests that are pending as they were, and otherwise there is one more, under
an id that was free. -/
structure LeavesOthers (reqs : UInt64 → Option DnsProxyReq) (f : DnsProxyForward) : Prop where
  failed : f.err ≠ 0 → DnsProxyTable f.proxy.reqHashId reqs
  succeeded : f.err = 0 → ∃ req, f.saved = some req ∧ reqs (dnsProxyKey req.id) = none ∧
    DnsProxyTable f.proxy.reqHashId (Function.update reqs (dnsProxyKey req.id) (some req))

/-- Exactly when a message with a header comes and every draw is the id of a pending request, another
client loses its request: that of the last draw. -/
theorem dnsProxyForward_leavesOthers_iff (addrOf : Nat → Nat) {proxy : DnsProxy}
    {reqs : UInt64 → Option DnsProxyReq} (h : DnsProxyTable proxy.reqHashId reqs)
    (mem : Int → UInt8) (buf : Int) (bytes : List UInt8) (origSock : Int) (origAddr : SockaddrIn)
    (now : Int) (rand : Nat → UInt16) (sendto : Nat → Int) :
    LeavesOthers reqs
        (dnsProxyForward addrOf proxy mem buf bytes origSock origAddr now rand sendto) ↔
      ¬(12 ≤ bytes.length ∧ ∀ k, k < 1000 → reqs (dnsProxyKey (rand k).toNat) ≠ none) := by
  have hspec := dnsProxyForward_spec addrOf h mem buf bytes origSock origAddr now rand sendto
  generalize dnsProxyForward addrOf proxy mem buf bytes origSock origAddr now rand sendto = f at hspec ⊢
  cases hspec with
  | short hlen herr _ _ htable =>
      refine iff_of_true ⟨fun _ => htable, fun hok => ?_⟩ fun hused => ?_
      · rw [herr] at hok
        exact absurd hok (by decide)
      · exact absurd hused.1 (Nat.not_le.mpr hlen)
  | used hlen hall herr _ _ htable =>
      refine iff_of_false (fun hleaves => ?_) (not_not.mpr ⟨hlen, hall⟩)
      have hsame := htable.unique (hleaves.failed (by rw [herr]; decide))
      have hlast := congrFun hsame (dnsProxyKey (rand 999).toNat)
      rw [Function.update_self] at hlast
      exact hall 999 (by decide) hlast.symm
  | saved j origId req hlen hfirst _ hsaved hreq _ htable =>
      refine iff_of_true ?_ fun hused => hused.2 j hfirst.lt hfirst.free
      have hid : req.id = (rand j).toNat := by rw [hreq]
      rcases htable with ⟨herr, htable⟩ | ⟨herr, htable⟩
      · refine ⟨fun hfailed => absurd herr hfailed, fun _ => ⟨req, hsaved, ?_, ?_⟩⟩
        · rw [hid]
          exact hfirst.free
        · rw [hid]
          exact htable
      · refine ⟨fun _ => htable, fun hok => ?_⟩
        rw [herr] at hok
        exact absurd hok (by decide)

/-- The first request of a proxy. -/
theorem dnsProxyForward_leavesOthers_first :
    LeavesOthers (fun _ => none) (dnsProxyForward id (dnsProxyNew 3 [⟨2, 53⟩]) (fun _ => 0) 1
      (headerDatagram 100) 4 ⟨1, 1000⟩ 0 (fun _ => 7) fun _ => -1) :=
  (dnsProxyForward_leavesOthers_iff id (dnsProxyTable_new 3 [⟨2, 53⟩]) (fun _ => 0) 1
    (headerDatagram 100) 4 ⟨1, 1000⟩ 0 (fun _ => 7) fun _ => -1).mpr
    fun hused => hused.2 0 (by decide) rfl

/-- A client whose request has the only id that is drawn loses it to the next client. -/
theorem dnsProxyForward_drops :
    ¬∀ (addrOf : Nat → Nat) (proxy : DnsProxy) (reqs : UInt64 → Option DnsProxyReq),
      DnsProxyTable proxy.reqHashId reqs →
      ∀ (mem : Int → UInt8) (buf : Int) (bytes : List UInt8) (origSock : Int) (origAddr : SockaddrIn)
        (now : Int) (rand : Nat → UInt16) (sendto : Nat → Int),
        LeavesOthers reqs
          (dnsProxyForward addrOf proxy mem buf bytes origSock origAddr now rand sendto) := by
  intro hall
  obtain ⟨reqs, h⟩ := dnsProxyOwned_run id 3 [⟨2, 53⟩] [headerRequest 100 1000 7]
  generalize hs : run (DnsProxyRun.step id) (dnsProxyStart 3 [⟨2, 53⟩])
    [headerRequest 100 1000 7] = s at h
  have htaken : s.Taken 7 := by
    rw [← hs]
    exact ne_of_apply_ne Option.isSome (by decide +kernel)
  have hused := (h.taken_iff 7).mp htaken
  have hleaves := hall id s.proxy reqs h.table (fun _ => 0) 1 (headerDatagram 200) 4 ⟨1, 2000⟩ 0
    (fun _ => 7) fun _ => 12
  have hspec := dnsProxyForward_spec id h.table (fun _ => 0) 1 (headerDatagram 200) 4 ⟨1, 2000⟩ 0
    (fun _ => 7) fun _ => 12
  generalize dnsProxyForward id s.proxy (fun _ => 0) 1 (headerDatagram 200) 4 ⟨1, 2000⟩ 0
    (fun _ => 7) (fun _ => 12) = f at hleaves hspec
  cases hspec with
  | short hlen _ _ _ _ => exact absurd hlen (by decide)
  | used _ _ herr _ _ htable =>
      have hsame := htable.unique (hleaves.failed (by rw [herr]; decide))
      have hlast := congrFun hsame (dnsProxyKey (7 : UInt16).toNat)
      rw [Function.update_self] at hlast
      exact hused hlast.symm
  | saved j _ _ _ hfirst _ _ _ _ _ => exact absurd hfirst.free hused

end Bklib
