import Bklib.Lib.Run
import Bklib.Lib.Tags
import Bklib.Model.DnsProxy
import Bklib.Proofs.DnsQuery
import Bklib.Proofs.HashStores

/-!
# `Bklib.Proofs.DnsProxy`: who gets a reply

The proxy recognises a reply by its id alone and takes the id back with the first reply, while other
servers may still answer. A request that gets such an id next is handed their replies. When no id is
given out as long as replies under it are on their way, every reply that is relayed goes to the client
that asked, and bears the id that the client chose.

* `dnsProxyForward_spec`, `dnsProxySelectRecv_spec` and `dnsProxyPoll_spec` say what the functions do
  to the table of requests.
* `dnsProxy_routes`: runs in which every new id is free.
* `dnsProxy_routes_reused`: two servers, and an id that is drawn twice.
-/

set_option autoImplicit false

namespace Bklib

open Bklib.Lib

/-! ### The table of requests -/

/-- The finite map that the table stands for. -/
abbrev DnsProxyMap := KeyMap (keySetoid equivalence_keyEq_int) (Option DnsProxyReq)

/-- The table holds the request `reqs k` under each key `k`, and no other ones. -/
def DnsProxyTable (hash : HashT UInt64 DnsProxyReq) (reqs : UInt64 → Option DnsProxyReq) : Prop :=
  ∃ m : DnsProxyMap, hash.Models equivalence_keyEq_int m ∧ hash.mValSz ≠ 0 ∧
    ∀ k, m.get k = (reqs k).map fun req => (k, some req)

theorem dnsProxyTable_new (sock : Int) (forwardAddrs : List SockaddrIn) :
    DnsProxyTable (dnsProxyNew sock forwardAddrs).reqHashId fun _ => none :=
  ⟨KeyMap.empty, (models_hashInit equivalence_keyEq_int 0 dnsProxyReqSize 0).1,
    show dnsProxyReqSize ≠ 0 by decide, fun k => KeyMap.get_empty k⟩

section
variable {hash : HashT UInt64 DnsProxyReq} {reqs : UInt64 → Option DnsProxyReq}

/-- `hash_get` finds the request, and its node can be freed. -/
theorem DnsProxyTable.get (h : DnsProxyTable hash reqs) (key : UInt64) :
    ∃ s r, hashGet hash key = (s, r) ∧ DnsProxyTable s reqs ∧ r.bind s.readVal = reqs key ∧
      (r = none ↔ reqs key = none) ∧ ∀ ref, r = some ref → s.Fresh ref key := by
  have hstores : hash.Stores keyClass_int reqs := h
  obtain ⟨s, r, hs, hstores', hr⟩ := hstores.get key
  refine ⟨s, r, hs, hstores', ?_⟩
  rcases hr with ⟨rfl, hnone⟩ | ⟨ref, req, rfl, hread, hreq, hfresh⟩
  · exact ⟨hnone.symm, iff_of_true rfl hnone, by simp⟩
  · refine ⟨by rw [Option.bind_some, hread, hreq], by simp [hreq], fun ref' href => ?_⟩
    obtain rfl := Option.some.inj href
    exact hfresh

/-- The table has one set of requests. -/
theorem DnsProxyTable.unique (h : DnsProxyTable hash reqs) {reqs' : UInt64 → Option DnsProxyReq}
    (h' : DnsProxyTable hash reqs') : reqs = reqs' := by
  funext key
  obtain ⟨s, r, hget, -, hread, -⟩ := h.get key
  obtain ⟨s', r', hget', -, hread', -⟩ := h'.get key
  obtain ⟨rfl, rfl⟩ := Prod.mk.inj (hget.symm.trans hget')
  exact hread.symm.trans hread'

/-- A node that stands for a key is freed. -/
theorem DnsProxyTable.free_place (h : DnsProxyTable hash reqs) {ref : NodeRef}
    {x : HashNode UInt64 DnsProxyReq} {key : UInt64} (hx : hash.PlaceOf ref x)
    (hkey : hash.keyOf x = some key) :
    DnsProxyTable (hashFree hash (some ref)) (Function.update reqs key none) := by
  have hstores : hash.Stores keyClass_int reqs := h
  exact hstores.free_place hx hkey

/-- The node that `hash_get` or `hash_put` found is freed. -/
theorem DnsProxyTable.free (h : DnsProxyTable hash reqs) {ref : NodeRef} {key : UInt64}
    (href : hash.Fresh ref key) :
    DnsProxyTable (hashFree hash (some ref)) (Function.update reqs key none) := by
  obtain ⟨x, hx, hkey⟩ := href.place
  exact h.free_place hx hkey

/-- `hash_put` of a request. -/
theorem DnsProxyTable.put (addrOf : Nat → Nat) (h : DnsProxyTable hash reqs) (key : UInt64)
    (req : DnsProxyReq) :
    ∃ s ref, hashPut addrOf hash key (some req) = (s, some ref) ∧
      DnsProxyTable s (Function.update reqs key (some req)) ∧ s.Fresh ref key := by
  have hstores : hash.Stores keyClass_int reqs := h
  obtain ⟨s, ref, hs, -, hfresh, hstores'⟩ := hstores.put addrOf key req
  exact ⟨s, ref, hs, hstores', hfresh⟩

end

/-! ### Expiry -/

/-- The request is not over at `mstime`. -/
def DnsProxyReq.live (mstime : Int) (req : DnsProxyReq) : Bool := mstime ≤ req.expire

/-- Between two calls of `dns_proxy_foreach_expire`: the requests of the calls before are gone when
they are over. -/
def ExpireInv (reqs : UInt64 → Option DnsProxyReq) (mstime : Int)
    (seen : List (UInt64 × Option DnsProxyReq)) (hash : HashT UInt64 DnsProxyReq) (arg : Int) : Prop :=
  arg = mstime ∧ ∃ reqs', DnsProxyTable hash reqs' ∧
    ∀ k, reqs' k = reqs k ∧ k ∉ seen.map Prod.fst ∨ reqs' k = (reqs k).filter (·.live mstime)

/-- The callback changes its own node only. -/
theorem dnsProxyForeachExpire_spec {hash : HashT UInt64 DnsProxyReq}
    {reqs : UInt64 → Option DnsProxyReq} (h : DnsProxyTable hash reqs) {ref : NodeRef}
    {x : HashNode UInt64 DnsProxyReq} {key : UInt64} {req : DnsProxyReq} (mstime : Int)
    (hx : hash.PlaceOf ref x) (hkey : hash.keyOf x = some key)
    (hread : hash.readVal ref = some req) (hreq : reqs key = some req) :
    ∃ hash', dnsProxyForeachExpire hash ref mstime = (hash', mstime, 0) ∧ OwnNode hash ref hash' ∧
      DnsProxyTable hash' (Function.update reqs key ((reqs key).filter (·.live mstime))) := by
  obtain ⟨m, hmodels, -, -⟩ := id h
  have heq : Equivalence (keyEq hash.mHash hash.mCmp) := by
    rw [hmodels.hash_eq, hmodels.cmp_eq]
    exact equivalence_keyEq_int
  simp only [dnsProxyForeachExpire, hread, hreq, Option.filter_some]
  by_cases hover : mstime > req.expire
  · have hlive : req.live mstime = false := decide_eq_false (by omega)
    have htable := h.free_place hx hkey
    obtain ⟨m', hmodels', -, -⟩ := id htable
    refine ⟨hashFree hash (some ref), by rw [if_pos hover],
      ⟨hmodels'.wf, toHashConf_hashFree hash _, Or.inr ?_⟩, ?_⟩
    · exact (hashFree_place heq hmodels.wf hx hkey).1.trans
        (hashRemove_place heq hmodels.wf hx hkey)
    · rw [hlive]
      exact htable
  · have hlive : req.live mstime = true := decide_eq_true (by omega)
    refine ⟨hash, by rw [if_neg hover], ⟨hmodels.wf, rfl, Or.inl rfl⟩, ?_⟩
    rw [hlive, if_pos rfl, ← hreq, Function.update_eq_self]
    exact h

/-- The expiry frees the node it is called with and no other. -/
theorem visitsOwn_expire (reqs : UInt64 → Option DnsProxyReq) (mstime : Int) :
    VisitsOwn dnsProxyForeachExpire (ExpireInv reqs mstime) := by
  rintro seen t ref arg e ⟨rfl, reqs', htable, hreqs⟩ hwf ⟨x, hx, hentry⟩ hat
  obtain ⟨hconf, hcount, hview⟩ := t.patchAt_spec ref
  obtain ⟨m, hmodels, hval, hget⟩ := id htable
  obtain ⟨k, hkey, rfl⟩ := Option.map_eq_some_iff.mp hentry
  -- The entry of the node is the request of its key.
  have hmem : m.get k = some (k, t.valOf x) :=
    (hmodels.get_iff k _).mpr
      ⟨List.mem_filterMap.mpr ⟨x, hx.mem_nodes, hentry⟩, equivalence_keyEq_int.refl k⟩
  rw [hget k] at hmem
  obtain ⟨req, hreq, he⟩ := Option.map_eq_some_iff.mp hmem
  have hread : (t.patchAt ref).readVal ref = some req := by
    rw [HashT.readVal_of_entryAt hat, ← he]
  have hpatched : DnsProxyTable (t.patchAt ref) reqs' := by
    refine ⟨m, hmodels.congr (hmodels.wf.congr hconf hview hcount) hconf fun e' => ?_, hval, hget⟩
    rw [HashT.entries_congr hconf hview]
  obtain ⟨t', hcall, hown, htable'⟩ :=
    dnsProxyForeachExpire_spec hpatched arg (hx.congr hview) (by rw [hconf]; exact hkey) hread hreq
  refine ⟨t', arg, hcall, ⟨hown.wf, hown.conf.trans hconf, ?_⟩, rfl, _, htable', fun k' => ?_⟩
  · rw [← hview]
    exact hown.view
  · by_cases hk : k' = k
    · -- What the call leaves of a request does not depend on the calls before it.
      right
      rw [hk, Function.update_self]
      rcases hreqs k with ⟨hsame, -⟩ | hfilter
      · rw [hsame]
      · rw [hfilter, Option.filter_filter]
        simp
    · rw [Function.update_of_ne hk]
      rcases hreqs k' with ⟨hsame, hnot⟩ | hfilter
      · left
        refine ⟨hsame, ?_⟩
        rw [List.map_append, List.mem_append]
        rintro (hold | hnew)
        · exact hnot hold
        · exact hk (List.mem_singleton.mp hnew)
      · exact Or.inr hfilter

/-- `dns_proxy_poll` drops the requests that are over, or does nothing. -/
theorem dnsProxyPoll_spec {proxy : DnsProxy} {reqs : UInt64 → Option DnsProxyReq}
    (h : DnsProxyTable proxy.reqHashId reqs) (mstime : Int) :
    DnsProxyTable (dnsProxyPoll proxy mstime).1.reqHashId
      (if mstime < proxy.expire then reqs else fun k => (reqs k).filter (·.live mstime)) := by
  unfold dnsProxyPoll
  by_cases hearly : mstime < proxy.expire
  · simp only [hearly, if_true]
    exact h
  · have hstart : ExpireInv reqs mstime [] proxy.reqHashId mstime :=
      ⟨rfl, reqs, h, fun k => Or.inl ⟨rfl, List.not_mem_nil⟩⟩
    obtain ⟨m, hmodels, -, hget⟩ := id h
    obtain ⟨seen, hash', arg, hforeach, hperm, -, -, reqs', htable, hreqs⟩ :=
      hashForeach_visits (visitsOwn_expire reqs mstime) hstart hmodels.wf
    simp only [hearly, if_false, hforeach]
    have hall : reqs' = fun k => (reqs k).filter (·.live mstime) := by
      funext k
      rcases hreqs k with ⟨hsame, hnot⟩ | hfilter
      · -- A key that no call was for has no request.
        cases hreq : reqs k with
        | none => rw [hsame, hreq]; rfl
        | some req =>
            have hentry := ((hmodels.get_iff k (k, some req)).mp (by rw [hget k, hreq]; rfl)).1
            exact absurd (List.mem_map_of_mem (hperm.mem_iff.mpr hentry)) hnot
      · exact hfilter
    rw [← hall]
    exact htable

/-! ### Replies -/

/-- The key of a 16-bit id. -/
theorem dnsProxyKey_inj {v w : UInt16} :
    dnsProxyKey v.toNat = dnsProxyKey w.toNat ↔ v = w := by
  have hkey : ∀ u : UInt16, (dnsProxyKey u.toNat).toNat = u.toNat := by
    intro u
    have hu := u.toNat_lt
    simp [dnsProxyKey, UInt64.ofInt]
    omega
  constructor
  · intro h
    rw [← UInt16.toNat_inj, ← hkey v, ← hkey w, h]
  · rintro rfl
    rfl

/-- The bytes of a message that `dns_pack` has written its id to. -/
theorem bytes_dnsPack {dns : Dns} (h : dns.HasHeader) {mem : Int → UInt8} {bytes : List UInt8}
    (hmem : dns.mem = writeAt mem dns.buf bytes) (hbuflen : dns.buflen = bytes.length)
    (hlen : 2 ≤ bytes.length) :
    (dnsPack dns).1.bytes = bytes16 (htons (UInt16.ofInt dns.id).toNat) ++ bytes.drop 2 := by
  obtain ⟨hpacked, hbuf, hlen', -⟩ := dnsPack_header h
  rw [Dns.bytes, hpacked, hbuf, hlen', hbuflen, Int.toNat_natCast, hmem]
  exact readAt_writeAt_front mem dns.buf hlen

/-- A reply goes to the client of the request that has its id, with the id of this client, and the
request is over. Or there is no such request, or the reply is too short, and nothing is sent. -/
theorem dnsProxySelectRecv_spec {proxy : DnsProxy} {reqs : UInt64 → Option DnsProxyReq}
    (h : DnsProxyTable proxy.reqHashId reqs) (mem : Int → UInt8) (buf : Int) {bytes : List UInt8}
    {id : UInt16} (hid : bytes.take 2 = bytes16 (htons id.toNat)) :
    (∃ hash', DnsProxyTable hash' reqs ∧
      dnsProxySelectRecv proxy mem buf (some bytes) = ({ proxy with reqHashId := hash' }, none)) ∨
    ∃ hash' req, reqs (dnsProxyKey id.toNat) = some req ∧
      DnsProxyTable hash' (Function.update reqs (dnsProxyKey id.toNat) none) ∧
      dnsProxySelectRecv proxy mem buf (some bytes) = ({ proxy with reqHashId := hash' },
        some ⟨req.origSock, req.origAddr, bytes16 (htons (UInt16.ofInt req.origId).toNat) ++
          (bytes.take dnsProxyRecvMax).drop 2⟩) := by
  have hfront : (bytes.take dnsProxyRecvMax).take 2 = bytes.take 2 := by
    rw [List.take_take]
    rfl
  simp only [dnsProxySelectRecv]
  generalize bytes.take dnsProxyRecvMax = bytes' at hfront ⊢
  by_cases hempty : bytes' = []
  · exact Or.inl ⟨_, h, by rw [if_pos hempty]⟩
  · rw [if_neg hempty]
    by_cases hlen : bytes'.length < 12
    · rw [dnsInit_short mem buf hlen, if_pos (by decide)]
      exact Or.inl ⟨_, h, rfl⟩
    · obtain ⟨dns, hunpack, hinit, hheader, ⟨v, hv, hbytes⟩, hmem, hbuf, hbuflen, -, hptr⟩ :=
        dnsReceived mem buf (show 12 ≤ bytes'.length by omega)
      -- The id that is read is the one that the reply has.
      obtain rfl : v = id := bytes16_htons_inj (hbytes.trans (hfront.trans hid))
      obtain ⟨s, r, hget, htable, hread, hnone, hfresh⟩ := h.get (dnsProxyKey v.toNat)
      rw [hinit, if_neg (by decide)]
      simp only [hunpack]
      rw [if_neg (by decide), hv]
      simp only [hget]
      rw [hread]
      cases hreq : reqs (dnsProxyKey v.toNat) with
      | none => exact Or.inl ⟨s, htable, rfl⟩
      | some req =>
          cases r with
          | none => exact absurd (hnone.mp rfl) (by rw [hreq]; simp)
          | some ref =>
              obtain ⟨-, -, -, hpack⟩ := dnsPack_header (hheader.setId req.origId)
              have hmem' : ({ dns with id := req.origId } : Dns).mem = writeAt mem dns.buf bytes' := by
                rw [hbuf]
                exact hmem
              have hsent := bytes_dnsPack (hheader.setId req.origId) hmem' hbuflen (by omega)
              refine Or.inr ⟨_, req, rfl, htable.free (hfresh ref rfl), ?_⟩
              dsimp only
              rw [hpack, if_neg (by rw [hptr, hbuf]; omega), hsent]

/-! ### Requests -/

/-- The search for an id stops at the first draw that no request has, or at the last one. -/
theorem dnsProxyNewId_spec (rand : Nat → UInt16) {reqs : UInt64 → Option DnsProxyReq} (n : Nat) :
    ∀ (i : Nat) (hash : HashT UInt64 DnsProxyReq) (node : Option NodeRef),
      DnsProxyTable hash reqs →
      ∃ hash' node' id', dnsProxyNewId rand n i hash node = (hash', node', id') ∧
        DnsProxyTable hash' reqs ∧
        ((∃ j, i ≤ j ∧ j < i + n ∧ id' = some ((rand j).toNat : Int) ∧
            reqs (dnsProxyKey (rand j).toNat) = none ∧
            ∀ k, i ≤ k → k < j → reqs (dnsProxyKey (rand k).toNat) ≠ none) ∨
          id' = none ∧ (∀ k, i ≤ k → k < i + n → reqs (dnsProxyKey (rand k).toNat) ≠ none) ∧
            (n ≠ 0 → ∃ ref, node' = some ref ∧
              hash'.Fresh ref (dnsProxyKey (rand (i + n - 1)).toNat)) ∧
            (n = 0 → node' = node ∧ hash' = hash)) := by
  induction n with
  | zero =>
      intro i hash node h
      exact ⟨hash, node, none, rfl, h, Or.inr ⟨rfl, by omega, fun h0 => absurd rfl h0,
        fun _ => ⟨rfl, rfl⟩⟩⟩
  | succ n ih =>
      intro i hash node h
      obtain ⟨s, r, hget, htable, -, hnone, hfresh⟩ := h.get (dnsProxyKey (rand i).toNat)
      cases r with
      | none =>
          refine ⟨s, none, some ((rand i).toNat : Int), ?_, htable,
            Or.inl ⟨i, le_rfl, by omega, rfl, hnone.mp rfl, fun k h1 h2 => by omega⟩⟩
          simp only [dnsProxyNewId, hget]
      | some ref =>
          have hused : reqs (dnsProxyKey (rand i).toNat) ≠ none :=
            fun hfree => absurd (hnone.mpr hfree) (by simp)
          -- This draw is in use, and so are those of the rest of the search.
          have hcons : ∀ {j}, (∀ k, i + 1 ≤ k → k < j → reqs (dnsProxyKey (rand k).toNat) ≠ none) →
              ∀ k, i ≤ k → k < j → reqs (dnsProxyKey (rand k).toNat) ≠ none := by
            intro j hrest k h1 h2
            rcases Nat.eq_or_lt_of_le h1 with rfl | hlt
            · exact hused
            · exact hrest k hlt h2
          obtain ⟨hash', node', id', hrest, htable', hcases⟩ := ih (i + 1) s (some ref) htable
          refine ⟨hash', node', id', by simp only [dnsProxyNewId, hget, hrest], htable', ?_⟩
          rcases hcases with ⟨j, hij, hjn, hid, hfree, hbefore⟩ | ⟨hid, hall, hlast, hzero⟩
          · exact Or.inl ⟨j, by omega, by omega, hid, hfree, hcons hbefore⟩
          · refine Or.inr ⟨hid, hcons fun k h1 h2 => hall k h1 (by omega), fun _ => ?_, by omega⟩
            by_cases hn : n = 0
            · obtain ⟨rfl, rfl⟩ := hzero hn
              subst hn
              exact ⟨ref, rfl, hfresh ref rfl⟩
            · obtain ⟨ref', href, hfresh'⟩ := hlast hn
              rw [show i + 1 + n - 1 = i + (n + 1) - 1 by omega] at hfresh'
              exact ⟨ref', href, hfresh'⟩

/-- The first draw that no request has. -/
structure FirstFree (reqs : UInt64 → Option DnsProxyReq) (rand : Nat → UInt16) (j : Nat) : Prop where
  lt : j < 1000
  free : reqs (dnsProxyKey (rand j).toNat) = none
  used : ∀ k, k < j → reqs (dnsProxyKey (rand k).toNat) ≠ none

/-- What `dns_proxy_forward` leaves of the table: a message that is too short changes nothing; when all
draws are in use, the request of the last one is dropped; otherwise the request is saved under the
first free draw, and dropped again when the message cannot be packed. What is sent is the message with
the id of the proxy. -/
inductive ForwardSpec (reqs : UInt64 → Option DnsProxyReq) (bytes : List UInt8) (origSock : Int)
    (origAddr : SockaddrIn) (now : Int) (rand : Nat → UInt16) : DnsProxyForward → Prop where
  | short (f : DnsProxyForward) : bytes.length < 12 → f.err = -1 → f.saved = none → f.sent = [] →
      DnsProxyTable f.proxy.reqHashId reqs → ForwardSpec reqs bytes origSock origAddr now rand f
  | used (f : DnsProxyForward) : 12 ≤ bytes.length →
      (∀ k, k < 1000 → reqs (dnsProxyKey (rand k).toNat) ≠ none) → f.err = -1 → f.saved = none →
      f.sent = [] →
      DnsProxyTable f.proxy.reqHashId (Function.update reqs (dnsProxyKey (rand 999).toNat) none) →
      ForwardSpec reqs bytes origSock origAddr now rand f
  | saved (f : DnsProxyForward) (j : Nat) (origId : UInt16) (req : DnsProxyReq) :
      12 ≤ bytes.length → FirstFree reqs rand j → bytes16 (htons origId.toNat) = bytes.take 2 →
      f.saved = some req →
      req = ⟨(rand j).toNat, origId.toNat, origAddr, origSock, now + dnsProxyExpireReq⟩ →
      (∀ sent ∈ f.sent, sent.bytes = bytes16 (htons (rand j).toNat) ++ bytes.drop 2) →
      (f.err = 0 ∧ DnsProxyTable f.proxy.reqHashId
          (Function.update reqs (dnsProxyKey (rand j).toNat) (some req)) ∨
        f.err = -1 ∧ DnsProxyTable f.proxy.reqHashId reqs) →
      ForwardSpec reqs bytes origSock origAddr now rand f

/-- Every server is sent the same message. -/
theorem bytes_of_mem_dnsProxySendAll (sendto : Nat → Int) (sock : Int) (bytes : List UInt8)
    {addrs : List SockaddrIn} {sent : UdpSend}
    (h : sent ∈ dnsProxySendAll sendto sock bytes addrs) : sent.bytes = bytes := by
  induction addrs with
  | nil => exact absurd h List.not_mem_nil
  | cons addr addrs ih =>
      rw [dnsProxySendAll] at h
      split at h
      · exact absurd h List.not_mem_nil
      · rcases List.mem_cons.mp h with rfl | hrest
        · rfl
        · exact ih hrest

/-- What `dns_proxy_forward` does: a request under a drawn id and a copy to every server, or a table
left as it was. -/
theorem dnsProxyForward_spec (addrOf : Nat → Nat) {proxy : DnsProxy}
    {reqs : UInt64 → Option DnsProxyReq} (h : DnsProxyTable proxy.reqHashId reqs)
    (mem : Int → UInt8) (buf : Int) (bytes : List UInt8) (origSock : Int) (origAddr : SockaddrIn)
    (now : Int) (rand : Nat → UInt16) (sendto : Nat → Int) :
    ForwardSpec reqs bytes origSock origAddr now rand
      (dnsProxyForward addrOf proxy mem buf bytes origSock origAddr now rand sendto) := by
  unfold dnsProxyForward
  by_cases hlen : bytes.length < 12
  · simp only [dnsInit_short mem buf hlen]
    rw [if_pos (by decide)]
    exact .short _ hlen rfl rfl rfl h
  · obtain ⟨dns, hunpack, hinit, -, ⟨origId, hid, hbytes⟩, hmem, hbuf, hbuflen, -⟩ :=
      dnsReceived mem buf (show 12 ≤ bytes.length by omega)
    obtain ⟨dns', i, name, hcheck, hheader, hmem', hbuf', -, hbuflen', -⟩ :=
      dnsCheckQueryInA_header dns 1024
    obtain ⟨hash', node', id', hnewId, htable, hcases⟩ :=
      dnsProxyNewId_spec rand 1000 0 proxy.reqHashId none h
    simp only [hinit, hunpack, hcheck, hnewId]
    rw [if_neg (by decide), if_neg (by decide)]
    rcases hcases with ⟨j, -, hj, rfl, hfree, hbefore⟩ | ⟨rfl, hall, hlast, -⟩
    · have hfirst : FirstFree reqs rand j := ⟨by omega, hfree, fun k hk => hbefore k (by omega) hk⟩
      obtain ⟨s, ref, hput, htable', hfresh⟩ := htable.put addrOf (dnsProxyKey (rand j).toNat)
        ⟨(rand j).toNat, origId.toNat, origAddr, origSock, now + dnsProxyExpireReq⟩
      simp only [hid, hput]
      -- The check has left the message as it was, and `dns_pack` changes the id.
      have hmem₁ : ({ dns' with id := (rand j).toNat } : Dns).mem = writeAt mem dns'.buf bytes := by
        rw [hbuf', hbuf]
        exact hmem'.trans hmem
      have hpacked := bytes_dnsPack (hheader.setId (rand j).toNat) hmem₁ (hbuflen'.trans hbuflen)
        (by omega)
      rw [ofInt_toNat] at hpacked
      split
      · have hfreed : DnsProxyTable (hashFree s (some ref)) reqs := by
          have hupdate := htable'.free hfresh
          rwa [Function.update_idem, ← hfree, Function.update_eq_self] at hupdate
        exact .saved _ j origId _ (by omega) hfirst hbytes rfl rfl
          (fun _ hsent => absurd hsent List.not_mem_nil) (Or.inr ⟨rfl, hfreed⟩)
      · exact .saved _ j origId _ (by omega) hfirst hbytes rfl rfl
          (fun _ hsent => (bytes_of_mem_dnsProxySendAll _ _ _ hsent).trans hpacked)
          (Or.inl ⟨rfl, htable'⟩)
    · obtain ⟨ref, rfl, hfresh⟩ := hlast (by decide)
      exact .used _ (by omega) (fun k hk => hall k (by omega) (by omega)) rfl rfl rfl
        (htable.free hfresh)

/-! ### Runs -/

/-- A request that is pending has the id. -/
def DnsProxyRun.Taken (s : DnsProxyRun) (id : UInt16) : Prop :=
  (hashGet s.proxy.reqHashId (dnsProxyKey id.toNat)).2 ≠ none

/-- The request is pending: it is the one that its id was given to last, and the proxy has not dropped
it. -/
def DnsProxyRun.Pending (s : DnsProxyRun) (query : DnsProxyQuery) : Prop :=
  s.Taken query.id ∧ s.owner query.id = some query

/-- A reply that is relayed is the reply to a request that is pending. It goes to the client that sent
the request, and it is the answer of the server behind the id of the client. -/
def DnsProxyEvent.RoutesRight (s : DnsProxyRun) : DnsProxyEvent → Prop
  | .reply mem buf r answer => ∀ query, s.flight[r]? = some query → ∀ relay,
      (dnsProxySelectRecv s.proxy mem buf (some (query.reply answer))).2 = some relay →
      s.Pending query ∧ relay.sock = query.sock ∧ relay.addr = query.addr ∧
        relay.bytes = query.bytes.take 2 ++ answer.take (dnsProxyRecvMax - 2)
  | _ => True

/-- A request that is long enough gets the first draw that no pending request has. No reply under this
id is on its way. -/
def DnsProxyEvent.IdFree (s : DnsProxyRun) : DnsProxyEvent → Prop
  | .request _ _ bytes _ _ _ rand _ => 12 ≤ bytes.length → ∀ j, j < 1000 →
      (∀ k, k < j → s.Taken (rand k)) → ¬s.Taken (rand j) → ∀ query ∈ s.flight, query.id ≠ rand j
  | _ => True

/-- The request behind an id, when it is pending. -/
def DnsProxyRun.pendingAt (s : DnsProxyRun) (reqs : UInt64 → Option DnsProxyReq) (id : UInt16) :
    Option DnsProxyQuery :=
  (reqs (dnsProxyKey id.toNat)).bind fun _ => s.owner id

/-- What the table has under the id of a request that is pending. -/
structure DnsProxyReq.For (req : DnsProxyReq) (query : DnsProxyQuery) : Prop where
  id : req.id = query.id.toNat
  sock : req.origSock = query.sock
  addr : req.origAddr = query.addr
  origId : bytes16 (htons (UInt16.ofInt req.origId).toNat) = query.bytes.take 2

/-- What a step does: requests are dropped and a reply may arrive, or a request is saved under an id
that no pending request has. -/
inductive DnsProxyStep (s : DnsProxyRun) (reqs : UInt64 → Option DnsProxyReq) :
    DnsProxyEvent → DnsProxyRun → (UInt64 → Option DnsProxyReq) → Prop where
  | drop {e : DnsProxyEvent} {proxy : DnsProxy} {reqs' : UInt64 → Option DnsProxyReq}
      {flight : List DnsProxyQuery} (htable : DnsProxyTable proxy.reqHashId reqs')
      (hsub : ∀ k req, reqs' k = some req → reqs k = some req)
      (hflight : flight = s.flight ∨ ∃ r, flight = s.flight.eraseIdx r) :
      DnsProxyStep s reqs e { s with proxy, flight } reqs'
  | save {mem : Int → UInt8} {buf : Int} {bytes : List UInt8} {sock : Int} {addr : SockaddrIn}
      {now : Int} {rand : Nat → UInt16} {sendto : Nat → Int} {f : DnsProxyForward}
      {query : DnsProxyQuery} {j : Nat} {reqs' : UInt64 → Option DnsProxyReq}
      (htable : DnsProxyTable f.proxy.reqHashId reqs') (hlen : 12 ≤ bytes.length)
      (hfirst : FirstFree reqs rand j) (hid : query.id = rand j)
      (hold : ∀ id, id ≠ query.id → reqs' (dnsProxyKey id.toNat) = reqs (dnsProxyKey id.toNat))
      (hnew : ∀ req, reqs' (dnsProxyKey query.id.toNat) = some req → req.For query) :
      DnsProxyStep s reqs (.request mem buf bytes sock addr now rand sendto) (s.save f query) reqs'

/-- What holds in every run: the table has the requests that are pending. -/
structure DnsProxyOwned (s : DnsProxyRun) (reqs : UInt64 → Option DnsProxyReq) : Prop where
  table : DnsProxyTable s.proxy.reqHashId reqs
  own : ∀ id req, reqs (dnsProxyKey id.toNat) = some req →
    ∃ query, s.owner id = some query ∧ query.id = id ∧ req.For query

/-- The invariant when every new id is free: the replies that are on their way are those to the
requests that are pending. -/
structure DnsProxyInv (s : DnsProxyRun) (reqs : UInt64 → Option DnsProxyReq) : Prop
    extends DnsProxyOwned s reqs where
  matched : Matched DnsProxyQuery.id (s.pendingAt reqs) s.flight

theorem dnsProxyInv_start (sock : Int) (forwardAddrs : List SockaddrIn) :
    DnsProxyInv (dnsProxyStart sock forwardAddrs) fun _ => none where
  table := dnsProxyTable_new sock forwardAddrs
  own _ _ h := absurd h (by simp)
  matched := matched_nil _ _

/-- A request without one that is dropped. -/
theorem update_none_eq_some {reqs : UInt64 → Option DnsProxyReq} {key k : UInt64} {req : DnsProxyReq}
    (h : Function.update reqs key none k = some req) : reqs k = some req := by
  by_cases hk : k = key
  · rw [hk, Function.update_self] at h
    exact absurd h (by simp)
  · rwa [Function.update_of_ne hk] at h

section
variable {s : DnsProxyRun} {reqs : UInt64 → Option DnsProxyReq}

/-- An id is taken exactly when a request has its key. -/
theorem DnsProxyOwned.taken_iff (h : DnsProxyOwned s reqs) (id : UInt16) :
    s.Taken id ↔ reqs (dnsProxyKey id.toNat) ≠ none := by
  obtain ⟨t, r, hget, -, -, hnone, -⟩ := h.table.get (dnsProxyKey id.toNat)
  unfold DnsProxyRun.Taken
  rw [hget]
  exact not_congr hnone

/-- A request, of any bytes. -/
theorem dnsProxyStep_request (addrOf : Nat → Nat) (h : DnsProxyTable s.proxy.reqHashId reqs)
    (mem : Int → UInt8) (buf : Int) (bytes : List UInt8) (sock : Int) (addr : SockaddrIn) (now : Int)
    (rand : Nat → UInt16) (sendto : Nat → Int) :
    ∃ reqs', DnsProxyStep s reqs (.request mem buf bytes sock addr now rand sendto)
      (s.step addrOf (.request mem buf bytes sock addr now rand sendto)) reqs' := by
  have hspec := dnsProxyForward_spec addrOf h mem buf bytes sock addr now rand sendto
  simp only [DnsProxyRun.step]
  generalize dnsProxyForward addrOf s.proxy mem buf bytes sock addr now rand sendto = f at hspec ⊢
  cases hspec with
  | short _ _ hsaved _ htable =>
      rw [hsaved]
      exact ⟨reqs, .drop htable (fun _ _ hk => hk) (Or.inl rfl)⟩
  | used _ _ _ hsaved _ htable =>
      rw [hsaved]
      exact ⟨_, .drop htable (fun _ _ hk => update_none_eq_some hk) (Or.inl rfl)⟩
  | saved j origId req hlen hfirst hid hsaved hreq _ htable =>
      have hidj : UInt16.ofInt req.id = rand j := by rw [hreq]; exact ofInt_toNat (rand j)
      have hfor : req.For ⟨s.count, rand j, bytes, sock, addr⟩ := by
        rw [hreq]
        exact ⟨rfl, rfl, rfl, by rw [ofInt_toNat]; exact hid⟩
      rw [hsaved]
      dsimp only
      rw [hidj]
      rcases htable with ⟨-, htable⟩ | ⟨-, htable⟩
      · refine ⟨_, .save htable hlen hfirst rfl (fun id hne => ?_) fun req' hreq' => ?_⟩
        · exact Function.update_of_ne (fun hkey => hne (dnsProxyKey_inj.mp hkey)) _ _
        · rw [Function.update_self] at hreq'
          obtain rfl := Option.some.inj hreq'
          exact hfor
      · -- The message cannot be packed, and the request is gone.
        refine ⟨_, .save htable hlen hfirst rfl (fun _ _ => rfl) fun req' hreq' => ?_⟩
        exact absurd (hfirst.free.symm.trans hreq') (by simp)

/-- What every event does. -/
theorem dnsProxyStep_spec (addrOf : Nat → Nat) (h : DnsProxyTable s.proxy.reqHashId reqs)
    (e : DnsProxyEvent) : ∃ reqs', DnsProxyStep s reqs e (s.step addrOf e) reqs' := by
  cases e with
  | request mem buf bytes sock addr now rand sendto =>
      exact dnsProxyStep_request addrOf h mem buf bytes sock addr now rand sendto
  | reply mem buf r answer =>
      cases hr : s.flight[r]? with
      | none =>
          simp only [DnsProxyRun.step, hr]
          exact ⟨reqs, .drop h (fun _ _ hk => hk) (Or.inl rfl)⟩
      | some query =>
          have hfront : (query.reply answer).take 2 = bytes16 (htons query.id.toNat) := rfl
          simp only [DnsProxyRun.step, hr]
          rcases dnsProxySelectRecv_spec h mem buf hfront with
            ⟨hash', htable, hcall⟩ | ⟨hash', req, hreq, htable, hcall⟩
          · rw [hcall]
            exact ⟨reqs, .drop htable (fun _ _ hk => hk) (Or.inr ⟨r, rfl⟩)⟩
          · rw [hcall]
            exact ⟨_, .drop htable (fun _ _ hk => update_none_eq_some hk) (Or.inr ⟨r, rfl⟩)⟩
  | poll mstime =>
      refine ⟨_, .drop (dnsProxyPoll_spec h mstime) (fun k req hk => ?_) (Or.inl rfl)⟩
      split at hk
      · exact hk
      · exact (Option.filter_eq_some_iff.mp hk).1

/-- The step lemma for every run. -/
theorem DnsProxyOwned.step {s' : DnsProxyRun} {reqs' : UInt64 → Option DnsProxyReq}
    {e : DnsProxyEvent} (h : DnsProxyOwned s reqs) (hstep : DnsProxyStep s reqs e s' reqs') :
    DnsProxyOwned s' reqs' := by
  cases hstep with
  | drop htable hsub _ => exact ⟨htable, fun id req hreq => h.own id req (hsub _ req hreq)⟩
  | save htable hlen hfirst hid hold hnew =>
      rename_i query _
      refine ⟨htable, fun id req hreq => ?_⟩
      show ∃ other, Function.update s.owner query.id (some query) id = some other ∧ _
      by_cases hquery : id = query.id
      · rw [hquery, Function.update_self]
        exact ⟨query, rfl, rfl, hnew req (hquery ▸ hreq)⟩
      · rw [Function.update_of_ne hquery]
        exact h.own id req (hold id hquery ▸ hreq)

/-- The step lemma for runs in which every new id is free. -/
theorem DnsProxyInv.step {s' : DnsProxyRun} {reqs' : UInt64 → Option DnsProxyReq}
    {e : DnsProxyEvent} (h : DnsProxyInv s reqs) (hfree : e.IdFree s)
    (hstep : DnsProxyStep s reqs e s' reqs') : DnsProxyInv s' reqs' := by
  refine ⟨h.toDnsProxyOwned.step hstep, ?_⟩
  cases hstep with
  | drop htable hsub hflight =>
      have hclosed : Matched DnsProxyQuery.id (s.pendingAt reqs') s.flight := by
        refine h.matched.close fun id query hquery => ?_
        obtain ⟨req, hreq, howner⟩ := Option.bind_eq_some_iff.mp hquery
        exact Option.bind_eq_some_iff.mpr ⟨req, hsub _ req hreq, howner⟩
      rcases hflight with rfl | ⟨r, rfl⟩
      · exact hclosed
      · exact hclosed.arrive r
  | save htable hlen hfirst hid hold hnew =>
      rename_i f query j
      -- The draw is the first one that no pending request has.
      have hnone := hfree hlen j hfirst.lt (fun k hk => (h.taken_iff _).mpr (hfirst.used k hk))
        (fun htaken => (h.taken_iff _).mp htaken hfirst.free)
      rw [← hid] at hnone
      have howner : (s.save f query).owner = Function.update s.owner query.id (some query) := rfl
      refine h.matched.open hnone (fun other hother => ?_) (fun id other hne hother => ?_) _
      · obtain ⟨req, -, hother⟩ := Option.bind_eq_some_iff.mp hother
        rw [howner, Function.update_self] at hother
        exact (Option.some.inj hother).symm
      · obtain ⟨req, hreq, hother⟩ := Option.bind_eq_some_iff.mp hother
        rw [howner, Function.update_of_ne hne] at hother
        exact Option.bind_eq_some_iff.mpr ⟨req, hold id hne ▸ hreq, hother⟩

/-- A datagram that is relayed has the id of a request that is pending. It goes to the client of this
request, with the id of the client in front. -/
theorem DnsProxyOwned.relay (h : DnsProxyOwned s reqs) {mem : Int → UInt8} {buf : Int}
    {datagram : List UInt8} {id : UInt16} (hid : datagram.take 2 = bytes16 (htons id.toNat))
    {relay : UdpSend} (hrelay : (dnsProxySelectRecv s.proxy mem buf (some datagram)).2 = some relay) :
    ∃ query req, s.Pending query ∧ query.id = id ∧ reqs (dnsProxyKey id.toNat) = some req ∧
      req.For query ∧ relay = ⟨req.origSock, req.origAddr,
        bytes16 (htons (UInt16.ofInt req.origId).toNat) ++ (datagram.take dnsProxyRecvMax).drop 2⟩ := by
  rcases dnsProxySelectRecv_spec h.table mem buf hid with
    ⟨hash', -, hcall⟩ | ⟨hash', req, hreq, -, hcall⟩
  · rw [hcall] at hrelay
    exact absurd hrelay (by simp)
  · obtain ⟨query, howner, rfl, hfor⟩ := h.own id req hreq
    rw [hcall] at hrelay
    have hpending : s.Pending query := ⟨(h.taken_iff _).mpr (by rw [hreq]; simp), howner⟩
    exact ⟨query, req, hpending, rfl, hreq, hfor, (Option.some.inj hrelay).symm⟩

/-- Under the invariant replies are relayed to the client that asked. -/
theorem DnsProxyInv.routesRight (h : DnsProxyInv s reqs) (e : DnsProxyEvent) : e.RoutesRight s := by
  cases e with
  | request mem buf bytes sock addr now rand sendto => trivial
  | poll mstime => trivial
  | reply mem buf r answer =>
      intro query hquery relay hrelay
      have hfront : (query.reply answer).take 2 = bytes16 (htons query.id.toNat) := rfl
      have hrest : ((query.reply answer).take dnsProxyRecvMax).drop 2
          = answer.take (dnsProxyRecvMax - 2) := rfl
      obtain ⟨owner, req, hpending, hid, hreq, hfor, rfl⟩ := h.toDnsProxyOwned.relay hfront hrelay
      -- The reply on its way is the reply to the request that is pending under its id.
      obtain rfl : owner = query :=
        h.matched query (List.mem_of_getElem? hquery) owner
          (Option.bind_eq_some_iff.mpr ⟨req, hreq, hid ▸ hpending.2⟩)
      refine ⟨hpending, hfor.sock, hfor.addr, ?_⟩
      dsimp only
      rw [hfor.origId, hrest]

/-- The step lemma. -/
theorem dnsProxy_step (addrOf : Nat → Nat) (e : DnsProxyEvent) (h : ∃ reqs, DnsProxyInv s reqs)
    (hfree : e.IdFree s) : e.RoutesRight s ∧ ∃ reqs, DnsProxyInv (s.step addrOf e) reqs := by
  obtain ⟨reqs, h⟩ := h
  obtain ⟨reqs', hstep⟩ := dnsProxyStep_spec addrOf h.table e
  exact ⟨h.routesRight e, reqs', h.step hfree hstep⟩

end

/-- In a run in which every new id is free of replies on their way, every reply that is relayed goes to
the client that asked, as long as its request is pending, under the id of this client. -/
theorem dnsProxy_routes (addrOf : Nat → Nat) (sock : Int) (forwardAddrs : List SockaddrIn)
    (events : List DnsProxyEvent)
    (hfree : AllSteps (fun s e => e.IdFree s) (DnsProxyRun.step addrOf)
      (dnsProxyStart sock forwardAddrs) events) :
    AllSteps (fun s e => e.RoutesRight s) (DnsProxyRun.step addrOf)
      (dnsProxyStart sock forwardAddrs) events :=
  allSteps_of_inv (I := fun s => ∃ reqs, DnsProxyInv s reqs)
    (fun _ e h hp => dnsProxy_step addrOf e h hp) ⟨_, dnsProxyInv_start sock forwardAddrs⟩ hfree

/-- A message that is a header only, with an id. -/
def headerDatagram (id : UInt16) : List UInt8 := bytes16 (htons id.toNat) ++ List.replicate 10 0

/-- A client at a port sends a header, and the proxy draws `draw`. -/
def headerRequest (id port draw : UInt16) : DnsProxyEvent :=
  .request (fun _ => 0) 1 (headerDatagram id) 4 ⟨1, port⟩ 0 (fun _ => draw) fun _ => 12

/-- The reply at the front of the flight arrives. -/
def headerReply : DnsProxyEvent := .reply (fun _ => 0) 1 0 (List.replicate 10 0)

/-- Two servers, and a second request between their replies to the first one. -/
theorem dnsProxy_routes_fresh :
    AllSteps (fun s e => e.RoutesRight s) (DnsProxyRun.step id)
      (dnsProxyStart 3 [⟨2, 53⟩, ⟨5, 53⟩])
      [headerRequest 100 1000 7, headerReply, headerRequest 200 2000 8, headerReply, headerReply] :=
  dnsProxy_routes id 3 [⟨2, 53⟩, ⟨5, 53⟩] _ (by
    have hother : ∀ query ∈ (run (DnsProxyRun.step id) (dnsProxyStart 3 [⟨2, 53⟩, ⟨5, 53⟩])
        [headerRequest 100 1000 7, headerReply]).flight, query.id ≠ 8 := by decide +kernel
    exact ⟨fun _ _ _ _ _ query hquery => absurd hquery List.not_mem_nil, trivial,
      fun _ _ _ _ _ => hother, trivial, trivial, trivial⟩)

/-- When the second request gets the id of the first one, its client gets the second reply to the first
one. -/
theorem dnsProxy_routes_reused :
    ¬∀ (addrOf : Nat → Nat) (sock : Int) (forwardAddrs : List SockaddrIn)
      (events : List DnsProxyEvent),
      AllSteps (fun s e => e.RoutesRight s) (DnsProxyRun.step addrOf)
        (dnsProxyStart sock forwardAddrs) events := by
  intro hall
  have hrun := hall id 3 [⟨2, 53⟩, ⟨5, 53⟩]
    [headerRequest 100 1000 7, headerReply, headerRequest 200 2000 7, headerReply]
  have hroutes := hrun.2.2.2.1 ⟨0, 7, headerDatagram 100, 4, ⟨1, 1000⟩⟩ (by decide +kernel)
    ⟨4, ⟨1, 2000⟩, headerDatagram 200⟩ (by decide +kernel)
  exact absurd hroutes.2.2.1 (by decide)

end Bklib
