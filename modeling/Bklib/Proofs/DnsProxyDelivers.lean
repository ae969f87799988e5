import Bklib.Proofs.DnsProxyFrame

/-!
# `Bklib.Proofs.DnsProxyDelivers`: when a reply still finds its client

A request is pending from the call that forwards it until a datagram with its id is relayed, a poll
finds it over, or a client for whom every draw was taken pushes it out (`DnsProxyArrival.Keeps`).
Nothing else in a run touches it, and once it is gone nothing that arrives brings it back, so it is
pending after exactly the runs that keep it at every step (`dnsProxyAwaits_arrive`,
`dnsProxy_delivers`). As long as it is pending, the next datagram with its id goes to its client.

What arrives is not only what the servers answer: a datagram may be sent twice, or by someone who was
never asked. The proxy treats all of them alike (`DnsProxyTable.received`).
-/

set_option autoImplicit false

namespace Bklib

open Bklib.Lib

/-! ### Replies that are relayed -/

/-- Nothing is relayed exactly when the datagram is too short or no request has its id. -/
theorem dnsProxySelectRecv_eq_none_iff {proxy : DnsProxy} {reqs : UInt64 → Option DnsProxyReq}
    (h : DnsProxyTable proxy.reqHashId reqs) (mem : Int → UInt8) (buf : Int) {bytes : List UInt8}
    {id : UInt16} (hid : bytes.take 2 = bytes16 (htons id.toNat)) :
    (dnsProxySelectRecv proxy mem buf (some bytes)).2 = none ↔
      bytes.length < 12 ∨ reqs (dnsProxyKey id.toNat) = none := by
  have hreceived : (dnsProxyReceived bytes).length = min dnsProxyRecvMax bytes.length :=
    List.length_take
  by_cases hlen : bytes.length < 12
  · have hshort : (dnsProxyReceived bytes).length < 12 := by omega
    exact iff_of_true (by rw [dnsProxySelectRecv_short mem buf hshort]) (Or.inl hlen)
  · rw [or_iff_right hlen]
    have hfront : (bytes.take dnsProxyRecvMax).take 2 = bytes.take 2 := by
      rw [List.take_take]
      rfl
    have hmax : dnsProxyRecvMax = 4096 := rfl
    unfold dnsProxyReceived at hreceived
    simp only [dnsProxySelectRecv]
    generalize bytes.take dnsProxyRecvMax = bytes' at hfront hreceived ⊢
    have hne : bytes' ≠ [] := fun hnil => by rw [hnil, List.length_nil] at hreceived; omega
    obtain ⟨dns, hunpack, hinit, hheader, ⟨v, hv, hbytes⟩, -, hbuf, -, -, hptr⟩ :=
      dnsReceived mem buf (show 12 ≤ bytes'.length by omega)
    obtain rfl : v = id := bytes16_htons_inj (hbytes.trans (hfront.trans hid))
    obtain ⟨s, r, hget, -, hread, -, -⟩ := h.get (dnsProxyKey v.toNat)
    rw [if_neg hne, hinit, if_neg (by decide)]
    simp only [hunpack]
    rw [if_neg (by decide), hv]
    simp only [hget]
    rw [hread]
    cases hreq : reqs (dnsProxyKey v.toNat) with
    | none => exact iff_of_true rfl rfl
    | some req =>
        -- The header that was read can be written back.
        obtain ⟨-, -, -, hpack⟩ := dnsPack_header (hheader.setId req.origId)
        dsimp only
        rw [hpack, if_neg (by rw [hptr, hbuf]; omega)]
        simp

/-- The datagram has a header, with this id. -/
def DatagramHasId (datagram : List UInt8) (id : UInt16) : Prop :=
  12 ≤ datagram.length ∧ datagram.take 2 = bytes16 (htons id.toNat)

/-- What a datagram does to the table, whoever has sent it: the request that has its id is taken out,
and no other one. -/
theorem DnsProxyTable.received {proxy : DnsProxy} {reqs : UInt64 → Option DnsProxyReq}
    (h : DnsProxyTable proxy.reqHashId reqs) (mem : Int → UInt8) (buf : Int)
    (recvfrom : Option (List UInt8)) :
    ∃ reqs', DnsProxyTable (dnsProxySelectRecv proxy mem buf recvfrom).1.reqHashId reqs' ∧
      (∀ k req, reqs' k = some req → reqs k = some req) ∧
      ∀ id : UInt16, reqs (dnsProxyKey id.toNat) ≠ none → (reqs' (dnsProxyKey id.toNat) ≠ none ↔
        ∀ datagram, recvfrom = some datagram → ¬DatagramHasId datagram id) := by
  cases recvfrom with
  | none =>
      exact ⟨reqs, h, fun _ _ hk => hk, fun id hreq => iff_of_true hreq fun _ hnone => by
        simp at hnone⟩
  | some datagram =>
      by_cases hlen : datagram.length < 12
      · have hshort : (dnsProxyReceived datagram).length < 12 := by
          rw [dnsProxyReceived, List.length_take]
          omega
        rw [dnsProxySelectRecv_short mem buf hshort]
        refine ⟨reqs, h, fun _ _ hk => hk, fun id hreq => iff_of_true hreq ?_⟩
        intro _ hsome hhas
        obtain rfl := Option.some.inj hsome
        exact absurd hhas.1 (Nat.not_le.mpr hlen)
      · -- The first two bytes are an id in network order.
        obtain ⟨v, hid⟩ : ∃ v : UInt16, bytes16 (htons v.toNat) = datagram.take 2 := by
          obtain ⟨_, _, _, _, ⟨v, _, hv⟩, _⟩ :=
            dnsReceived (fun _ => 0) 0 (show 12 ≤ datagram.length by omega)
          exact ⟨v, hv⟩
        have hhas : ∀ id : UInt16, (∀ d, some datagram = some d → ¬DatagramHasId d id) ↔ id ≠ v := by
          intro id
          constructor
          · rintro hno rfl
            exact hno datagram rfl ⟨by omega, hid.symm⟩
          · rintro hne d hd ⟨-, hid'⟩
            obtain rfl := Option.some.inj hd
            exact hne (bytes16_htons_inj (hid'.symm.trans hid.symm))
        have hnone := dnsProxySelectRecv_eq_none_iff h mem buf hid.symm
        rcases dnsProxySelectRecv_spec h mem buf hid.symm with
          ⟨hash', htable, hcall⟩ | ⟨hash', req', hreq', htable, hcall⟩
        · -- No request has this id.
          rw [hcall] at hnone ⊢
          have hfree := (hnone.mp rfl).resolve_left hlen
          refine ⟨reqs, htable, fun _ _ hk => hk, fun id hreq => iff_of_true hreq ?_⟩
          rw [hhas]
          rintro rfl
          exact hreq hfree
        · rw [hcall]
          refine ⟨_, htable, fun _ _ hk => update_none_eq_some hk, fun id hreq => ?_⟩
          rw [hhas]
          by_cases heq : id = v
          · rw [heq, Function.update_self]
            exact iff_of_false (fun hne => hne rfl) fun hne => hne rfl
          · rw [Function.update_of_ne fun hkey => heq (dnsProxyKey_inj.mp hkey)]
            exact iff_of_true hreq heq

/-! ### Queries that can be sent on -/

/-- Where a name ends: behind its first pointer, or where reading stops. -/
def nameEnd (src srcEnd : Int) : Int := if srcEnd = 0 then src else srcEnd

/-- Reading a name does not go back. -/
theorem dnsUnpackNameLoop_nameEnd (dns : Dns) {a : Int} (ha : 0 < a) (ptrMax src srclen : Int)
    (dst : List UInt8) (dstlen srcEnd : Int) (h : a ≤ nameEnd src srcEnd) :
    a ≤ nameEnd (dnsUnpackNameLoop dns ptrMax src srclen dst dstlen srcEnd).src
      (dnsUnpackNameLoop dns ptrMax src srclen dst dstlen srcEnd).srcEnd := by
  have hnext : ∀ {s e : Int} (n : Nat), a ≤ nameEnd s e → a ≤ nameEnd (s + n) e := by
    intro s e n hs
    unfold nameEnd at hs ⊢
    split at hs <;> split <;> omega
  have hjump : ∀ {s e : Int} (s' : Int), a ≤ nameEnd s e →
      a ≤ nameEnd s' (if _ : e = 0 then s + 1 + 1 else e) := by
    intro s e s' hs
    unfold nameEnd at hs ⊢
    by_cases hzero : e = 0
    · rw [if_pos hzero] at hs
      rw [dif_pos hzero, if_neg (by omega)]
      omega
    · rw [if_neg hzero] at hs
      rw [dif_neg hzero, if_neg hzero]
      exact hs
  fun_induction dnsUnpackNameLoop dns ptrMax src srclen dst dstlen srcEnd with
  | case1 => exact h
  | case2 => exact hnext 1 h
  | case3 => exact hnext 1 h
  | case4 => exact hnext 1 (hnext 1 h)
  | case5 =>
      rename_i ih
      exact ih (hjump _ h)
  | case6 => exact hnext 1 h
  | case7 => exact hnext 1 h
  | case8 =>
      rename_i ih
      exact ih (hnext _ (hnext 1 h))

/-- A name read ends at or behind its start. -/
theorem dnsUnpackName_end {dns : Dns} {src srclen dstlen : Int} (hsrc : 0 < src)
    (hok : 0 < (dnsUnpackName dns src srclen dstlen).2.1) :
    src ≤ (dnsUnpackName dns src srclen dstlen).2.2.2 := by
  have hend := dnsUnpackNameLoop_nameEnd dns hsrc 100 src srclen [] dstlen 0 (Int.le_refl src)
  unfold dnsUnpackName at hok ⊢
  dsimp only at hok ⊢
  split
  · exact hend
  · rename_i hfail
    rw [if_neg hfail] at hok
    exact absurd hok (show ¬(0 : Int) < -1 by decide)

/-- And `ptr` stays where it is. -/
theorem dnsUnpackNameLoop_ptr (dns : Dns) (ptrMax src srclen : Int) (dst : List UInt8)
    (dstlen srcEnd : Int) :
    (dnsUnpackNameLoop dns ptrMax src srclen dst dstlen srcEnd).dns.ptr = dns.ptr := by
  fun_induction dnsUnpackNameLoop dns ptrMax src srclen dst dstlen srcEnd with
  | case5 =>
      rename_i ih
      exact ih
  | case8 =>
      rename_i ih
      exact ih
  | _ => rfl

/-- Reading a name leaves the cursor. -/
theorem dnsUnpackName_ptr (dns : Dns) (src srclen dstlen : Int) :
    (dnsUnpackName dns src srclen dstlen).1.ptr = dns.ptr := by
  have hloop := dnsUnpackNameLoop_ptr dns 100 src srclen [] dstlen 0
  unfold dnsUnpackName
  dsimp only
  split
  · exact hloop
  · exact hloop

/-- There are no records behind the questions. -/
def Dns.Plain (dns : Dns) : Prop :=
  0 < dns.buf ∧ dns.buf ≤ dns.ptr ∧ dns.ancount = 0 ∧ dns.nscount = 0 ∧ dns.arcount = 0

/-- Reading a record leaves the message plain. -/
theorem Dns.Plain.rrUnpack {dns : Dns} (h : dns.Plain) : (dnsRrUnpack dns).1.Plain := by
  obtain ⟨hbuf, hptr, han, hns, har⟩ := h
  have hplace : ∀ {dns' : Dns}, dns.Moved dns' → dns.buf ≤ dns'.ptr → dns'.Plain := by
    intro dns' hmoved hle
    obtain ⟨_, _, _, rfl⟩ := hmoved
    exact ⟨hbuf, hle, han, hns, har⟩
  have hmoved := dnsRrUnpack_moved dns
  refine hplace hmoved ?_
  unfold dnsRrUnpack
  cases hsection : dnsRrSection dns with
  | none => exact hptr
  | some rrSection =>
      have hquestion : rrSection = DNS_RR_QUESTION := by
        unfold dnsRrSection at hsection
        simp only [han, hns, har, Int.add_zero] at hsection
        split at hsection
        · exact (Option.some.inj hsection).symm
        · simp_all
      have hsame := dnsUnpackName_ptr dns dns.ptr (dns.bufEnd - dns.ptr) dnsNameMax
      have hend := @dnsUnpackName_end dns dns.ptr (dns.bufEnd - dns.ptr) dnsNameMax (by omega)
      generalize dnsUnpackName dns dns.ptr (dns.bufEnd - dns.ptr) dnsNameMax = r at hsame hend ⊢
      obtain ⟨dns₁, i, name, p⟩ := r
      dsimp only at hsame hend ⊢
      split
      · -- A name that cannot be read leaves `ptr` alone.
        rw [hsame]
        exact hptr
      · rename_i hok
        split
        · have hp := hend (by omega)
          show dns.buf ≤ p + 4
          omega
        · rename_i hresource
          exact absurd hquestion hresource

/-- Neither do the questions that the check reads. -/
theorem dnsCheckQueryLoop_plain (fuel : Nat) :
    ∀ {dns : Dns}, dns.Plain → (dnsCheckQueryLoop fuel dns).1.Plain := by
  induction fuel with
  | zero => intro dns h; exact h
  | succ fuel ih =>
      intro dns h
      have hread := h.rrUnpack
      rw [dnsCheckQueryLoop]
      dsimp only
      split
      · exact hread
      split
      · exact ih hread
      split
      · exact ih hread
      · exact hread

/-- The check leaves `ptr` in such a message. -/
theorem dnsCheckQueryInA_plain {dns : Dns} (hbuf : 0 < dns.buf) (hptr : dns.buf ≤ dns.ptr)
    (hcounts : dns.word 6 = 0 ∧ dns.word 8 = 0 ∧ dns.word 10 = 0) (len : Nat) :
    dns.buf ≤ (dnsCheckQueryInA dns len).1.ptr := by
  obtain ⟨loaded, hunpack⟩ := dnsUnpack_eq dns
  obtain ⟨han, hns, har⟩ := hcounts
  rw [han, hns, har] at hunpack
  have hplain : (dnsRrRewind (dnsUnpack dns).1).Plain := by
    rw [hunpack]
    exact ⟨hbuf, show dns.buf ≤ dns.buf + 12 by omega, rfl, rfl, rfl⟩
  have hsame : (dnsUnpack dns).1.buf = dns.buf ∧ (dnsUnpack dns).1.ptr = dns.ptr := by
    rw [hunpack]
    exact ⟨rfl, rfl⟩
  obtain ⟨dns', i, name, hcheck, -, -, hbuf', -⟩ := dnsCheckQueryInA_header dns len
  have hloop := dnsCheckQueryLoop_plain (((dnsRrRewind (dnsUnpack dns).1).bufEnd
    - (dnsRrRewind (dnsUnpack dns).1).ptr).toNat + 1) hplain
  rw [hcheck]
  unfold dnsCheckQueryInA at hcheck
  dsimp only at hcheck
  split at hcheck
  · rw [← congrArg Prod.fst hcheck, hsame.2]
    exact hptr
  · split at hcheck
    · rename_i dns₂ heq
      obtain rfl : dns₂ = dns' := congrArg Prod.fst hcheck
      rw [heq] at hloop
      rw [← hbuf']
      exact hloop.2.1
    · rename_i dns₂ hostname heq
      obtain rfl : dns₂ = dns' := congrArg Prod.fst hcheck
      rw [heq] at hloop
      rw [← hbuf']
      exact hloop.2.1

/-- A query without records behind its questions is forwarded when a draw is free. -/
theorem dnsProxyForward_plain (addrOf : Nat → Nat) {proxy : DnsProxy}
    {reqs : UInt64 → Option DnsProxyReq} (h : DnsProxyTable proxy.reqHashId reqs)
    (mem : Int → UInt8) {buf : Int} {bytes : List UInt8} (origSock : Int) (origAddr : SockaddrIn)
    (now : Int) (rand : Nat → UInt16) (sendto : Nat → Int) (hbuf : 0 < buf)
    (hlen : 12 ≤ bytes.length) (hcounts : (bytes.drop 6).take 6 = List.replicate 6 0)
    (hfree : ∃ j, j < 1000 ∧ reqs (dnsProxyKey (rand j).toNat) = none) :
    (dnsProxyForward addrOf proxy mem buf bytes origSock origAddr now rand sendto).err = 0 := by
  unfold dnsProxyForward
  obtain ⟨dns, hunpack, hinit, -, -, hmem, hdnsBuf, -, -, hdnsPtr⟩ := dnsReceived mem buf hlen
  obtain ⟨dns', i, name, hcheck, hheader, -, hbuf', -⟩ := dnsCheckQueryInA_header dns 1024
  -- The counts of the header are read from these six bytes.
  have hread : readAt dns.mem (dns.buf + 6) 6 = List.replicate 6 0 := by
    have hwhole := readAt_writeAt mem buf bytes
    have hpart := drop_readAt (writeAt mem buf bytes) buf (show 6 ≤ bytes.length by omega)
    have hfirst := take_readAt (writeAt mem buf bytes) (buf + (6 : Nat))
      (show 6 ≤ bytes.length - 6 by omega)
    rw [hwhole] at hpart
    rw [← hpart, hcounts] at hfirst
    rw [hmem, hdnsBuf]
    exact hfirst.symm
  have hzero : ∀ k : Nat, k < 6 → dns.mem (dns.buf + 6 + k) = 0 := by
    intro k hk
    have hat := congrArg (fun l => l[k]?) hread
    simp only [readAt, List.getElem?_map, List.getElem?_range hk, Option.map_some,
      List.getElem?_replicate, if_pos hk] at hat
    exact Option.some.inj hat
  have hword : ∀ k : Nat, k < 5 → dns.word ((6 : Int) + k) = 0 := by
    intro k hk
    have hnext := hzero (k + 1) (by omega)
    unfold Dns.word get16
    rw [← Int.add_assoc, hzero k (by omega), Int.add_assoc (dns.buf + 6) k 1]
    rw [Nat.cast_add, Nat.cast_one] at hnext
    rw [hnext]
    rfl
  have hptr := dnsCheckQueryInA_plain (by omega) (by omega)
    ⟨hword 0 (by decide), hword 2 (by decide), hword 4 (by decide)⟩ 1024
  rw [hcheck] at hptr
  obtain ⟨hash', node', id', hnewId, htable, hcases⟩ :=
    dnsProxyNewId_spec rand 1000 0 proxy.reqHashId none h
  simp only [hinit, hunpack, hcheck, hnewId]
  rw [if_neg (by decide), if_neg (by decide)]
  rcases hcases with ⟨j, -, -, rfl, -, -⟩ | ⟨-, hall, -, -⟩
  · obtain ⟨-, -, -, hpack⟩ := dnsPack_header (hheader.setId (rand j).toNat)
    obtain ⟨s, ref, hput, -⟩ := htable.put addrOf (dnsProxyKey (rand j).toNat)
      ⟨(rand j).toNat, dns.id, origAddr, origSock, now + dnsProxyExpireReq⟩
    simp only [hput]
    rw [hpack, if_neg (by dsimp only at hptr ⊢; omega)]
  · obtain ⟨j, hj, hnone⟩ := hfree
    exact absurd hnone (hall j (by omega) (by omega))

/-! ### Requests that are kept -/

/-- The event does not end the request that is pending under `id` and is over at `expire`. -/
def DnsProxyEvent.Keeps (id : UInt16) (expire : Int) (s : DnsProxyRun) : DnsProxyEvent → Prop
  -- When every draw is in use, `dns_proxy_forward` frees the request of the last one.
  | .request _ _ bytes _ _ _ rand _ =>
      12 ≤ bytes.length → rand 999 = id → ∃ j, j < 1000 ∧ ¬s.Taken (rand j)
  | .reply _ _ r answer => ∀ query, s.flight[r]? = some query → query.id = id → answer.length < 10
  | .poll mstime => s.proxy.expire ≤ mstime → mstime ≤ expire

/-- The same for all that can arrive: a datagram ends the request when it has its id. -/
def DnsProxyArrival.Keeps (id : UInt16) (expire : Int) (s : DnsProxyRun) : DnsProxyArrival → Prop
  | .event e               => e.Keeps id expire s
  | .datagram _ _ recvfrom => ∀ datagram, recvfrom = some datagram → ¬DatagramHasId datagram id

/-- What holds of a request ever after it was saved. -/
structure DnsProxyAwaits (s : DnsProxyRun) (query : DnsProxyQuery) (expire : Int)
    (reqs : UInt64 → Option DnsProxyReq) : Prop where
  owned : DnsProxyOwned s reqs
  number : query.number < s.count
  expires : s.owner query.id = some query → ∀ req, reqs (dnsProxyKey query.id.toNat) = some req →
    req.expire = expire

section
variable {s : DnsProxyRun} {query : DnsProxyQuery} {expire : Int}
  {reqs reqs' : UInt64 → Option DnsProxyReq}

/-- The request is pending when the table has one under its id and it was the last one to get it. -/
theorem DnsProxyOwned.pending_iff (h : DnsProxyOwned s reqs) (query : DnsProxyQuery) :
    s.Pending query ↔ reqs (dnsProxyKey query.id.toNat) ≠ none ∧ s.owner query.id = some query := by
  unfold DnsProxyRun.Pending
  rw [h.taken_iff]

/-- The outcome of a step for the request: it is pending afterwards if it was before and the step
keeps it, and only then. -/
structure AwaitStep (s s' : DnsProxyRun) (query : DnsProxyQuery) (expire : Int) (kept : Prop) :
    Prop where
  awaits : ∃ reqs', DnsProxyAwaits s' query expire reqs'
  kept : s.Pending query → (s'.Pending query ↔ kept)
  lost : ¬s.Pending query → ¬s'.Pending query

/-- The condition of a step may be put in other words. -/
theorem AwaitStep.congr {s s' : DnsProxyRun} {kept kept' : Prop}
    (h : AwaitStep s s' query expire kept) (hiff : kept ↔ kept') :
    AwaitStep s s' query expire kept' :=
  ⟨h.awaits, fun hpending => (h.kept hpending).trans hiff, h.lost⟩

/-- A step that drops requests, and no others than those that are in `reqs` and not in `reqs'`. -/
theorem DnsProxyAwaits.drop (h : DnsProxyAwaits s query expire reqs) {proxy : DnsProxy}
    {flight : List DnsProxyQuery} {kept : Prop} (htable : DnsProxyTable proxy.reqHashId reqs')
    (hsub : ∀ k req, reqs' k = some req → reqs k = some req)
    (hkept : ∀ req, reqs (dnsProxyKey query.id.toNat) = some req → req.expire = expire →
      (reqs' (dnsProxyKey query.id.toNat) ≠ none ↔ kept)) :
    AwaitStep s { s with proxy, flight } query expire kept := by
  have howned : DnsProxyOwned { s with proxy, flight } reqs' :=
    ⟨htable, fun id req hreq => h.owned.own id req (hsub _ req hreq)⟩
  have howner : ({ s with proxy, flight } : DnsProxyRun).owner = s.owner := rfl
  refine ⟨⟨reqs', howned, h.number, fun ho req hreq => h.expires ho req (hsub _ req hreq)⟩, ?_, ?_⟩
  · intro hpending
    obtain ⟨hreq, ho⟩ := (h.owned.pending_iff query).mp hpending
    obtain ⟨req, hreq⟩ := Option.ne_none_iff_exists'.mp hreq
    rw [howned.pending_iff, howner, and_iff_left ho]
    exact hkept req hreq (h.expires ho req hreq)
  · intro hnot hpending
    obtain ⟨hreq, ho⟩ := (howned.pending_iff query).mp hpending
    obtain ⟨req, hreq⟩ := Option.ne_none_iff_exists'.mp hreq
    exact hnot ((h.owned.pending_iff query).mpr ⟨by rw [hsub _ req hreq]; simp, ho⟩)

/-- A request of another client is saved, under an id that was free. -/
theorem DnsProxyAwaits.save (h : DnsProxyAwaits s query expire reqs) {f : DnsProxyForward}
    {other : DnsProxyQuery} (hnumber : other.number = s.count)
    (hfree : reqs (dnsProxyKey other.id.toNat) = none)
    (hold : ∀ id, id ≠ other.id → reqs' (dnsProxyKey id.toNat) = reqs (dnsProxyKey id.toNat))
    (howned : DnsProxyOwned (s.save f other) reqs') {kept : Prop} (hkept : kept) :
    AwaitStep s (s.save f other) query expire kept := by
  have howner : (s.save f other).owner = Function.update s.owner other.id (some other) := rfl
  have hne : other ≠ query := fun heq => absurd h.number (by rw [← heq, hnumber]; omega)
  -- Under the new id there is the other request now.
  have hnew : query.id = other.id → ¬(s.save f other).owner query.id = some query := by
    intro hid ho
    rw [howner, hid, Function.update_self] at ho
    exact hne (Option.some.inj ho)
  have hsame : query.id ≠ other.id → (s.save f other).owner query.id = s.owner query.id := by
    intro hid
    rw [howner, Function.update_of_ne hid]
  refine ⟨⟨reqs', howned, Nat.lt_succ_of_lt h.number, fun ho req hreq => ?_⟩, ?_, ?_⟩
  · by_cases hid : query.id = other.id
    · exact absurd ho (hnew hid)
    · exact h.expires (hsame hid ▸ ho) req (hold _ hid ▸ hreq)
  · intro hpending
    obtain ⟨hreq, ho⟩ := (h.owned.pending_iff query).mp hpending
    have hid : query.id ≠ other.id := fun hid => hreq (by rw [hid]; exact hfree)
    refine iff_of_true ((howned.pending_iff query).mpr ⟨?_, ?_⟩) hkept
    · rw [hold _ hid]
      exact hreq
    · rw [hsame hid]
      exact ho
  · intro hnot hpending
    obtain ⟨hreq, ho⟩ := (howned.pending_iff query).mp hpending
    by_cases hid : query.id = other.id
    · exact hnew hid ho
    · refine hnot ((h.owned.pending_iff query).mpr ⟨?_, ?_⟩)
      · rw [← hold _ hid]
        exact hreq
      · rw [← hsame hid]
        exact ho

/-- After a request was saved: the other ids are as they were, and the new one is in use when the
call went well. -/
structure SavedAs (s' : DnsProxyRun) (reqs reqs' : UInt64 → Option DnsProxyReq) (id : UInt16)
    (req : DnsProxyReq) (err : Int) : Prop where
  owned : DnsProxyOwned s' reqs'
  old : ∀ id', id' ≠ id → reqs' (dnsProxyKey id'.toNat) = reqs (dnsProxyKey id'.toNat)
  ok : err = 0 → reqs' (dnsProxyKey id.toNat) = some req

/-- What `dns_proxy_forward` saves is the request of the client. -/
theorem DnsProxyOwned.saved (h : DnsProxyOwned s reqs) {bytes : List UInt8} {sock : Int}
    {addr : SockaddrIn} {now : Int} {rand : Nat → UInt16} {f : DnsProxyForward} {j : Nat}
    {origId : UInt16} {req : DnsProxyReq} (hlen : 12 ≤ bytes.length)
    (hfirst : FirstFree reqs rand j) (hid : bytes16 (htons origId.toNat) = bytes.take 2)
    (hreq : req = ⟨(rand j).toNat, origId.toNat, addr, sock, now + dnsProxyExpireReq⟩)
    (htable : f.err = 0 ∧ DnsProxyTable f.proxy.reqHashId
        (Function.update reqs (dnsProxyKey (rand j).toNat) (some req)) ∨
      f.err = -1 ∧ DnsProxyTable f.proxy.reqHashId reqs) :
    ∃ reqs', SavedAs (s.save f ⟨s.count, rand j, bytes, sock, addr⟩) reqs reqs' (rand j) req
      f.err := by
  have hfor : req.For ⟨s.count, rand j, bytes, sock, addr⟩ := by
    rw [hreq]
    exact ⟨rfl, rfl, rfl, by rw [ofInt_toNat]; exact hid⟩
  have hstep : ∀ {reqs' : UInt64 → Option DnsProxyReq}, DnsProxyTable f.proxy.reqHashId reqs' →
      (∀ id', id' ≠ rand j → reqs' (dnsProxyKey id'.toNat) = reqs (dnsProxyKey id'.toNat)) →
      (∀ req', reqs' (dnsProxyKey (rand j).toNat) = some req' → req' = req) →
      DnsProxyOwned (s.save f ⟨s.count, rand j, bytes, sock, addr⟩) reqs' := by
    intro reqs' htable hold hnew
    -- What the table holds does not depend on where the message was and whom it was sent to.
    have hsave : DnsProxyStep s reqs (.request (fun _ => 0) 0 bytes sock addr now rand fun _ => 0)
        (s.save f ⟨s.count, rand j, bytes, sock, addr⟩) reqs' :=
      .save htable hlen hfirst rfl hold fun req' hreq' => by rw [hnew req' hreq']; exact hfor
    exact h.step hsave
  rcases htable with ⟨herr, htable⟩ | ⟨herr, htable⟩
  · have hold : ∀ id', id' ≠ rand j → Function.update reqs (dnsProxyKey (rand j).toNat) (some req)
        (dnsProxyKey id'.toNat) = reqs (dnsProxyKey id'.toNat) := fun id' hne =>
      Function.update_of_ne (fun hkey => hne (dnsProxyKey_inj.mp hkey)) _ _
    have hself : Function.update reqs (dnsProxyKey (rand j).toNat) (some req)
        (dnsProxyKey (rand j).toNat) = some req := Function.update_self _ _ _
    refine ⟨_, hstep htable hold fun req' hreq' => ?_, hold, fun _ => hself⟩
    exact (Option.some.inj (hself.symm.trans hreq')).symm
  · refine ⟨reqs, hstep htable (fun _ _ => rfl) fun req' hreq' => ?_, fun _ _ => rfl, fun hok => ?_⟩
    · exact absurd (hfirst.free.symm.trans hreq') (by simp)
    · exact absurd (herr.symm.trans hok) (by decide)

/-! The events, one by one. -/

/-- A request, of any bytes. -/
theorem DnsProxyAwaits.request (addrOf : Nat → Nat) (h : DnsProxyAwaits s query expire reqs)
    (mem : Int → UInt8) (buf : Int) (bytes : List UInt8) (sock : Int) (addr : SockaddrIn)
    (now : Int) (rand : Nat → UInt16) (sendto : Nat → Int) :
    AwaitStep s (s.step addrOf (.request mem buf bytes sock addr now rand sendto)) query expire
      (DnsProxyEvent.Keeps query.id expire s
        (.request mem buf bytes sock addr now rand sendto)) := by
  have hspec := dnsProxyForward_spec addrOf h.owned.table mem buf bytes sock addr now rand sendto
  simp only [DnsProxyRun.step, DnsProxyEvent.Keeps]
  generalize dnsProxyForward addrOf s.proxy mem buf bytes sock addr now rand sendto = f at hspec ⊢
  cases hspec with
  | short hlen _ hsaved _ htable =>
      rw [hsaved]
      refine h.drop htable (fun _ _ hk => hk) fun req hreq _ => iff_of_true (by rw [hreq]; simp) ?_
      exact fun hlong => absurd hlen (Nat.not_lt.mpr hlong)
  | used hlen hall _ hsaved _ htable =>
      rw [hsaved]
      refine h.drop htable (fun _ _ hk => update_none_eq_some hk) fun req hreq _ => ?_
      have htaken : ¬∃ j, j < 1000 ∧ ¬s.Taken (rand j) := by
        rintro ⟨j, hj, hnot⟩
        exact hnot ((h.owned.taken_iff _).mpr (hall j hj))
      by_cases hlast : rand 999 = query.id
      · rw [hlast, Function.update_self]
        exact iff_of_false (fun hne => hne rfl) fun hkeeps => htaken (hkeeps hlen rfl)
      · rw [Function.update_of_ne fun hkey => hlast (dnsProxyKey_inj.mp hkey).symm]
        exact iff_of_true (by rw [hreq]; simp) fun _ heq => absurd heq hlast
  | saved j origId req hlen hfirst hid hsaved hreq _ htable =>
      have hidj : UInt16.ofInt req.id = rand j := by rw [hreq]; exact ofInt_toNat (rand j)
      have hfree : ¬s.Taken (rand j) := fun htaken => (h.owned.taken_iff _).mp htaken hfirst.free
      obtain ⟨reqs', hsavedAs⟩ := h.owned.saved hlen hfirst hid hreq htable
      rw [hsaved]
      dsimp only
      rw [hidj]
      exact h.save rfl hfirst.free hsavedAs.old hsavedAs.owned fun _ _ => ⟨j, hfirst.lt, hfree⟩

/-- A datagram, from a server or from anyone else. -/
theorem DnsProxyAwaits.received (h : DnsProxyAwaits s query expire reqs) (mem : Int → UInt8)
    (buf : Int) (recvfrom : Option (List UInt8)) (flight : List DnsProxyQuery) :
    AwaitStep s { s with proxy := (dnsProxySelectRecv s.proxy mem buf recvfrom).1, flight } query
      expire (∀ datagram, recvfrom = some datagram → ¬DatagramHasId datagram query.id) := by
  obtain ⟨reqs', htable, hsub, hkept⟩ := h.owned.table.received mem buf recvfrom
  exact h.drop htable hsub fun req hreq _ => hkept query.id (by rw [hreq]; simp)

/-- A reply, or nothing. -/
theorem DnsProxyAwaits.reply (addrOf : Nat → Nat) (h : DnsProxyAwaits s query expire reqs)
    (mem : Int → UInt8) (buf : Int) (r : Nat) (answer : List UInt8) :
    AwaitStep s (s.step addrOf (.reply mem buf r answer)) query expire
      ((DnsProxyEvent.reply mem buf r answer).Keeps query.id expire s) := by
  cases hr : s.flight[r]? with
  | none =>
      simp only [DnsProxyRun.step, DnsProxyEvent.Keeps, hr]
      refine h.drop h.owned.table (fun _ _ hk => hk) fun req hreq _ =>
        iff_of_true (by rw [hreq]; simp) ?_
      intro other hother
      exact absurd hother (by simp)
  | some other =>
      have hfront : (other.reply answer).take 2 = bytes16 (htons other.id.toNat) := rfl
      have hlen : (other.reply answer).length = answer.length + 2 := by
        rw [DnsProxyQuery.reply, List.length_append, length_bytes16, Nat.add_comm]
      have hreceived := h.received mem buf (some (other.reply answer)) (s.flight.eraseIdx r)
      simp only [DnsProxyRun.step, DnsProxyEvent.Keeps, hr]
      refine hreceived.congr ⟨?_, ?_⟩
      · intro hno query' hquery' hid
        obtain rfl := Option.some.inj hquery'
        by_contra hlong
        exact hno _ rfl ⟨by omega, by rw [hfront, hid]⟩
      · rintro hshort datagram hdatagram ⟨hhas, hid⟩
        obtain rfl := Option.some.inj hdatagram
        have hsame : other.id = query.id := bytes16_htons_inj (hfront.symm.trans hid)
        have := hshort other rfl hsame
        omega

/-- A poll, early or not. -/
theorem DnsProxyAwaits.poll (addrOf : Nat → Nat) (h : DnsProxyAwaits s query expire reqs)
    (mstime : Int) :
    AwaitStep s (s.step addrOf (.poll mstime)) query expire
      ((DnsProxyEvent.poll mstime).Keeps query.id expire s) := by
  have htable := dnsProxyPoll_spec h.owned.table mstime
  simp only [DnsProxyRun.step, DnsProxyEvent.Keeps]
  by_cases hearly : mstime < s.proxy.expire
  · rw [if_pos hearly] at htable
    refine h.drop htable (fun _ _ hk => hk) fun req hreq _ => iff_of_true (by rw [hreq]; simp) ?_
    exact fun hlate => absurd hearly (Int.not_lt.mpr hlate)
  · rw [if_neg hearly] at htable
    refine h.drop htable (fun k req hk => (Option.filter_eq_some_iff.mp hk).1)
      fun req hreq hexpire => ?_
    rw [hreq, Option.filter_some, DnsProxyReq.live, hexpire]
    by_cases hlive : mstime ≤ expire
    · rw [if_pos (decide_eq_true hlive)]
      exact iff_of_true (by simp) fun _ => hlive
    · rw [if_neg fun htrue => hlive (of_decide_eq_true htrue)]
      exact iff_of_false (fun hne => hne rfl) fun hkeeps => hlive (hkeeps (Int.not_lt.mp hearly))

/-- The step lemma. -/
theorem dnsProxyAwaits_arrive (addrOf : Nat → Nat) (h : DnsProxyAwaits s query expire reqs)
    (a : DnsProxyArrival) :
    AwaitStep s (s.arrive addrOf a) query expire (a.Keeps query.id expire s) := by
  cases a with
  | event e =>
      cases e with
      | request mem buf bytes sock addr now rand sendto =>
          exact h.request addrOf mem buf bytes sock addr now rand sendto
      | reply mem buf r answer => exact h.reply addrOf mem buf r answer
      | poll mstime => exact h.poll addrOf mstime
  | datagram mem buf recvfrom => exact h.received mem buf recvfrom s.flight

/-- The run lemma: the request is pending after the runs that keep it. -/
theorem dnsProxyAwaits_run (addrOf : Nat → Nat) (h : DnsProxyAwaits s query expire reqs)
    (hpending : s.Pending query) (arrivals : List DnsProxyArrival) :
    (run (DnsProxyRun.arrive addrOf) s arrivals).Pending query ↔
      AllSteps (fun s a => a.Keeps query.id expire s) (DnsProxyRun.arrive addrOf) s arrivals := by
  refine holds_run_iff_allSteps (I := fun s => ∃ reqs, DnsProxyAwaits s query expire reqs)
    (H := fun s => s.Pending query) (fun s a hs => ?_) (fun s a hs => ?_) (fun s a hs => ?_)
    ⟨reqs, h⟩ hpending
  · obtain ⟨reqs, hs⟩ := hs
    exact (dnsProxyAwaits_arrive addrOf hs a).awaits
  · obtain ⟨reqs, hs⟩ := hs
    exact (dnsProxyAwaits_arrive addrOf hs a).kept
  · obtain ⟨reqs, hs⟩ := hs
    exact (dnsProxyAwaits_arrive addrOf hs a).lost

/-- Whether the request is still pending or not. -/
theorem dnsProxyAwaits_later (addrOf : Nat → Nat) (h : DnsProxyAwaits s query expire reqs)
    (arrivals : List DnsProxyArrival) :
    ∃ reqs', DnsProxyAwaits (run (DnsProxyRun.arrive addrOf) s arrivals) query expire reqs' := by
  refine run_inv (I := fun s => ∃ reqs, DnsProxyAwaits s query expire reqs) (fun s a hs => ?_)
    ⟨reqs, h⟩ arrivals
  obtain ⟨reqs, hs⟩ := hs
  exact (dnsProxyAwaits_arrive addrOf hs a).awaits

/-- The invariant of every run, whatever arrives. -/
theorem dnsProxyOwned_arrivals (addrOf : Nat → Nat) (sock : Int) (forwardAddrs : List SockaddrIn)
    (arrivals : List DnsProxyArrival) :
    ∃ reqs, DnsProxyOwned
      (run (DnsProxyRun.arrive addrOf) (dnsProxyStart sock forwardAddrs) arrivals) reqs := by
  refine run_inv (I := fun s => ∃ reqs, DnsProxyOwned s reqs) (fun s a h => ?_)
    ⟨_, (dnsProxyInv_start sock forwardAddrs).toDnsProxyOwned⟩ arrivals
  obtain ⟨reqs, h⟩ := h
  cases a with
  | event e =>
      obtain ⟨reqs', hstep⟩ := dnsProxyStep_spec addrOf h.table e
      exact ⟨reqs', h.step hstep⟩
  | datagram mem buf recvfrom =>
      obtain ⟨reqs', htable, hsub, -⟩ := h.table.received mem buf recvfrom
      exact ⟨reqs', htable, fun id req hreq => h.own id req (hsub _ req hreq)⟩

end

/-! ### Delivery -/

/-- The next datagram with the id of the request goes to the client, with the client's own id. -/
def DnsProxyRun.Delivers (s : DnsProxyRun) (query : DnsProxyQuery) : Prop :=
  ∀ (mem : Int → UInt8) (buf : Int) (datagram : List UInt8), 12 ≤ datagram.length →
    datagram.take 2 = bytes16 (htons query.id.toNat) →
    (dnsProxySelectRecv s.proxy mem buf (some datagram)).2
      = some ⟨query.sock, query.addr, query.bytes.take 2 ++ (dnsProxyReceived datagram).drop 2⟩

/-- A request that is pending. -/
theorem DnsProxyOwned.delivers {s : DnsProxyRun} {reqs : UInt64 → Option DnsProxyReq}
    (h : DnsProxyOwned s reqs) {query : DnsProxyQuery} (hpending : s.Pending query) :
    s.Delivers query := by
  intro mem buf datagram hlen hid
  obtain ⟨hreq, howner⟩ := (h.pending_iff query).mp hpending
  cases hrelay : (dnsProxySelectRecv s.proxy mem buf (some datagram)).2 with
  | none =>
      rcases (dnsProxySelectRecv_eq_none_iff h.table mem buf hid).mp hrelay with hshort | hfree
      · omega
      · exact absurd hfree hreq
  | some relay =>
      obtain ⟨owner, req, howns, hsame, -, hfor, rfl⟩ := h.relay hid hrelay
      obtain rfl : owner = query := Option.some.inj (howns.2.symm.trans (hsame ▸ howner))
      rw [hfor.sock, hfor.addr, hfor.origId]
      rfl

/-- A request that is forwarded is pending, under the first draw that is free. -/
theorem dnsProxyAwaits_request (addrOf : Nat → Nat) {s : DnsProxyRun}
    {reqs : UInt64 → Option DnsProxyReq} (h : DnsProxyOwned s reqs) (mem : Int → UInt8) (buf : Int)
    (bytes : List UInt8) (sock : Int) (addr : SockaddrIn) (now : Int) (rand : Nat → UInt16)
    (sendto : Nat → Int)
    (hok : (dnsProxyForward addrOf s.proxy mem buf bytes sock addr now rand sendto).err = 0) :
    ∃ (j : Nat) (reqs' : UInt64 → Option DnsProxyReq),
      let query : DnsProxyQuery := ⟨s.count, rand j, bytes, sock, addr⟩
      let s' := s.step addrOf (.request mem buf bytes sock addr now rand sendto)
      FirstFree reqs rand j ∧ 12 ≤ bytes.length ∧
      (∀ sent ∈ (dnsProxyForward addrOf s.proxy mem buf bytes sock addr now rand sendto).sent,
        sent.bytes = query.reply (bytes.drop 2)) ∧
      DnsProxyAwaits s' query (now + dnsProxyExpireReq) reqs' ∧ s'.Pending query := by
  have hspec := dnsProxyForward_spec addrOf h.table mem buf bytes sock addr now rand sendto
  simp only [DnsProxyRun.step]
  generalize dnsProxyForward addrOf s.proxy mem buf bytes sock addr now rand sendto = f
    at hspec hok ⊢
  cases hspec with
  | short _ herr _ _ _ => exact absurd (herr.symm.trans hok) (by decide)
  | used _ _ herr _ _ _ => exact absurd (herr.symm.trans hok) (by decide)
  | saved j origId req hlen hfirst hid hsaved hreq hall htable =>
      have hidj : UInt16.ofInt req.id = rand j := by rw [hreq]; exact ofInt_toNat (rand j)
      obtain ⟨reqs', hsavedAs⟩ := h.saved hlen hfirst hid hreq htable
      have hfound := hsavedAs.ok hok
      have howner : (s.save f ⟨s.count, rand j, bytes, sock, addr⟩).owner (rand j)
          = some ⟨s.count, rand j, bytes, sock, addr⟩ := Function.update_self _ _ _
      rw [hsaved]
      dsimp only
      rw [hidj]
      refine ⟨j, reqs', hfirst, hlen, hall,
        ⟨hsavedAs.owned, Nat.lt_succ_self s.count, fun _ req' hreq' => ?_⟩,
        (hsavedAs.owned.pending_iff _).mpr ⟨by rw [hfound]; simp, howner⟩⟩
      rw [← Option.some.inj (hfound.symm.trans hreq'), hreq]

/-- The first draw that no pending request has. -/
def DnsProxyRun.FirstFree (s : DnsProxyRun) (rand : Nat → UInt16) (j : Nat) : Prop :=
  j < 1000 ∧ ¬s.Taken (rand j) ∧ ∀ k, k < j → s.Taken (rand k)

theorem DnsProxyOwned.firstFree {s : DnsProxyRun} {reqs : UInt64 → Option DnsProxyReq}
    (h : DnsProxyOwned s reqs) {rand : Nat → UInt16} {j : Nat} (hfirst : FirstFree reqs rand j) :
    s.FirstFree rand j :=
  ⟨hfirst.lt, fun htaken => (h.taken_iff _).mp htaken hfirst.free,
    fun k hk => (h.taken_iff _).mpr (hfirst.used k hk)⟩

/-- In every run, whatever arrives, a request that is forwarded without an error gets the first draw
that is free. It is pending after further arrivals if and only if all of these keep it, and then the
next datagram with its id goes to its client. -/
theorem dnsProxy_delivers (addrOf : Nat → Nat) (sock : Int) (forwardAddrs : List SockaddrIn)
    (arrivals : List DnsProxyArrival) (mem : Int → UInt8) (buf : Int) (bytes : List UInt8)
    (origSock : Int) (origAddr : SockaddrIn) (now : Int) (rand : Nat → UInt16) (sendto : Nat → Int)
    (hok : (dnsProxyForward addrOf (run (DnsProxyRun.arrive addrOf)
      (dnsProxyStart sock forwardAddrs) arrivals).proxy mem buf bytes origSock origAddr now rand
      sendto).err = 0) :
    let s := run (DnsProxyRun.arrive addrOf) (dnsProxyStart sock forwardAddrs) arrivals
    let f := dnsProxyForward addrOf s.proxy mem buf bytes origSock origAddr now rand sendto
    let s' := s.step addrOf (.request mem buf bytes origSock origAddr now rand sendto)
    ∃ j : Nat, s.FirstFree rand j ∧
      let query : DnsProxyQuery := ⟨s.count, rand j, bytes, origSock, origAddr⟩
      (∀ sent ∈ f.sent, sent.bytes = query.reply (bytes.drop 2)) ∧
      ∀ later : List DnsProxyArrival,
        let s'' := run (DnsProxyRun.arrive addrOf) s' later
        (s''.Pending query ↔ AllSteps (fun s a => a.Keeps (rand j) (now + dnsProxyExpireReq) s)
          (DnsProxyRun.arrive addrOf) s' later) ∧
        (s''.Pending query → s''.Delivers query) := by
  intro s f s'
  obtain ⟨reqs, h⟩ := dnsProxyOwned_arrivals addrOf sock forwardAddrs arrivals
  obtain ⟨j, reqs', hfirst, -, hsent, hawaits, hpending⟩ :=
    dnsProxyAwaits_request addrOf h mem buf bytes origSock origAddr now rand sendto hok
  refine ⟨j, h.firstFree hfirst, hsent, fun later =>
    ⟨dnsProxyAwaits_run addrOf hawaits hpending later, ?_⟩⟩
  obtain ⟨reqs'', hlater⟩ := dnsProxyAwaits_later addrOf hawaits later
  exact hlater.owned.delivers

/-- The header of a message is forwarded under the id 7. -/
theorem dnsProxy_delivers_a :
    (dnsProxyForward id (dnsProxyNew 3 [⟨2, 53⟩]) (fun _ => 0) 1 (headerDatagram 100) 4 ⟨1, 1000⟩ 0
      (fun _ => 7) fun _ => 12).err = 0 ∧
    let s := dnsProxyStart 3 [⟨2, 53⟩]
    let f := dnsProxyForward id s.proxy (fun _ => 0) 1 (headerDatagram 100) 4 ⟨1, 1000⟩ 0
      (fun _ => 7) fun _ => 12
    let s' := s.step id (headerRequest 100 1000 7)
    ∃ j : Nat, s.FirstFree (fun _ => 7) j ∧
      let query : DnsProxyQuery := ⟨0, 7, headerDatagram 100, 4, ⟨1, 1000⟩⟩
      (∀ sent ∈ f.sent, sent.bytes = query.reply ((headerDatagram 100).drop 2)) ∧
      ∀ later : List DnsProxyArrival,
        let s'' := run (DnsProxyRun.arrive id) s' later
        (s''.Pending query ↔ AllSteps (fun s a => a.Keeps 7 (0 + dnsProxyExpireReq) s)
          (DnsProxyRun.arrive id) s' later) ∧
        (s''.Pending query → s''.Delivers query) :=
  ⟨by decide +kernel, dnsProxy_delivers id 3 [⟨2, 53⟩] [] (fun _ => 0) 1 (headerDatagram 100) 4
    ⟨1, 1000⟩ 0 (fun _ => 7) (fun _ => 12) (by decide +kernel)⟩

end Bklib
