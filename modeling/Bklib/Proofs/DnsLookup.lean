import Bklib.Proofs.DnsProxyDelivers
import Bklib.Proofs.DnsReply
import Bklib.Proofs.DnsResolve

/-!
# `Bklib.Proofs.DnsLookup`: a name is looked up through the proxy

A client sends a query to the proxy, a server answers what the proxy sends it with
`dns_pack_reply_in_a`, the proxy relays the reply and the client reads it with `dns_resolve_reply`.
Between the two datagrams anything may arrive that keeps the request.

The reply that the client gets has another id than the one that the server has packed, and it lies
somewhere else. The records do not depend on either: no pointer leads in front of the first
question, so the records are read from any message that is the packed one behind its id
(`PackedRrs.reads_at`).
-/

set_option autoImplicit false

namespace Bklib

open Bklib.Lib

/-! ### The same message behind another id -/

/-- The `len` bytes at `buf'` are those at `buf`, but for the first two. -/
def SameBehindId (mem : Int → UInt8) (buf : Int) (mem' : Int → UInt8) (buf' len : Int) : Prop :=
  ∀ i : Int, 2 ≤ i → i < len → mem' (buf' + i) = mem (buf + i)

/-- A message that is read at one place and written, with another id, at another. -/
theorem sameBehindId_write {mem mem' : Int → UInt8} {buf buf' : Int} {n : Nat} {bytes : List UInt8}
    (hlen : bytes.length = n) (hrest : bytes.drop 2 = (readAt mem buf n).drop 2) :
    SameBehindId mem buf (writeAt mem' buf' bytes) buf' n := by
  intro i hi hn
  obtain ⟨k, rfl⟩ := Int.eq_ofNat_of_zero_le (show 0 ≤ i by omega)
  have hk : k < bytes.length := by omega
  have hread : bytes[k]? = (readAt mem buf n)[k]? := by
    have hat := congrArg (fun l => l[k - 2]?) hrest
    simp only [List.getElem?_drop] at hat
    rwa [show 2 + (k - 2) = k by omega] at hat
  have hcell : (readAt mem buf n)[k]? = some (mem (buf + k)) := by
    rw [readAt, List.getElem?_map, List.getElem?_range (by omega), Option.map_some]
  rw [hcell, List.getElem?_eq_getElem hk] at hread
  rw [writeAt_add mem' buf' bytes k hk]
  exact Option.some.inj hread

/-- The words of the header behind the id. -/
theorem SameBehindId.same16 {mem mem' : Int → UInt8} {buf buf' len : Int}
    (h : SameBehindId mem buf mem' buf' len) {i : Int} (hi : 2 ≤ i) (hlen : i + 2 ≤ len) :
    get16 mem' (buf' + i) = get16 mem (buf + i) := by
  unfold get16
  rw [h i hi (by omega), Int.add_assoc, h (i + 1) (by omega) (by omega), ← Int.add_assoc]

/-- What is received of it: the flags and the counts are the same. -/
theorem SameBehindId.receive {mem mem' : Int → UInt8} {buf buf' len : Int}
    (h : SameBehindId mem buf mem' buf' len) (hlen : 12 ≤ len) :
    let got := dnsReceive mem buf len
    let got' := dnsReceive mem' buf' len
    got'.qr = got.qr ∧ got'.qrcount = got.qrcount ∧ got'.ancount = got.ancount ∧
      got'.nscount = got.nscount ∧ got'.arcount = got.arcount := by
  intro got got'
  obtain ⟨hheader, -, hmem, hbuf, -⟩ := dnsUnpack_header (dnsInit mem buf len).1
  obtain ⟨hheader', -, hmem', hbuf', -⟩ := dnsUnpack_header (dnsInit mem' buf' len).1
  have hword : ∀ i : Int, 2 ≤ i → i + 2 ≤ len → got'.word i = got.word i := by
    intro i hi hi'
    have hgot : got.word i = UInt16.ofNat (htons (get16 mem (buf + i))) := by
      show UInt16.ofNat (htons (get16 got.mem (got.buf + i))) = _
      rw [show got.mem = mem from hmem, show got.buf = buf from hbuf]
    have hgot' : got'.word i = UInt16.ofNat (htons (get16 mem' (buf' + i))) := by
      show UInt16.ofNat (htons (get16 got'.mem (got'.buf + i))) = _
      rw [show got'.mem = mem' from hmem', show got'.buf = buf' from hbuf']
    rw [hgot, hgot', h.same16 hi hi']
  have hqr : got'.qr = unpackBits (got'.word 2) 1 15 := hheader'.qr
  have hqrcount : got'.qrcount = (got'.word 4).toNat := hheader'.qrcount
  have hancount : got'.ancount = (got'.word 6).toNat := hheader'.ancount
  have hnscount : got'.nscount = (got'.word 8).toNat := hheader'.nscount
  have harcount : got'.arcount = (got'.word 10).toNat := hheader'.arcount
  rw [hqr, hqrcount, hancount, hnscount, harcount, hword 2 (by omega) (by omega),
    hword 4 (by omega) (by omega), hword 6 (by omega) (by omega), hword 8 (by omega) (by omega),
    hword 10 (by omega) (by omega)]
  exact ⟨hheader.qr.symm, hheader.qrcount.symm, hheader.ancount.symm, hheader.nscount.symm,
    hheader.arcount.symm⟩

/-- The records of a message are read from every message that is the same behind its id. -/
theorem PackedRrs.reads_at {start dns : Dns} {rrs : List DnsRr} (h : PackedRrs start dns rrs)
    (hptr : start.ptr = start.buf + 12) (hqr : start.qrcount = 0) (han : start.ancount = 0)
    (hns : start.nscount = 0) (har : start.arcount = 0)
    (hsorted : rrs.Pairwise fun rr rr' => rr.rrSection ≤ rr'.rrSection)
    (hcounted : ∀ rr ∈ rrs, rr.counted = true) (hshort : rrs.length ≤ 255)
    (hlast : NameDataLast rrs) {mem' : Int → UInt8} {buf' : Int} (hbuf' : 0 < buf')
    (hsame : SameBehindId (dnsPack dns).1.mem dns.buf mem' buf' (dnsPack dns).2) :
    ∃ got, dnsReadRrs (rrs.length + 1) (dnsReceive mem' buf' (dnsPack dns).2) = some got ∧
      got.map DnsRr.content = rrs.map DnsRr.carried := by
  have hstart := h.packing.start
  obtain ⟨hidx, hqr', han', hns', har'⟩ := h.receivedCounts hqr han hns har fun s =>
    Nat.le_trans List.countP_le_length (Nat.le_trans hshort (by decide))
  have hlen : 12 ≤ (dnsPack dns).2 := by
    show 12 ≤ dns.ptr - dns.buf
    omega
  obtain ⟨-, hqr'', han'', hns'', har''⟩ := hsame.receive hlen
  -- The records are behind the header, where nothing differs.
  have hcells : CellsLe dns.packed (dnsReceive mem' buf' (dnsPack dns).2).cells := by
    intro i b hb
    unfold Dns.packed at hb
    split at hb
    · rename_i hin
      have hlast' : (i : Int) < (dnsPack dns).2 := by
        show (i : Int) < dns.ptr - dns.buf
        omega
      show (if buf' + (i : Int) < buf' + (dnsPack dns).2 then some (mem' (buf' + i)) else none)
        = some b
      rw [if_pos (by omega), hsame i (by omega) hlast', dnsPack_mem_of_ge dns (by omega)]
      exact hb
    · exact absurd hb (by simp)
  have hpos : start.pos = 12 := by
    unfold Dns.pos
    omega
  have hrecords := h.records
  rw [hpos] at hrecords
  have horder : ReadOrder (dnsReceive mem' buf' (dnsPack dns).2) [] rrs :=
    ⟨rfl, hshort, hsorted, hcounted, hqr''.trans hqr', han''.trans han', hns''.trans hns',
      har''.trans har'⟩
  exact dnsReadRrs_recordsAt rrs (dnsReceive_ok mem' hbuf' hlen) hcells hrecords rfl horder hlast

/-! ### The server -/

/-- A server that answers with `dns_pack_reply_in_a`: where it has the query and the reply, and the
address and its time to live that it knows. -/
structure DnsResponder where
  addrOf : Nat → Nat
  queryMem : Int → UInt8
  queryBuf : Int
  replyMem : Int → UInt8
  replyBuf : Int
  replyLen : Int
  addr : UInt32
  ttl : UInt32

namespace DnsResponder

/-- The query, as it is received. -/
def query (d : DnsResponder) (bytes : List UInt8) : Dns :=
  (dnsInit (writeAt d.queryMem d.queryBuf bytes) d.queryBuf bytes.length).1

/-- What `dns_pack_reply_in_a` makes of it. -/
def packed (d : DnsResponder) (bytes : List UInt8) : Dns × Dns × Int :=
  dnsPackReplyInA d.addrOf (dnsInit d.replyMem d.replyBuf d.replyLen).1 (d.query bytes) d.addr d.ttl

/-- The datagram that is sent back. -/
def reply (d : DnsResponder) (bytes : List UInt8) : List UInt8 :=
  readAt (d.packed bytes).1.mem d.replyBuf (d.packed bytes).2.2.toNat

/-- The server accepts the question `rr` of the message and has room for the reply, which is not
more than the proxy receives. -/
structure Answers (d : DnsResponder) (bytes : List UInt8) (rr : DnsRr) : Prop where
  accepts : (dnsCheckQueryInA (d.query bytes) (dnsNameMax + 1)).2.1 = 0
  asked : AcceptedQuestion (dnsRrRewind (dnsUnpack (d.query bytes)).1) rr
  labels : LabelsInOrder rr.name
  room : 12 + rr.name.length + 22 ≤ d.replyLen
  max : d.replyLen ≤ dnsProxyRecvMax

/-- The reply is a message in which the question and the answer have been packed. -/
structure Replied (d : DnsResponder) (bytes : List UInt8) (rr : DnsRr) (start dns : Dns) :
    Prop where
  packed : PackedRrs start dns [dnsQuestionInA rr.name, dnsAnswerInA rr.name d.addr d.ttl]
  start : ReplyStart start (d.query bytes) d.replyBuf d.replyLen
  inside : dns.ptr ≤ d.replyBuf + d.replyLen
  mem : (d.packed bytes).1.mem = (dnsPack dns).1.mem
  ret : (d.packed bytes).2.2 = (dnsPack dns).2

/-- `dns_pack_reply_in_a` for a question that is accepted. -/
theorem Answers.replied {d : DnsResponder} {bytes : List UInt8} {rr : DnsRr}
    (h : d.Answers bytes rr) : ∃ start dns, d.Replied bytes rr start dns := by
  have hroom := h.room
  obtain ⟨-, start, query', dns, hstart, rfl, hpack⟩ := dnsPackReplyInA_start d.addrOf d.replyMem
    d.replyBuf d.replyLen d.addr d.ttl h.accepts h.asked (by omega)
  have hreply := hstart.fresh.packedReply d.addrOf h.labels h.asked.textRead d.addr d.ttl (by
    rw [hstart.fresh.ptr, hstart.place.1, hstart.place.2]
    omega)
  have hinside := hreply.inside
  rw [(hstart.packed hreply).2.1] at hinside
  exact ⟨start, _, hreply, hstart, hinside, congrArg (fun p => p.1.mem) hpack,
    congrArg (fun p => p.2.2) hpack⟩

section
variable {d : DnsResponder} {bytes : List UInt8} {rr : DnsRr} {start dns : Dns}

/-- The reply is as long as the message that was packed. -/
theorem Replied.length (h : d.Replied bytes rr start dns) :
    ((d.reply bytes).length : Int) = (dnsPack dns).2 ∧ 12 ≤ (d.reply bytes).length := by
  have hstart := h.packed.packing.start
  have hlen : (dnsPack dns).2 = dns.ptr - dns.buf := rfl
  unfold reply
  rw [length_readAt, h.ret]
  omega

/-- The reply has the id of the query. -/
theorem Replied.id_eq (h : d.Replied bytes rr start dns) {id : UInt16} (hlen : 12 ≤ bytes.length)
    (hid : bytes.take 2 = bytes16 (htons id.toNat)) :
    (d.reply bytes).take 2 = bytes16 (htons id.toNat) := by
  obtain ⟨got, hunpack, -, -, ⟨v, hv, hbytes⟩, -⟩ := dnsReceived d.queryMem d.queryBuf hlen
  have hgot : (dnsUnpack (d.query bytes)).1 = got := congrArg Prod.fst hunpack
  obtain ⟨hbuf, -, hsame, -⟩ := h.start.packed h.packed
  have hdns : UInt16.ofInt dns.id = id := by
    rw [hsame, hgot, hv, ofInt_toNat]
    exact bytes16_htons_inj (hbytes.trans hid)
  obtain ⟨hword, -⟩ :=
    dnsPack_word dns (show (dnsPack dns).1.mem = (dnsPack dns).1.mem from rfl) rfl
  have hlen' := h.length
  rw [reply, length_readAt] at hlen'
  have hmem : readAt (d.packed bytes).1.mem d.replyBuf 2
      = bytes16 (htons ((dnsPack dns).1.word 0).toNat) := by
    rw [Dns.word, bytes16_word, Int.add_zero, h.mem, ← hbuf]
    rfl
  rw [reply, take_readAt _ _ (by omega), hmem, hword, hdns]

/-- What is read of the reply, wherever it is and whatever id it has then. -/
theorem Replied.reads (h : d.Replied bytes rr start dns) (mem : Int → UInt8) {buf : Int}
    {relayed : List UInt8} (hbuf : 0 < buf) (hlen : relayed.length = (d.reply bytes).length)
    (hrest : relayed.drop 2 = (d.reply bytes).drop 2) :
    let got := dnsReceive (writeAt mem buf relayed) buf relayed.length
    got.qr = 1 ∧ ∃ rrs, dnsReadRrs 3 got = some rrs ∧ rrs.map DnsRr.content
      = [(dnsQuestionInA rr.name).carried, (dnsAnswerInA rr.name d.addr d.ttl).carried] := by
  intro got
  obtain ⟨hsize, htwelve⟩ := h.length
  obtain ⟨hdnsBuf, -, -, hflags, -⟩ := h.start.packed h.packed
  have hread : d.reply bytes = readAt (dnsPack dns).1.mem dns.buf (d.reply bytes).length := by
    rw [reply, length_readAt, h.mem, hdnsBuf]
  have hsame : SameBehindId (dnsPack dns).1.mem dns.buf (writeAt mem buf relayed) buf
      (d.reply bytes).length := sameBehindId_write hlen (by rw [hrest, ← hread])
  have hgot : got = dnsReceive (writeAt mem buf relayed) buf (dnsPack dns).2 := by
    show dnsReceive (writeAt mem buf relayed) buf relayed.length = _
    rw [hlen, hsize]
  rw [hsize] at hsame
  have hcounted : ∀ k ∈ [dnsQuestionInA rr.name, dnsAnswerInA rr.name d.addr d.ttl],
      k.counted = true := by
    intro k hk
    simp only [List.mem_cons, List.not_mem_nil, or_false] at hk
    rcases hk with rfl | rfl <;> rfl
  obtain ⟨hqrcount, hancount, hnscount, harcount⟩ := h.start.counts
  obtain ⟨rrs, hrrs, hcontent⟩ := h.packed.reads_at h.start.fresh.ptr hqrcount hancount hnscount
    harcount
    (List.pairwise_pair.mpr (show (1 : Int) ≤ 2 by decide)) hcounted (show 2 ≤ 255 by decide)
    (fun k hk => Or.inl (by rw [List.mem_singleton.mp hk]; rfl)) hbuf hsame
  obtain ⟨hqr, -⟩ := hsame.receive (by omega)
  obtain ⟨-, hpackedQr, -⟩ := dnsReceive_dnsPack dns
  rw [hgot]
  refine ⟨?_, rrs, hrrs, hcontent⟩
  rw [hqr, hpackedQr, hflags]

end

end DnsResponder

/-! ### The client -/

/-- The id of a reply is passed on. -/
theorem dnsResolveReply_id {rand : Nat → Nat} {fuel : Nat} {mem : Int → UInt8} {buf buflen : Int}
    {hosts : Nat → DnsRr} {maxhosts : Nat} {r : DnsResolved}
    (hrun : dnsResolveReply rand fuel mem buf buflen hosts maxhosts = some r) (hret : 0 < r.ret) :
    r.id = some (dnsReceive mem buf buflen).id := by
  have hunpack : (dnsUnpack (dnsInit mem buf buflen).1).1 = dnsReceive mem buf buflen := rfl
  unfold dnsResolveReply at hrun
  dsimp only at hrun
  split at hrun
  · rw [← Option.some.inj hrun] at hret
    exact absurd hret (show ¬(0 : Int) < -1 by decide)
  split at hrun
  · rw [← Option.some.inj hrun]
    rfl
  obtain ⟨h, -, rfl⟩ := Option.map_eq_some_iff.mp hrun
  rw [hunpack]
  split
  · rfl
  split
  · rfl
  split
  · rfl
  · rfl

/-- A question and one address of its name: the address is chosen, unless the draw is above it. -/
theorem dnsResolveReply_answered (rand : Nat → Nat) {fuel : Nat} {mem : Int → UInt8}
    {buf buflen : Int} (hosts : Nat → DnsRr) {maxhosts : Nat} {asked addr : DnsRr}
    (h : Decodable fuel mem buf buflen [asked, addr] asked) (hroom : 4 < maxhosts)
    (hasked : asked.isAddr = false ∧ asked.isCname = false) (haddr : addr.isAddr = true)
    (hname : addr.name = asked.name) :
    ∃ r, dnsResolveReply rand fuel mem buf buflen hosts maxhosts = some r ∧ r.ret = 4 ∧
      r.entries = [asked, addr, DnsRr.zero] ∧
      r.hosts 0 = if rand 2 < 2 then addr else DnsRr.zero := by
  have hderived : ∀ {entries : List DnsRr}, derivedHosts entries [asked, addr] = [] := by
    refine derivedHosts_of_no_cname fun rr hrr => ?_
    rcases List.mem_cons.mp hrr with rfl | hrr
    · exact hasked.2
    · rw [List.mem_singleton.mp hrr]
      exact DnsRr.not_isCname_of_isAddr haddr
  have haddrs : hostAddrs [asked, addr] = [addr] := by
    rw [hostAddrs, hderived, List.append_nil, List.filter_cons_of_neg (by rw [hasked.1]; decide),
      List.filter_cons_of_pos haddr, List.filter_nil]
  have hnamed : addrsNamed [asked, addr] asked.name = 1 := by
    rw [addrsNamed, haddrs, ← hname]
    simp [strcasecmpEq]
  have hfit : HostsFit [asked, addr] maxhosts := by
    unfold HostsFit
    rw [hderived]
    exact ⟨hroom, show 4 ≤ maxhosts by omega⟩
  obtain ⟨r, hr, hret, hentries, hhost⟩ := dnsResolveReply_spec rand hosts h hfit
  rw [hderived] at hentries
  rw [hnamed, haddrs] at hhost
  refine ⟨r, hr, ?_, hentries, ?_⟩
  · -- There are as many entries as the result says.
    have hcount := congrArg List.length hentries
    rw [DnsResolved.entries, List.length_map, List.length_range'] at hcount
    simp only [List.length_append, List.length_cons, List.length_nil] at hcount
    omega
  · rw [hhost]
    by_cases hdraw : rand 2 < 2
    · rw [if_pos hdraw, show rand (1 + 1) - 1 = 0 by show rand 2 - 1 = 0; omega]
      rfl
    · rw [if_neg hdraw, List.getElem?_eq_none (by show 1 ≤ rand 2 - 1; omega)]
      rfl

/-! ### Through the proxy -/

/-- What the client finds in the reply: its own id, and the answer to the question. -/
structure LookupFinds (r : DnsResolved) (rand : Nat → Nat) (id : List UInt8) (name : List UInt8)
    (addr ttl : UInt32) : Prop where
  ret : r.ret = 4
  id : ∃ v : UInt16, r.id = some (v.toNat : Int) ∧ bytes16 (htons v.toNat) = id
  entries : r.entries.map DnsRr.content
    = [dnsQuestionInA name, dnsAnswerInA name addr ttl, DnsRr.zero]
  host : (r.hosts 0).content = if rand 2 < 2 then dnsAnswerInA name addr ttl else DnsRr.zero

/-- The client reads a reply that was relayed to it. -/
theorem DnsResponder.Replied.found {d : DnsResponder} {bytes : List UInt8} {rr : DnsRr}
    {start dns : Dns} (h : d.Replied bytes rr start dns) {relayed : List UInt8}
    (hlen : relayed.length = (d.reply bytes).length)
    (hrest : relayed.drop 2 = (d.reply bytes).drop 2) (rand : Nat → Nat) (mem : Int → UInt8)
    {buf : Int} (hbuf : 0 < buf) (hosts : Nat → DnsRr) {maxhosts : Nat} (hroom : 4 < maxhosts) :
    ∃ r, dnsResolveReply rand 3 (writeAt mem buf relayed) buf relayed.length hosts maxhosts
        = some r ∧
      LookupFinds r rand (relayed.take 2) rr.name d.addr d.ttl := by
  obtain ⟨hqr, rrs, hrrs, hcontent⟩ := h.reads mem hbuf hlen hrest
  obtain ⟨asked, rest, rfl, hasked, hrest'⟩ := List.map_eq_cons_iff.mp hcontent
  obtain ⟨addr, rest', rfl, haddr, hnil⟩ := List.map_eq_cons_iff.mp hrest'
  obtain rfl := List.map_eq_nil_iff.mp hnil
  -- Neither the section, nor the type, nor the name is lost.
  have haskedSection : asked.rrSection = DNS_RR_QUESTION := congrArg DnsRr.rrSection hasked
  have haddrSection : addr.rrSection = DNS_RR_ANSWER := congrArg DnsRr.rrSection haddr
  have haddrType : addr.rrType = DNS_TYPE_A := congrArg DnsRr.rrType haddr
  have hname : addr.name = asked.name :=
    (congrArg DnsRr.name haddr).trans (congrArg DnsRr.name hasked).symm
  have hdecodable :
      Decodable 3 (writeAt mem buf relayed) buf relayed.length [asked, addr] asked := by
    refine ⟨by rw [hqr]; decide, ⟨_, hrrs, ?_⟩, ?_⟩
    · simp [DnsRr.listed, haskedSection, haddrSection]
    · simp [haskedSection]
  obtain ⟨r, hr, hret, hentries, hhost⟩ := dnsResolveReply_answered rand hosts hdecodable hroom
    ⟨by simp [DnsRr.isAddr, haskedSection, DNS_RR_QUESTION, DNS_RR_ANSWER],
      by simp [DnsRr.isCname, haskedSection, DNS_RR_QUESTION, DNS_RR_ANSWER]⟩
    (decide_eq_true ⟨haddrSection, haddrType⟩) hname
  obtain ⟨-, htwelve⟩ := h.length
  obtain ⟨got, hunpack, -, -, ⟨v, hv, hbytes⟩, -⟩ :=
    dnsReceived mem buf (show 12 ≤ relayed.length by omega)
  have hid := dnsResolveReply_id hr (by rw [hret]; decide)
  have hgot : (dnsReceive (writeAt mem buf relayed) buf relayed.length).id = v.toNat := by
    rw [← hv]
    exact congrArg (fun p => p.1.id) hunpack
  refine ⟨r, hr, hret, ⟨v, by rw [hid, hgot], hbytes⟩, ?_, ?_⟩
  · rw [hentries]
    simp only [List.map_cons, List.map_nil, hasked, haddr]
    rfl
  · rw [hhost]
    split
    · exact haddr
    · rfl

/-- A lookup through the proxy. In every run, a request that is forwarded without an error is sent
under an id that was free. When all that arrives behind it keeps it, the reply of a server that accepts
this message goes to the client of the request, and `dns_resolve_reply` gives this client its own id
and the address that the server has packed. -/
theorem dns_lookup (addrOf : Nat → Nat) (sock : Int) (forwardAddrs : List SockaddrIn)
    (arrivals : List DnsProxyArrival) (mem : Int → UInt8) (buf : Int) (bytes : List UInt8)
    (origSock : Int) (origAddr : SockaddrIn) (now : Int) (rand : Nat → UInt16) (sendto : Nat → Int)
    (hok : (dnsProxyForward addrOf (run (DnsProxyRun.arrive addrOf)
      (dnsProxyStart sock forwardAddrs) arrivals).proxy mem buf bytes origSock origAddr now rand
      sendto).err = 0) :
    let s := run (DnsProxyRun.arrive addrOf) (dnsProxyStart sock forwardAddrs) arrivals
    let f := dnsProxyForward addrOf s.proxy mem buf bytes origSock origAddr now rand sendto
    let s' := s.step addrOf (.request mem buf bytes origSock origAddr now rand sendto)
    ∃ j : Nat, s.FirstFree rand j ∧
      let message := bytes16 (htons (rand j).toNat) ++ bytes.drop 2
      (∀ sent ∈ f.sent, sent.bytes = message) ∧
      ∀ later : List DnsProxyArrival,
        AllSteps (fun s a => a.Keeps (rand j) (now + dnsProxyExpireReq) s)
          (DnsProxyRun.arrive addrOf) s' later →
        ∀ (d : DnsResponder) (rr : DnsRr), d.Answers message rr →
        ∀ (replyMem : Int → UInt8) (replyBuf : Int), ∃ relay : UdpSend,
          (dnsProxySelectRecv (run (DnsProxyRun.arrive addrOf) s' later).proxy replyMem replyBuf
            (some (d.reply message))).2 = some relay ∧
          relay.sock = origSock ∧ relay.addr = origAddr ∧
          ∀ (draw : Nat → Nat) (clientMem : Int → UInt8) (clientBuf : Int) (hosts : Nat → DnsRr)
            (maxhosts : Nat), 0 < clientBuf → 4 < maxhosts →
            ∃ r, dnsResolveReply draw 3 (writeAt clientMem clientBuf relay.bytes) clientBuf
                relay.bytes.length hosts maxhosts = some r ∧
              LookupFinds r draw (bytes.take 2) rr.name d.addr d.ttl := by
  intro s f s'
  obtain ⟨reqs, h⟩ := dnsProxyOwned_arrivals addrOf sock forwardAddrs arrivals
  obtain ⟨j, reqs', hfirst, htwelve, hsent, hawaits, hpending⟩ :=
    dnsProxyAwaits_request addrOf h mem buf bytes origSock origAddr now rand sendto hok
  refine ⟨j, h.firstFree hfirst, hsent, fun later hlater d rr hanswers replyMem replyBuf => ?_⟩
  have hkept := (dnsProxyAwaits_run addrOf hawaits hpending later).mpr hlater
  obtain ⟨reqs'', hstill⟩ := dnsProxyAwaits_later addrOf hawaits later
  -- The message that the server gets has the id of the proxy, and so has its reply.
  have hmessage : 12 ≤ (bytes16 (htons (rand j).toNat) ++ bytes.drop 2).length := by
    rw [List.length_append, length_bytes16, List.length_drop]
    omega
  generalize hbytes : bytes16 (htons (rand j).toNat) ++ bytes.drop 2 = message
    at hanswers hmessage ⊢
  have hid : message.take 2 = bytes16 (htons (rand j).toNat) := by
    rw [← hbytes]
    rfl
  obtain ⟨start, dns, hreplied⟩ := hanswers.replied
  obtain ⟨hsize, hheader⟩ := hreplied.length
  have hrelay := hstill.owned.delivers hkept replyMem replyBuf (d.reply message) hheader
    (hreplied.id_eq hmessage hid)
  -- The proxy receives all of the reply.
  have hwhole : dnsProxyReceived (d.reply message) = d.reply message := by
    refine List.take_of_length_le ?_
    have hinside := hreplied.inside
    have hmax := hanswers.max
    have hret : (dnsPack dns).2 = dns.ptr - dns.buf := rfl
    have hbuf := (hreplied.start.packed hreplied.packed).1
    omega
  rw [hwhole] at hrelay
  have htwo : (bytes.take 2).length = 2 := by
    rw [List.length_take]
    omega
  have hfull : (bytes.take 2 ++ (d.reply message).drop 2).length = (d.reply message).length := by
    rw [List.length_append, List.length_drop, htwo]
    omega
  have hrest : (bytes.take 2 ++ (d.reply message).drop 2).drop 2 = (d.reply message).drop 2 := by
    rw [List.drop_append_of_le_length (by omega), List.drop_of_length_le (by omega),
      List.nil_append]
  refine ⟨_, hrelay, rfl, rfl, fun draw clientMem clientBuf hosts maxhosts hbuf hroom => ?_⟩
  obtain ⟨r, hr, hfinds⟩ := hreplied.found hfull hrest draw clientMem hbuf hosts hroom
  refine ⟨r, hr, ?_⟩
  rwa [List.take_append_of_le_length (by omega), List.take_of_length_le (by omega)] at hfinds

/-! A query of the id 100 for the name `a`. The proxy draws 7, and a poll and a datagram with the id 8
come before the reply. -/

/-- A server that knows an address for every name. -/
def responderA : DnsResponder :=
  ⟨id, datagram (askedDatagram 1), 1, fun _ => 0, 1, 64, 0x0100007f, 60⟩

/-- The sample responder answers the sample query. -/
theorem responderA_answers : responderA.Answers (askedDatagram 1) (askedQuestion 1) := by
  have hquery : responderA.query (askedDatagram 1) = askedQuery 1 := by
    unfold DnsResponder.query askedQuery
    rw [show writeAt responderA.queryMem responderA.queryBuf (askedDatagram 1)
        = datagram (askedDatagram 1) from
      (writeAt_eq_self_iff _ _ _).mpr (by decide +kernel)]
    rfl
  obtain ⟨haccepts, hasked⟩ := askedQuery_accepted 1 (Or.inl rfl)
  exact ⟨by rw [hquery]; exact haccepts, by rw [hquery]; exact hasked, nameCanonical_a.labels,
    show (12 : Int) + (1 : Nat) + 22 ≤ 64 by decide, show (64 : Int) ≤ (4096 : Nat) by decide⟩

/-- What the client sends. -/
def lookupDatagram : List UInt8 := [0, 100] ++ (askedDatagram 1).drop 2

/-- A lookup through the proxy, with another datagram arriving first. -/
theorem dns_lookup_a :
    ∃ (relay : UdpSend) (r : DnsResolved),
      (dnsProxySelectRecv (run (DnsProxyRun.arrive id) ((dnsProxyStart 3 [⟨2, 53⟩]).step id
        (.request (fun _ => 0) 1 lookupDatagram 4 ⟨1, 1000⟩ 0 (fun _ => 7) fun _ => 19))
        [.event (.poll 5), .datagram (fun _ => 0) 1 (some (headerDatagram 8))]).proxy (fun _ => 0) 1
        (some (responderA.reply (askedDatagram 1)))).2 = some relay ∧
      relay.sock = 4 ∧ relay.addr = ⟨1, 1000⟩ ∧
      dnsResolveReply (fun _ => 0) 3 (writeAt (fun _ => 0) 1 relay.bytes) 1 relay.bytes.length
        (fun _ => DnsRr.zero) 5 = some r ∧
      LookupFinds r (fun _ => 0) [0, 100] [97] 0x0100007f 60 := by
  have hok : (dnsProxyForward id (dnsProxyNew 3 [⟨2, 53⟩]) (fun _ => 0) 1 lookupDatagram 4
      ⟨1, 1000⟩ 0 (fun _ => 7) fun _ => 19).err = 0 :=
    dnsProxyForward_plain id (dnsProxyTable_new 3 [⟨2, 53⟩]) (fun _ => 0) 4 ⟨1, 1000⟩ 0 (fun _ => 7)
      (fun _ => 19) (by decide) (by decide) (by decide) ⟨0, by decide, rfl⟩
  obtain ⟨j, -, -, hall⟩ := dns_lookup id 3 [⟨2, 53⟩] [] (fun _ => 0) 1 lookupDatagram 4 ⟨1, 1000⟩ 0
    (fun _ => 7) (fun _ => 19) hok
  obtain ⟨relay, hrelay, hsock, haddr, hclient⟩ := hall
    [.event (.poll 5), .datagram (fun _ => 0) 1 (some (headerDatagram 8))]
    ⟨fun _ => by decide, fun _ hd hhas => absurd (Option.some.inj hd ▸ hhas.2) (by decide), trivial⟩
    responderA (askedQuestion 1) responderA_answers (fun _ => 0) 1
  obtain ⟨r, hr, hfinds⟩ :=
    hclient (fun _ => 0) (fun _ => 0) 1 (fun _ => DnsRr.zero) 5 (by decide) (by decide)
  exact ⟨relay, r, hrelay, hsock, haddr, hr, hfinds⟩

end Bklib
