import Bklib.Model.Dns

/-!
# `Bklib.Model.DnsResolve`: `dns.c`, replies and queries for an address

`dns_pack_reply_in_a` answers a query that `dns_check_query_in_a` accepts, `dns_resolve_query` makes a
query for an address, and `dns_resolve_reply` lists the records of the reply to it and chooses an
address from them.

The array `hosts` is a function of the index, so that an entry behind `maxhosts` could be seen to
change. `rand` is `rand_u32`, which computes with floating point numbers. The two messages of
`dns_pack_reply_in_a` lie in memories of their own. `dns_free` and the debug output are left out.
-/

set_option autoImplicit false

namespace Bklib

/-! ## Replies -/

/-- The question for the address of a host, in `rr`. -/
def dnsQuestionInA (hostname : List UInt8) : DnsRr :=
  { DnsRr.zero with
    rrSection := DNS_RR_QUESTION
    name := hostname.take dnsNameMax
    rrType := DNS_TYPE_A
    rrClass := DNS_CLASS_IN }

/-- The answer with the address of a host, in `rr`. -/
def dnsAnswerInA (hostname : List UInt8) (addr ttl : UInt32) : DnsRr :=
  { DnsRr.zero with
    rrSection := DNS_RR_ANSWER
    name := hostname.take dnsNameMax
    rrType := DNS_TYPE_A
    rrClass := DNS_CLASS_IN
    ttl
    rdataAddr := addr }

/-- `dns_pack_reply_in_a`: the reply, the query and the result. What the calls of `dns_rr_pack` return
is not looked at. -/
def dnsPackReplyInA (addrOf : Nat → Nat) (reply query : Dns) (addr ttl : UInt32) : Dns × Dns × Int :=
  let (query, i, hostname) := dnsCheckQueryInA query (dnsNameMax + 1)
  if i < 0 then (reply, query, -1)
  else
    let reply :=
      { reply with opcode := query.opcode, id := query.id, qr := 1, rcode := query.rcode, aa := 0 }
    let (reply, _, _) := dnsRrPack addrOf (dnsRrRewind reply) (dnsQuestionInA hostname)
    let (reply, _, _) := dnsRrPack addrOf reply (dnsAnswerInA hostname addr ttl)
    let (reply, i) := dnsPack reply
    (reply, query, i)

/-! ## Queries -/

/-- `dns_pack_query_in_a`: the query and the result. The assert takes the 1 of a call that succeeds for
an error. -/
def dnsPackQueryInA (addrOf : Nat → Nat) (query : Dns) (hostname : List UInt8) (id : Int) :
    Dns × Int :=
  let query := { query with opcode := DNS_OPCODE_QUERY, id, qr := 0, rcode := 0, aa := 0, rd := 1 }
  let (query, _, i) := dnsRrPack addrOf (dnsRrRewind query) (dnsQuestionInA hostname)
  if i ≠ 0 then (query, -1) else dnsPack query

/-- `dns_resolve_query`: the query, with the memory that it leaves, and the result. -/
def dnsResolveQuery (addrOf : Nat → Nat) (mem : Int → UInt8) (buf buflen : Int)
    (hostname : List UInt8) (id : Int) : Dns × Int :=
  dnsPackQueryInA addrOf (dnsInit mem buf buflen).1 hostname id

/-! ## The records of a reply -/

/-- `hosts`, `nhosts`, which is one more than the index of the last record, and `qidx`. -/
structure DnsHosts where
  hosts : Nat → DnsRr
  nhosts : Nat
  qidx : Int

/-- `hosts[n] = rr`. -/
def DnsHosts.set (h : DnsHosts) (n : Nat) (rr : DnsRr) : DnsHosts :=
  { h with hosts := Function.update h.hosts n rr }

/-- `hosts[1]` to `hosts[nhosts-1]`. -/
def DnsHosts.entries (h : DnsHosts) : List DnsRr := (List.range' 1 (h.nhosts - 1)).map h.hosts

/-- The record is an answer of type A. -/
def DnsRr.isAddr (rr : DnsRr) : Bool := rr.rrSection = DNS_RR_ANSWER ∧ rr.rrType = DNS_TYPE_A

/-- The record is an answer of type CNAME. -/
def DnsRr.isCname (rr : DnsRr) : Bool := rr.rrSection = DNS_RR_ANSWER ∧ rr.rrType = DNS_TYPE_CNAME

/-- `memset (hosts, 0, maxhosts*sizeof(*hosts))`. -/
def dnsHostsClear (hosts : Nat → DnsRr) (maxhosts : Nat) : Nat → DnsRr := fun n =>
  if n < maxhosts then DnsRr.zero else hosts n

/-- The loop that copies the questions and the answers, with at most `fuel` calls of `dns_rr_pack`, or
`none` when they are not enough. An assert that fails leaves this loop only. -/
def dnsHostsRead (maxhosts : Nat) : Nat → Dns → DnsHosts → Option DnsHosts
  | 0,        _,   _ => none
  | fuel + 1, dns, h =>
      let (dns, rr, i) := dnsRrUnpack dns
      if i ≤ 0 then some h
      else if ¬(rr.rrSection = DNS_RR_ANSWER ∨ rr.rrSection = DNS_RR_QUESTION) then
        dnsHostsRead maxhosts fuel dns h
      else
        let h := { h.set (h.nhosts - 1) rr with nhosts := h.nhosts + 1 }
        if ¬h.nhosts < maxhosts then some h else dnsHostsRead maxhosts fuel dns h

/-- The record that the loop over `j` stops at: the first one with an address of `name`. -/
def DnsHosts.addrFor (h : DnsHosts) (name : List UInt8) : Option DnsRr :=
  h.entries.find? fun rr => rr.isAddr && strcasecmpEq rr.name name

/-- `hosts[n] = hosts[i]` with the type and the data of an address. -/
def DnsRr.withAddr (rr addr : DnsRr) : DnsRr :=
  { rr with rrType := DNS_TYPE_A, rdataAddr := addr.rdataAddr }

/-- The round `i` of the loop that looks up the targets of the CNAMEs, and the first question. The
assert on the room leaves the loop over `j` only. -/
def dnsHostsRound (maxhosts : Nat) (h : DnsHosts) (i : Nat) : DnsHosts :=
  let h :=
    if h.qidx < 0 ∧ (h.hosts i).rrSection = DNS_RR_QUESTION then { h with qidx := i } else h
  if ¬(h.hosts i).isCname then h
  else
    match h.addrFor (h.hosts i).rdataName with
    | none   => h
    | some a =>
        if ¬h.nhosts < maxhosts then h
        else { h.set h.nhosts ((h.hosts i).withAddr a) with nhosts := h.nhosts + 1 }

/-- The loop from `i` on. It ends after `fuel` rounds at the latest when there are no more than
`i + fuel` entries at any time. -/
def dnsHostsLoop (maxhosts : Nat) : Nat → Nat → DnsHosts → DnsHosts
  | 0,        _, h => h
  | fuel + 1, i, h =>
      if ¬i < h.nhosts then h else dnsHostsLoop maxhosts fuel (i + 1) (dnsHostsRound maxhosts h i)

/-- The loop that copies the selected record to `hosts[0]`: the record, when it is reached. -/
def dnsPickHost : Int → List DnsRr → Option DnsRr
  | _, []        => none
  | n, rr :: rrs =>
      if ¬rr.isAddr then dnsPickHost n rrs
      else if 0 < n - 1 then dnsPickHost (n - 1) rrs
      else some rr

/-- What `dns_resolve_reply` leaves behind: the result, `*id` if it is set, and `hosts`. -/
structure DnsResolved where
  ret : Int
  id : Option Int
  hosts : Nat → DnsRr

/-- `dns_resolve_reply`, with at most `fuel` calls of `dns_rr_pack`. -/
def dnsResolveReply (rand : Nat → Nat) (fuel : Nat) (mem : Int → UInt8) (buf buflen : Int)
    (hosts : Nat → DnsRr) (maxhosts : Nat) : Option DnsResolved :=
  let hosts := dnsHostsClear hosts maxhosts
  let (dns, i) := dnsUnpack (dnsInit mem buf buflen).1
  if ¬0 ≤ i ∨ dns.qr = 0 then some ⟨-1, none, hosts⟩
  else if ¬2 < maxhosts then some ⟨-1, some dns.id, hosts⟩
  else
    (dnsHostsRead maxhosts fuel dns ⟨hosts, 2, -1⟩).map fun h =>
      if ¬h.nhosts < maxhosts then ⟨-1, some dns.id, h.hosts⟩
      else
        let h := dnsHostsLoop maxhosts maxhosts 1 h
        if ¬0 < h.qidx then ⟨-1, some dns.id, h.hosts⟩
        else
          let name := (h.hosts h.qidx.toNat).name
          let n := h.entries.countP fun rr => rr.isAddr && strcasecmpEq rr.name name
          match dnsPickHost (rand (n + 1)) h.entries with
          | none    => ⟨h.nhosts, some dns.id, h.hosts⟩
          | some rr => ⟨h.nhosts, some dns.id, (h.set 0 rr).hosts⟩

end Bklib
