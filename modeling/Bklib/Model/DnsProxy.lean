import Bklib.Model.Dns

/-!
# `Bklib.Model.DnsProxy`: `dns_proxy.c`

The proxy gives every request an id of its own and keeps the request in a table under this id. The
requests are embedded in the nodes of the table.

What the system does is a parameter: `rand i` is the `i`-th draw of `rand_u32 (0xffff)`, and
`sendto i` is the result of `sendto` for the `i`-th server. A message is received at `buf`, in memory
that has anything else in it. A time is an integer: only the order of times counts.

The host name of a request, which is for debugging, and the debug output are left out. The allocations
succeed.
-/

set_option autoImplicit false

namespace Bklib

open Bklib.Lib

/-- `DNS_PROXY_EXPIRE_REQ`. -/
def dnsProxyExpireReq : Int := 10

/-- `DNS_PROXY_EXPIRE_POLL`. -/
def dnsProxyExpirePoll : Int := 1

/-- `struct sockaddr_in`. -/
structure SockaddrIn where
  sinAddr : UInt32
  sinPort : UInt16
  deriving DecidableEq

/-- `dns_proxy_req_t`. -/
structure DnsProxyReq where
  id : Int
  origId : Int
  origAddr : SockaddrIn
  origSock : Int
  expire : Int
  deriving DecidableEq

/-- `sizeof (dns_proxy_req_t)`. -/
def dnsProxyReqSize : Nat := 1064

/-- `dns_proxy_t`. -/
structure DnsProxy where
  sock : Int
  forwardAddrs : List SockaddrIn
  reqHashId : HashT UInt64 DnsProxyReq
  expire : Int
  mstime : Int

/-- `dns_proxy_new`, when the socket is `sock`. -/
def dnsProxyNew (sock : Int) (forwardAddrs : List SockaddrIn) : DnsProxy where
  sock := sock
  forwardAddrs := forwardAddrs
  reqHashId := hashInit hashHashInt hashCmpInt 0 dnsProxyReqSize 0
  expire := 0
  mstime := 0

/-- The key of an id: the number as a pointer. -/
def dnsProxyKey (id : Int) : UInt64 := UInt64.ofInt id

/-! ## Expiry -/

/-- `dns_proxy_foreach_expire`. The argument is `proxy->mstime`. -/
def dnsProxyForeachExpire (hash : HashT UInt64 DnsProxyReq) (node : NodeRef) (mstime : Int) :
    HashT UInt64 DnsProxyReq × Int × Int :=
  match hash.readVal node with
  | none     => (hash, mstime, 0)
  | some req => (if mstime > req.expire then hashFree hash (some node) else hash, mstime, 0)

/-- `dns_proxy_poll`. -/
def dnsProxyPoll (proxy : DnsProxy) (mstime : Int) : DnsProxy × Int :=
  let proxy := { proxy with mstime }
  if proxy.mstime < proxy.expire then (proxy, 0)
  else
    let proxy := { proxy with expire := proxy.mstime + dnsProxyExpirePoll }
    let (hash, _, err) := hashForeach dnsProxyForeachExpire proxy.reqHashId proxy.mstime
    ({ proxy with reqHashId := hash }, err)

/-! ## Requests -/

/-- A call of `sendto`. -/
structure UdpSend where
  sock : Int
  addr : SockaddrIn
  bytes : List UInt8
  deriving DecidableEq

/-- The loop of `dns_proxy_forward` that draws an id, `n` more times from draw `i` on: the table, the
node that the last `hash_get` found, and the id when it found none. -/
def dnsProxyNewId (rand : Nat → UInt16) :
    Nat → Nat → HashT UInt64 DnsProxyReq → Option NodeRef →
      HashT UInt64 DnsProxyReq × Option NodeRef × Option Int
  | 0,     _, hash, node => (hash, node, none)
  | n + 1, i, hash, _    =>
      let id : Int := (rand i).toNat
      let (hash, node) := hashGet hash (dnsProxyKey id)
      match node with
      | none      => (hash, none, some id)
      | some node => dnsProxyNewId rand n (i + 1) hash (some node)

/-- The loop that sends a message to the servers, the last one first: the calls that went well. The
assert for one that did not leaves the loop only. The index of a server is the number of those behind
it in this list. -/
def dnsProxySendAll (sendto : Nat → Int) (sock : Int) (bytes : List UInt8) :
    List SockaddrIn → List UdpSend
  | []            => []
  | addr :: addrs =>
      if sendto addrs.length ≠ bytes.length then []
      else ⟨sock, addr, bytes⟩ :: dnsProxySendAll sendto sock bytes addrs

/-- The bytes of a message. -/
def Dns.bytes (dns : Dns) : List UInt8 := readAt dns.mem dns.buf dns.buflen.toNat

/-- What a call of `dns_proxy_forward` leaves behind: the proxy, the result, the request that was saved
by its new id, if it came to that, and what was sent. -/
structure DnsProxyForward where
  proxy : DnsProxy
  err : Int
  saved : Option DnsProxyReq
  sent : List UdpSend

/-- `dns_proxy_forward` for the bytes at `buf`. -/
def dnsProxyForward (addrOf : Nat → Nat) (proxy : DnsProxy) (mem : Int → UInt8) (buf : Int)
    (bytes : List UInt8) (origSock : Int) (origAddr : SockaddrIn) (now : Int) (rand : Nat → UInt16)
    (sendto : Nat → Int) : DnsProxyForward :=
  let (dns, i) := dnsInit (writeAt mem buf bytes) buf bytes.length
  if i < 0 then ⟨proxy, -1, none, []⟩
  else
    let (dns, i) := dnsUnpack dns
    if i < 0 then ⟨proxy, -1, none, []⟩
    else
      let origId := dns.id
      let (dns, _, _) := dnsCheckQueryInA dns 1024
      let (hash, node, id) := dnsProxyNewId rand 1000 0 proxy.reqHashId none
      match id with
      | none    =>
          -- All draws were in use, and `node` is the request of the last one.
          ⟨{ proxy with reqHashId := hashFree hash node }, -1, none, []⟩
      | some id =>
          let req : DnsProxyReq := ⟨id, origId, origAddr, origSock, now + dnsProxyExpireReq⟩
          let (hash, node) := hashPut addrOf hash (dnsProxyKey id) (some req)
          let (dns, i) := dnsPack { dns with id }
          if i < 0 then ⟨{ proxy with reqHashId := hashFree hash node }, -1, some req, []⟩
          else
            ⟨{ proxy with reqHashId := hash }, 0, some req,
              dnsProxySendAll sendto proxy.sock dns.bytes proxy.forwardAddrs.reverse⟩

/-! ## Replies -/

/-- The size of the buffer of `dns_proxy_select_recv`. -/
def dnsProxyRecvMax : Nat := 4096

/-- `dns_proxy_select_recv` when `recvfrom` puts `bytes` at `buf`, or fails: the proxy, and the call of
`sendto`. -/
def dnsProxySelectRecv (proxy : DnsProxy) (mem : Int → UInt8) (buf : Int)
    (recvfrom : Option (List UInt8)) : DnsProxy × Option UdpSend :=
  match recvfrom with
  | none       => (proxy, none)
  | some bytes =>
      let bytes := bytes.take dnsProxyRecvMax
      if bytes = [] then (proxy, none)
      else
        let (dns, i) := dnsInit (writeAt mem buf bytes) buf bytes.length
        if i < 0 then (proxy, none)
        else
          let (dns, i) := dnsUnpack dns
          if i < 0 then (proxy, none)
          else
            let (hash, node) := hashGet proxy.reqHashId (dnsProxyKey dns.id)
            match node.bind hash.readVal with
            | none     => ({ proxy with reqHashId := hash }, none)
            | some req =>
                -- The request goes with the first reply, whether it can be relayed or not.
                let proxy := { proxy with reqHashId := hashFree hash node }
                let (dns, i) := dnsPack { dns with id := req.origId }
                if i < 0 then (proxy, none)
                else (proxy, some ⟨req.origSock, req.origAddr, dns.bytes⟩)

/-! ## Clients and servers -/

/-- A request that was saved: its number, the id that it got, and what the client sent. -/
structure DnsProxyQuery where
  number : Nat
  id : UInt16
  bytes : List UInt8
  sock : Int
  addr : SockaddrIn
  deriving DecidableEq

/-- The proxy among its clients and servers. `owner` has the request that an id was given to last, and
`flight` the replies to come: a request once for each server that it was sent to and that has not
answered. -/
structure DnsProxyRun where
  proxy : DnsProxy
  count : Nat
  owner : UInt16 → Option DnsProxyQuery
  flight : List DnsProxyQuery

/-- What can happen. -/
inductive DnsProxyEvent where
  /-- A client sends a request. -/
  | request (mem : Int → UInt8) (buf : Int) (bytes : List UInt8) (sock : Int) (addr : SockaddrIn)
      (now : Int) (rand : Nat → UInt16) (sendto : Nat → Int)
  /-- The reply at place `r` of `flight` arrives. It has the id of its request and `answer` behind
  it. -/
  | reply (mem : Int → UInt8) (buf : Int) (r : Nat) (answer : List UInt8)
  /-- `dns_proxy_poll` is called. -/
  | poll (mstime : Int)

/-- The reply of a server to a request: the id, in network order, and what is behind it. -/
def DnsProxyQuery.reply (query : DnsProxyQuery) (answer : List UInt8) : List UInt8 :=
  bytes16 (htons query.id.toNat) ++ answer

/-- A request is saved. -/
def DnsProxyRun.save (s : DnsProxyRun) (f : DnsProxyForward) (query : DnsProxyQuery) : DnsProxyRun where
  proxy := f.proxy
  count := s.count + 1
  owner := Function.update s.owner query.id (some query)
  flight := s.flight ++ List.replicate f.sent.length query

/-- One step. -/
def DnsProxyRun.step (addrOf : Nat → Nat) (s : DnsProxyRun) : DnsProxyEvent → DnsProxyRun
  | .request mem buf bytes sock addr now rand sendto =>
      let f := dnsProxyForward addrOf s.proxy mem buf bytes sock addr now rand sendto
      match f.saved with
      | none     => { s with proxy := f.proxy }
      | some req => s.save f ⟨s.count, UInt16.ofInt req.id, bytes, sock, addr⟩
  | .reply mem buf r answer =>
      match s.flight[r]? with
      | none       => s
      | some query =>
          { s with
            proxy := (dnsProxySelectRecv s.proxy mem buf (some (query.reply answer))).1
            flight := s.flight.eraseIdx r }
  | .poll mstime => { s with proxy := (dnsProxyPoll s.proxy mstime).1 }

/-- What can arrive at the proxy: what its clients and servers send, and any datagram at all, from
whomever it comes and however often, since `recvfrom` takes it without a look at the sender. -/
inductive DnsProxyArrival where
  | event (e : DnsProxyEvent)
  | datagram (mem : Int → UInt8) (buf : Int) (recvfrom : Option (List UInt8))

/-- One step of the proxy among all that can send to it. -/
def DnsProxyRun.arrive (addrOf : Nat → Nat) (s : DnsProxyRun) : DnsProxyArrival → DnsProxyRun
  | .event e                   => s.step addrOf e
  | .datagram mem buf recvfrom =>
      { s with proxy := (dnsProxySelectRecv s.proxy mem buf recvfrom).1 }

/-- The start. -/
def dnsProxyStart (sock : Int) (forwardAddrs : List SockaddrIn) : DnsProxyRun :=
  ⟨dnsProxyNew sock forwardAddrs, 0, fun _ => none, []⟩

end Bklib
