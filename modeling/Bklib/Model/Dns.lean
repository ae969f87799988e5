import Bklib.Model.Hash
import Bklib.Model.Libc
import Bklib.Model.Word

/-!
# `Bklib.Model.Dns`: `dns.c`

A message lies in memory at `buf`, up to `bufEnd` (`dns->end`), and `ptr` is where the next resource
record goes or is read from. Names are compressed: `name_hash` has the suffixes that were written,
as text, with the offset from `buf` at which each of them stands.

`stored` and `loaded` are not in the source. They list the ranges of memory that the functions have
written to and read from, an address and a length each, so that bounds can be stated. A range of
other memory, such as the name in a record, is not listed: such a name is the list of its bytes
before the NUL. Lengths and offsets are integers that do not wrap, as a message is no longer than an
`int` can say. The debug output is left out, but for the dumps of a message
(`Bklib.Model.DnsDump`), and the allocations succeed.
-/

set_option autoImplicit false

namespace Bklib

open Bklib.Lib

/-- `DNS_NAME_PTR`. -/
def dnsNamePtr : Nat := 0xc0

/-- `DNS_NAME_MAX`. -/
def dnsNameMax : Nat := 256

/-- `DNS_HDR_LEN`. -/
def dnsHdrLen : Int := 12

/-- `dns_t`, and the memory it points into. -/
structure Dns where
  mem : Int → UInt8
  stored : List (Int × Nat)
  loaded : List (Int × Nat)
  buf : Int
  bufEnd : Int
  ptr : Int
  buflen : Int
  rrIdx : UInt8
  nameHash : Option (HashT (List UInt8) Nat)
  id : Int
  qr : Int
  opcode : Int
  aa : Int
  tc : Int
  rd : Int
  ra : Int
  x3 : Int
  rcode : Int
  qrcount : Int
  ancount : Int
  nscount : Int
  arcount : Int

/-- Store bytes at an address. -/
def Dns.store (dns : Dns) (a : Int) (bs : List UInt8) : Dns :=
  { dns with mem := writeAt dns.mem a bs, stored := dns.stored ++ [(a, bs.length)] }

/-- `dns_init` on a message of `len` bytes at `buf`, and its result. -/
def dnsInit (mem : Int → UInt8) (buf len : Int) : Dns × Int :=
  let dns : Dns :=
    { mem, stored := [], loaded := [], buf, bufEnd := buf + len, ptr := buf + dnsHdrLen,
      buflen := len, rrIdx := 0, nameHash := none, id := 0, qr := 0, opcode := 0, aa := 0, tc := 0,
      rd := 0, ra := 0, x3 := 0, rcode := 0, qrcount := 0, ancount := 0, nscount := 0,
      arcount := 0 }
  (dns, if dns.ptr ≤ dns.bufEnd then 0 else -1)

/-! ## Names -/

/-- The table of names as `dns_pack_name` makes it. The value of a node is an offset, as a pointer
of the caller. `hash_put` copies 256 bytes of the key and `strncpy` clears what is behind its NUL. -/
def dnsNameHashInit : HashT (List UInt8) Nat := hashInit hashHashStr strcmp dnsNameMax 0 0

/-- The table, made when there is none. -/
def Dns.withNameHash (dns : Dns) : Dns :=
  { dns with nameHash := some (dns.nameHash.getD dnsNameHashInit) }

/-- `hash_get` of a name: the offset in the node that it finds. -/
def Dns.nameGet (dns : Dns) (src : List UInt8) : Dns × Option Nat :=
  match dns.nameHash with
  | none      => (dns, none)
  | some hash =>
      let (hash, node) := hashGet hash src
      ({ dns with nameHash := some hash }, node.map fun node => (hash.readVal node).getD 0)

/-- `hash_put` of a name. -/
def Dns.namePut (addrOf : Nat → Nat) (dns : Dns) (src : List UInt8) (i : Nat) : Dns :=
  { dns with nameHash := dns.nameHash.map fun hash => (hashPut addrOf hash src (some i)).1 }

/-- `p = strchr (src, '.')`, as `p - src`. -/
def strchrDot (src : List UInt8) : Option Nat :=
  if 46 ∈ src then some (src.takeWhile (· ≠ 46)).length else none

/-- `n = p ? (u8)(p - src) : srclen`. -/
def dnsLabelLen (src : List UInt8) : Nat :=
  match strchrDot src with
  | some p => p % 256
  | none   => src.length

/-- `src` behind the label, and behind the dot if there is one. -/
def dnsNameRest (src : List UInt8) : List UInt8 :=
  match strchrDot src with
  | some p => (src.drop (p % 256)).drop 1
  | none   => src.drop src.length

/-- A name loses a byte at least with its first label, which is why the loops over names end. -/
theorem length_dnsNameRest_lt {src : List UInt8} (h : src ≠ []) :
    (dnsNameRest src).length < src.length := by
  have hpos := List.length_pos_iff.mpr h
  unfold dnsNameRest
  split
  · rw [List.length_drop, List.length_drop]
    omega
  · rw [List.length_drop]
    omega

/-- The two bytes of a pointer to offset `i`. -/
def dnsNamePtrBytes (i : Nat) : List UInt8 :=
  [UInt8.ofNat (i / 256) ||| UInt8.ofNat dnsNamePtr, UInt8.ofNat i]

/-- The loop of `dns_pack_name`: where `dst` is in the end, or `none` for an error. -/
def dnsPackNameLoop (addrOf : Nat → Nat) (dns : Dns) (src : List UInt8) (dst dstlen : Int) :
    Dns × Option Int :=
  if src = [] then (dns.store dst [0], some (dst + 1))
  else if ¬src.length < dnsNameMax then (dns, none)
  else
    let (dns, node) := dns.withNameHash.nameGet src
    match node with
    | some i =>
        -- A pointer to the previous string. Both asserts leave the loop with `err` set.
        if ¬i < dnsNamePtr * 256 ∨ dstlen < 2 then (dns, none)
        else (dns.store dst (dnsNamePtrBytes i), some (dst + 2))
    | none =>
        if ¬(dns.buf ≤ dst ∧ dst < dns.bufEnd) then (dns, none)
        else
          let dns := dns.namePut addrOf src (dst - dns.buf).toNat
          let n := dnsLabelLen src
          if dstlen ≤ n + 1 then (dns, none)
          else
            let dns := (dns.store dst [UInt8.ofNat n]).store (dst + 1) (src.take n)
            dnsPackNameLoop addrOf dns (dnsNameRest src) (dst + 1 + n) (dstlen - 1 - n)
termination_by src.length
decreasing_by exact length_dnsNameRest_lt ‹_›

/-- `dns_pack_name`. -/
def dnsPackName (addrOf : Nat → Nat) (dns : Dns) (src : List UInt8) (dst dstlen : Int) :
    Dns × Int :=
  let (dns, end?) := dnsPackNameLoop addrOf dns src dst dstlen
  match end? with
  | none     => (dns, -1)
  | some ptr => (dns, ptr - dst)

/-! ## Resource records -/

def DNS_RR_QUESTION : Int := 1

def DNS_RR_ANSWER : Int := 2

def DNS_RR_AUTHORITY : Int := 3

def DNS_RR_ADDITIONAL : Int := 4

def DNS_TYPE_A : UInt16 := 1

def DNS_TYPE_NS : UInt16 := 2

def DNS_TYPE_CNAME : UInt16 := 5

def DNS_TYPE_PTR : UInt16 := 12

/-- `dns_rr_t`. `rdataAddr` is `rdata.a.addr` and `rdataName` is `rdata.ptr.name`. They share their
memory in the source, where the type says which of them is there. -/
structure DnsRr where
  rrSection : Int
  name : List UInt8
  rrType : UInt16
  rrClass : UInt16
  ttl : UInt32
  rdataLen : UInt16
  rdataPtr : Int
  rdataAddr : UInt32
  rdataName : List UInt8
  deriving DecidableEq

/-- The record's data is a name: `DNS_TYPE_NS`, `DNS_TYPE_CNAME` or `DNS_TYPE_PTR`. -/
def DnsRr.hasName (rr : DnsRr) : Bool :=
  rr.rrType = DNS_TYPE_NS ∨ rr.rrType = DNS_TYPE_CNAME ∨ rr.rrType = DNS_TYPE_PTR

/-- The count of the record's section goes up. The assert of the default case leaves the `switch`
only. -/
def dnsCountRr (dns : Dns) (rrSection : Int) : Dns :=
  if rrSection = DNS_RR_QUESTION then { dns with qrcount := dns.qrcount + 1 }
  else if rrSection = DNS_RR_ANSWER then { dns with ancount := dns.ancount + 1 }
  else if rrSection = DNS_RR_AUTHORITY then { dns with nscount := dns.nscount + 1 }
  else if rrSection = DNS_RR_ADDITIONAL then { dns with arcount := dns.arcount + 1 }
  else dns

/-- `pack_u16` to the message. -/
def Dns.packU16 (dns : Dns) (p : Int) (host : UInt16) : Dns :=
  dns.store p (bytes16 (htons host.toNat))

/-- `pack_u32` to the message. -/
def Dns.packU32 (dns : Dns) (p : Int) (host : UInt32) : Dns := dns.store p (bytes32 (htonl host))

/-- The record's data, written at `p`, and the record with its `rdata_len`. -/
def dnsRdataPack (addrOf : Nat → Nat) (dns : Dns) (rr : DnsRr) (p : Int) : Dns × DnsRr :=
  if rr.rrType = DNS_TYPE_A then
    ((dns.store p (bytes32 rr.rdataAddr)).packU16 (p - 2) 4, { rr with rdataLen := 4 })
  else if rr.hasName then
    -- The room for the name is not what the message has left, and an error leaves the `switch` only.
    let (dns, i) := dnsPackName addrOf dns rr.rdataName p dnsNameMax
    (dns.packU16 (p - 2) (UInt16.ofInt i), { rr with rdataLen := UInt16.ofInt i })
  else
    -- A record that does not meet the assert is not copied, but it is no error.
    if p - dns.bufEnd < rr.rdataLen.toNat ∧ rr.rdataPtr ≠ 0 then
      (dns.store p (readAt dns.mem rr.rdataPtr rr.rdataLen.toNat), rr)
    else (dns, rr)

/-- The type and the class at `p`. -/
def dnsTypeClassPack (dns : Dns) (rr : DnsRr) (p : Int) : Dns :=
  (dns.packU16 p rr.rrType).packU16 (p + 2) rr.rrClass

/-- The time to live and the length of the data, behind the class. -/
def dnsTtlLenPack (dns : Dns) (rr : DnsRr) (p : Int) : Dns :=
  (dns.packU32 (p + 4) rr.ttl).packU16 (p + 8) rr.rdataLen

/-- `dns_rr_pack` with `PACK_HOST2NET`. When it fails the message is dumped (`dnsRrDump`). -/
def dnsRrPack (addrOf : Nat → Nat) (dns : Dns) (rr : DnsRr) : Dns × DnsRr × Int :=
  let dns := dnsCountRr dns rr.rrSection
  let (dns, i) := dnsPackName addrOf dns rr.name dns.ptr (dns.bufEnd - dns.ptr)
  let p := dns.ptr + i
  if i ≤ 0 then (dns, rr, -1)
  else
    let dns := dnsTypeClassPack { dns with rrIdx := dns.rrIdx + 1 } rr p
    if rr.rrSection = DNS_RR_QUESTION then ({ dns with ptr := p + 4 }, rr, 1)
    else
      let p' := p + 10
      let (dns, rr) := dnsRdataPack addrOf (dnsTtlLenPack dns rr p) rr p'
      ({ dns with ptr := p' + rr.rdataLen.toNat }, { rr with rdataPtr := p' }, 1)

/-! ## Reading a message -/

/-- A range of the message has been read. -/
def Dns.load (dns : Dns) (a : Int) (n : Nat) : Dns := { dns with loaded := dns.loaded ++ [(a, n)] }

/-- `pack_u16` from the message. -/
def Dns.unpackU16 (dns : Dns) (p : Int) : Dns × UInt16 :=
  (dns.load p 2, UInt16.ofNat (htons (get16 dns.mem p)))

/-- `pack_u32` from the message. -/
def Dns.unpackU32 (dns : Dns) (p : Int) : Dns × UInt32 := (dns.load p 4, htonl (get32 dns.mem p))

/-- The bytes that `strncpy (dst, src, n)` reads: it stops at a NUL. -/
def strncpyLen (mem : Int → UInt8) (src : Int) (n : Nat) : Nat :=
  min n ((cstr (readAt mem src n)).length + 1)

/-- What `strncpy (dst, src, n)` stores: the text, filled up with NULs. -/
def strncpyText (mem : Int → UInt8) (src : Int) (n : Nat) : List UInt8 :=
  cstr (readAt mem src n) ++ List.replicate (n - (cstr (readAt mem src n)).length) 0

/-- What the loop of `dns_unpack_name` leaves behind: whether `err` is 0, the bytes at `dst_in`, where
`src` is, and `*src_end`, which is 0 as long as it is null. -/
structure DnsNameRead where
  dns : Dns
  ok : Bool
  dst : List UInt8
  src : Int
  srcEnd : Int

/-- The number that two bytes of a pointer make. The second one is a signed `char`. -/
def dnsPtrValue (hi lo : UInt8) : Int :=
  if lo < 128 then 256 * (hi.toNat % 64) + lo.toNat else (lo.toNat : Int) - 256

/-- The loop of `dns_unpack_name`. -/
def dnsUnpackNameLoop (dns : Dns) (ptrMax src srclen : Int) (dst : List UInt8) (dstlen srcEnd : Int) :
    DnsNameRead :=
  if ¬0 < srclen then ⟨dns, false, dst, src, srcEnd⟩
  else
    let n := dns.mem src
    let dns := dns.load src 1
    let src := src + 1
    let srclen := srclen - 1
    if n = 0 then ⟨dns, true, dst, src, srcEnd⟩
    else if n &&& 192 ≠ 0 then
      -- Jump to another name in the message, but do not loop forever.
      if ¬0 < ptrMax - 1 ∨ ¬0 < srclen then ⟨dns, false, dst, src, srcEnd⟩
      else
        let i := dnsPtrValue n (dns.mem src)
        let dns := dns.load src 1
        let src := src + 1
        if ¬0 < i then ⟨dns, false, dst, src, srcEnd⟩
        else
          dnsUnpackNameLoop dns (ptrMax - 1) (dns.buf + i) (dns.bufEnd - dns.buf - i) dst dstlen
            (if srcEnd = 0 then src else srcEnd)
    else if dst ≠ [] ∧ ¬1 < dstlen then ⟨dns, false, dst, src, srcEnd⟩
    else
      let dot := if dst = [] then [] else [46]
      let dstlen := dstlen - dot.length
      if ¬(n.toNat : Int) < dstlen then ⟨dns, false, dst ++ dot, src, srcEnd⟩
      else
        let text := strncpyText dns.mem src n.toNat
        let dns := dns.load src (strncpyLen dns.mem src n.toNat)
        dnsUnpackNameLoop dns ptrMax (src + n.toNat) (srclen - n.toNat) (dst ++ dot ++ text)
          (dstlen - n.toNat) srcEnd
termination_by (ptrMax.toNat, srclen.toNat)

/-- `dns_unpack_name`: the length or -1, what is at `dst`, and `*src_end`. -/
def dnsUnpackName (dns : Dns) (src srclen dstlen : Int) : Dns × Int × List UInt8 × Int :=
  let r := dnsUnpackNameLoop dns 100 src srclen [] dstlen 0
  if r.ok then (r.dns, r.dst.length + 1, r.dst ++ [0], if r.srcEnd = 0 then r.src else r.srcEnd)
  else (r.dns, -1, r.dst, r.srcEnd)

/-- `dns_rr_rewind`. -/
def dnsRrRewind (dns : Dns) : Dns := { dns with ptr := dns.buf + dnsHdrLen, rrIdx := 0 }

/-- The section of the record at `rr_idx`, or `none` behind the last one. -/
def dnsRrSection (dns : Dns) : Option Int :=
  let idx : Int := dns.rrIdx.toNat
  if idx < dns.qrcount then some DNS_RR_QUESTION
  else if idx < dns.qrcount + dns.ancount then some DNS_RR_ANSWER
  else if idx < dns.qrcount + dns.ancount + dns.nscount then some DNS_RR_AUTHORITY
  else if idx < dns.qrcount + dns.ancount + dns.nscount + dns.arcount then some DNS_RR_ADDITIONAL
  else none

/-- A record that `memset` has cleared. -/
def DnsRr.zero : DnsRr := ⟨0, [], 0, 0, 0, 0, 0, 0, []⟩

/-- The record's data, read at `p`, and where `p` is then. -/
def dnsRdataUnpack (dns : Dns) (rr : DnsRr) (p : Int) : Dns × DnsRr × Int :=
  if rr.rrType = DNS_TYPE_A then
    -- Another length leaves the `switch` only.
    if rr.rdataLen = 4 then (dns.load p 4, { rr with rdataAddr := get32 dns.mem p }, p)
    else (dns, rr, p)
  else if rr.hasName then
    -- So does a name that cannot be read, and `p` is behind the name or null.
    let (dns, _, name, p) := dnsUnpackName dns p rr.rdataLen.toNat dnsNameMax
    (dns, { rr with rdataName := cstr name }, p)
  else (dns, rr, p)

/-- The type and the class, read at `p`. -/
def dnsTypeClassUnpack (dns : Dns) (rr : DnsRr) (p : Int) : Dns × DnsRr :=
  let (dns, rrType) := dns.unpackU16 p
  let (dns, rrClass) := dns.unpackU16 (p + 2)
  (dns, { rr with rrType, rrClass })

/-- The time to live and the length of the data, read behind the class. -/
def dnsTtlLenUnpack (dns : Dns) (rr : DnsRr) (p : Int) : Dns × DnsRr :=
  let (dns, ttl) := dns.unpackU32 (p + 4)
  let (dns, rdataLen) := dns.unpackU16 (p + 8)
  (dns, { rr with ttl, rdataLen })

/-- `dns_rr_pack` with `PACK_NET2HOST`. When it fails the message is dumped (`dnsRrDump`). -/
def dnsRrUnpack (dns : Dns) : Dns × DnsRr × Int :=
  match dnsRrSection dns with
  | none           => (dns, DnsRr.zero, 0)
  | some rrSection =>
      let (dns, i, name, p) := dnsUnpackName dns dns.ptr (dns.bufEnd - dns.ptr) dnsNameMax
      let rr := { DnsRr.zero with rrSection, name := cstr name }
      if i ≤ 0 then (dns, rr, -1)
      else
        let (dns, rr) := dnsTypeClassUnpack { dns with rrIdx := dns.rrIdx + 1 } rr p
        if rr.rrSection = DNS_RR_QUESTION then ({ dns with ptr := p + 4 }, rr, 1)
        else
          let (dns, rr) := dnsTtlLenUnpack dns rr p
          let (dns, rr, p) := dnsRdataUnpack dns rr (p + 10)
          ({ dns with ptr := p + rr.rdataLen.toNat }, { rr with rdataPtr := p }, 1)

/-! ## The header -/

/-- `pack_bits` into `net`. -/
def packBits (net : UInt16) (host : Int) (bits shift : UInt16) : UInt16 :=
  let mask := (1 <<< bits) - 1
  (net &&& ~~~(mask <<< shift)) ||| ((UInt16.ofInt host &&& mask) <<< shift)

/-- `pack_bits` out of `net`. -/
def unpackBits (net bits shift : UInt16) : Int := ((net >>> shift) &&& ((1 <<< bits) - 1)).toNat

/-- `dns_pack` with `PACK_HOST2NET`. -/
def dnsPack (dns : Dns) : Dns × Int :=
  let dns' := dns.packU16 dns.buf (UInt16.ofInt dns.id)
  let u := packBits 0 dns.qr 1 15
  let u := packBits u dns.opcode 4 11
  let u := packBits u dns.aa 1 10
  let u := packBits u dns.tc 1 9
  let u := packBits u dns.rd 1 8
  let u := packBits u dns.ra 1 7
  let u := packBits u dns.x3 3 4
  let u := packBits u dns.rcode 4 0
  let dns' := dns'.packU16 (dns.buf + 2) u
  let dns' := dns'.packU16 (dns.buf + 4) (UInt16.ofInt dns.qrcount)
  let dns' := dns'.packU16 (dns.buf + 6) (UInt16.ofInt dns.ancount)
  let dns' := dns'.packU16 (dns.buf + 8) (UInt16.ofInt dns.nscount)
  let dns' := dns'.packU16 (dns.buf + 10) (UInt16.ofInt dns.arcount)
  (dns', dns.ptr - dns.buf)

/-- `dns_pack` with `PACK_NET2HOST`. -/
def dnsUnpack (dns : Dns) : Dns × Int :=
  let (dns, id) := dns.unpackU16 dns.buf
  let (dns, u) := dns.unpackU16 (dns.buf + 2)
  let (dns, qrcount) := dns.unpackU16 (dns.buf + 4)
  let (dns, ancount) := dns.unpackU16 (dns.buf + 6)
  let (dns, nscount) := dns.unpackU16 (dns.buf + 8)
  let (dns, arcount) := dns.unpackU16 (dns.buf + 10)
  ({ dns with
      id := id.toNat
      qr := unpackBits u 1 15
      opcode := unpackBits u 4 11
      aa := unpackBits u 1 10
      tc := unpackBits u 1 9
      rd := unpackBits u 1 8
      ra := unpackBits u 1 7
      x3 := unpackBits u 3 4
      rcode := unpackBits u 4 0
      qrcount := qrcount.toNat
      ancount := ancount.toNat
      nscount := nscount.toNat
      arcount := arcount.toNat }, dns.ptr - dns.buf)

/-! ## Queries -/

def DNS_OPCODE_QUERY : Int := 0

def DNS_CLASS_IN : UInt16 := 1

def DNS_TYPE_AAAA : UInt16 := 28

/-- The loop of `dns_check_query_in_a`, with at most `fuel` calls of `dns_rr_pack`: the name of the
first question that it accepts. A record of another section, which is read before it is seen, ends
the loop. -/
def dnsCheckQueryLoop : Nat → Dns → Dns × Option (List UInt8)
  | 0,        dns => (dns, none)
  | fuel + 1, dns =>
      let (dns, rr, i) := dnsRrUnpack dns
      if i ≤ 0 ∨ rr.rrSection ≠ DNS_RR_QUESTION then (dns, none)
      else if rr.rrClass ≠ DNS_CLASS_IN then dnsCheckQueryLoop fuel dns
      else if rr.rrType ≠ DNS_TYPE_A ∧ rr.rrType ≠ DNS_TYPE_PTR ∧ rr.rrType ≠ DNS_TYPE_AAAA then
        dnsCheckQueryLoop fuel dns
      else (dns, some rr.name)

/-- `dns_check_query_in_a` with room for `len` bytes of the name: the result and the name before its
NUL. A question takes at least a byte, so there are no more calls than the message has bytes, and one
more that fails. -/
def dnsCheckQueryInA (dns : Dns) (len : Nat) : Dns × Int × List UInt8 :=
  let (dns, i) := dnsUnpack dns
  if ¬0 < i ∨ dns.opcode ≠ DNS_OPCODE_QUERY ∨ dns.qr ≠ 0 then (dns, -1, [])
  else
    let dns := dnsRrRewind dns
    match dnsCheckQueryLoop ((dns.bufEnd - dns.ptr).toNat + 1) dns with
    | (dns, none)          => (dns, -1, [])
    | (dns, some hostname) => (dns, 0, hostname.take len)

end Bklib
