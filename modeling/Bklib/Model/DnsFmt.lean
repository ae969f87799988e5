import Bklib.Model.Dns
import Bklib.Model.IpTrack
import Bklib.Model.Snprintf

/-!
# `Bklib.Model.DnsFmt`: the dump of a message by `dns_fmt`

The texts of `dns_fmt` are listed in the order in which they are appended. `dns_fmt` reads the records
of the message with `dns_rr_pack` on the way, and its buffer is not part of the message.
-/

set_option autoImplicit false

namespace Bklib

/-! ## Names of numbers -/

/-- A number by its name in a table, or in decimal as `default_int_str` has it. -/
def intStr (names : List (Int × String)) (x : Int) : List UInt8 :=
  match names.lookup x with
  | some name => bytes name
  | none      => fmtD x

/-- `dns_type_str`. -/
def dnsTypeStr (x : Int) : List UInt8 :=
  intStr [(1, "A"), (2, "NS"), (3, "MD"), (4, "MF"), (5, "CNAME"), (6, "SOA"), (7, "MB"), (8, "MG"),
    (9, "MR"), (10, "NULL"), (11, "WKS"), (12, "PTR"), (13, "HINFO"), (14, "MINFO"), (15, "MX"),
    (16, "TXT")] x

/-- `dns_rcode_str`. -/
def dnsRcodeStr (x : Int) : List UInt8 :=
  intStr [(0, "OK"), (1, "FORMAT"), (2, "SERVER"), (3, "NAME"), (4, "NOTIMPL"), (5, "REFUSED")] x

/-- `dns_class_str`. -/
def dnsClassStr (x : Int) : List UInt8 := intStr [(1, "IN"), (2, "CS"), (3, "CH"), (4, "HS")] x

/-- `dns_opcode_str`. -/
def dnsOpcodeStr (x : Int) : List UInt8 := intStr [(0, "QUERY"), (1, "IQUERY"), (2, "STATUS")] x

/-- `dns_rr_str`. -/
def dnsRrStr (x : Int) : List UInt8 :=
  intStr [(DNS_RR_QUESTION, "QR"), (DNS_RR_ANSWER, "AN"), (DNS_RR_AUTHORITY, "NS"),
    (DNS_RR_ADDITIONAL, "AR")] x

/-! ## The dump -/

/-- The texts of the header. -/
def dnsFmtHdr (dns : Dns) : List (List UInt8) :=
  [bytes "dns:", bytes " id=" ++ fmtD dns.id, bytes " qr=" ++ fmtD dns.qr,
    bytes " aa=" ++ fmtD dns.aa, bytes " tc=" ++ fmtD dns.tc, bytes " rd=" ++ fmtD dns.rd,
    bytes " ra=" ++ fmtD dns.ra, bytes " x3=" ++ fmtD dns.x3,
    bytes " opcode=" ++ dnsOpcodeStr dns.opcode, bytes " rcode=" ++ dnsRcodeStr dns.rcode]

/-- The text of a record's data, of the types that have one. -/
def dnsFmtRdata (rr : DnsRr) : List (List UInt8) :=
  if rr.rrSection = DNS_RR_QUESTION then []
  else if rr.rrType = DNS_TYPE_A then [bytes " addr=" ++ netpktNtoa rr.rdataAddr]
  else if rr.rrType = DNS_TYPE_CNAME ∨ rr.rrType = DNS_TYPE_PTR ∨ rr.rrType = DNS_TYPE_NS then
    [bytes " name=" ++ rr.rdataName]
  else []

/-- The texts of a record. `ttl` is unsigned, and `%d` takes it as an `int`. -/
def dnsFmtRr (rr : DnsRr) : List (List UInt8) :=
  [bytes " " ++ dnsRrStr rr.rrSection ++ bytes ":\x7bname=" ++ rr.name,
    bytes " class=" ++ dnsClassStr rr.rrClass.toNat, bytes " type=" ++ dnsTypeStr rr.rrType.toNat,
    bytes " ttl=" ++ fmtD rr.ttl.toNat] ++ dnsFmtRdata rr ++ [bytes "\x7d"]

/-- The loop of `dns_fmt`, up to `fuel` records. A record that cannot be read does not meet the
assert, which leaves the loop only. -/
def dnsFmtLoop : Nat → Dns → SnBuf → Dns × SnBuf
  | 0,        dns, b => (dns, b)
  | fuel + 1, dns, b =>
      let (dns, rr, i) := dnsRrUnpack dns
      if i ≤ 0 then (dns, b) else dnsFmtLoop fuel dns (b.adds (dnsFmtRr rr))

/-- `dns_fmt`, up to `fuel` records: `rr_idx` has eight bits, so that a message that counts more than
255 records has no last one. No result is negative, so no `BUF_ADD` leaves the loop, and `dns_fmt`
returns the start of the buffer. -/
def dnsFmt (fuel : Nat) (dns : Dns) (b : SnBuf) : Dns × SnBuf :=
  let b := b.adds (dnsFmtHdr dns)
  let (dns', b) := dnsFmtLoop fuel (dnsRrRewind dns) b
  ({ dns' with buflen := dns'.ptr - dns'.buf, ptr := dns.ptr, rrIdx := dns.rrIdx }, b)

end Bklib
