import Bklib.Model.Dns
import Bklib.Model.Memutil

/-!
# `Bklib.Model.DnsDump`: the dumps of `dns.c`

At some levels of `debug_level` a message is dumped for the debug output. `memdump` writes the dump
into an array of 16384 bytes on the stack, however long the message is. The output itself is left out.
-/

set_option autoImplicit false

namespace Bklib

open Bklib.Lib

/-- `DEBUG_WARN`. -/
def debugWARN : Int := 0

/-- `DEBUG_INFO`. -/
def debugINFO : Int := 1

/-- `memdump (buf, sizeof (buf), ..)` of the first `n` bytes of the message, for the output of
`level`. A dump of no byte leaves the array as it was, and then it is printed as it is; a dump of
fewer bytes reads in front of the message. There is no result then. -/
def dnsDump (level debugLevel : Int) (dns : Dns) (n : Int) (mem : Int → UInt8) (buf : Int) :
    Option SnBuf :=
  let b := SnBuf.init mem buf 16384
  if level ≤ debugLevel then
    if 0 < n then some (memdump b (readAt dns.mem dns.buf n.toNat)) else none
  else some b

/-- The dump at the end of `dns_pack`. -/
def dnsPackDump (debugLevel : Int) (dns : Dns) : (Int → UInt8) → Int → Option SnBuf :=
  dnsDump (debugINFO + 2) debugLevel dns dns.buflen

/-- The dump of a call of `dns_rr_pack`, either way: the one of a name that was not read or written,
which is the only error. -/
def dnsRrDump (debugLevel : Int) (call : Dns × DnsRr × Int) (mem : Int → UInt8) (buf : Int) :
    Option SnBuf :=
  if call.2.2 < 0 then
    dnsDump debugWARN debugLevel call.1 (call.1.bufEnd - call.1.buf) mem buf
  else some (.init mem buf 16384)

end Bklib
