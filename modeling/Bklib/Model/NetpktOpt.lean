import Bklib.Model.CInt
import Bklib.Model.NetpktMem

/-!
# `Bklib.Model.NetpktOpt`: the options of a packet

A caller walks through an option area with `netpkt_ip_opt_next`, which keeps its position in the
caller's `p`. The bytes of the area are plain characters: a type or a length of 128 and more is
negative. `loaded` is not in the source: it lists the addresses of the bytes that were read.
-/

set_option autoImplicit false

namespace Bklib

open Bklib.Lib

/-- What a caller has of an option area: `*p`, `*data` and `*len`. -/
structure OptCursor where
  p : Option Int
  data : Option Int
  len : Int
  loaded : List Int

/-- `p = 0`, before the first option. -/
def optCursorInit : OptCursor := ⟨none, none, 0, []⟩

/-- The end of an area. -/
def optEnd (start : Option Int) (optlen : Int) : Int := start.getD 0 + optlen

/-- `netpkt_ip_opt_next`: the type, or 0 at the end of the options. -/
def netpktIpOptNext (mem : Int → UInt8) (start : Option Int) (optlen : Int) (c : OptCursor) :
    Int × OptCursor :=
  match c.p.or start with
  | none   => (0, { c with p := none })
  | some p =>
      if optEnd start optlen ≤ p then (0, { c with p := some p })
      else
        let type := charToInt (mem p)
        if type = 0 then (type, ⟨some (optEnd start optlen), none, 0, c.loaded ++ [p]⟩)
        else if type = 1 then (type, ⟨some (p + 1), none, 0, c.loaded ++ [p]⟩)
        else
          let len := charToInt (mem (p + 1))
          let loaded := c.loaded ++ [p, p + 1]
          if len < 2 ∨ optEnd start optlen < p + len then
            (0, ⟨some (optEnd start optlen), none, 0, loaded⟩)
          else (type, ⟨some (p + len), some (p + 2), len - 2, loaded⟩)

/-- The bytes from the position of the caller to the end of the area. -/
def optLeft (start : Option Int) (optlen : Int) (c : OptCursor) : Nat :=
  (optEnd start optlen - (c.p.or start).getD 0).toNat

/-- A round that goes on leaves fewer bytes of the area, which is why the walk ends. -/
theorem optLeft_netpktIpOptNext {mem : Int → UInt8} {start : Option Int} {optlen : Int}
    {c : OptCursor} (h : (netpktIpOptNext mem start optlen c).1 ≠ 0) :
    optLeft start optlen (netpktIpOptNext mem start optlen c).2 < optLeft start optlen c := by
  unfold netpktIpOptNext at h ⊢
  cases hp : c.p.or start with
  | none =>
      rw [hp] at h
      exact absurd rfl h
  | some p =>
      simp only [hp] at h ⊢
      split_ifs at h ⊢ with hend hzero hone hlen
      · exact absurd rfl h
      · exact absurd hzero h
      · show (_ - (p + 1)).toNat < (_ - (c.p.or start).getD 0).toNat
        rw [hp, Option.getD_some]
        omega
      · exact absurd rfl h
      · show (_ - (p + _)).toNat < (_ - (c.p.or start).getD 0).toNat
        rw [hp, Option.getD_some]
        omega

/-- An option as a caller sees it. -/
structure IpOpt where
  type : Int
  data : Option Int
  len : Int
  deriving DecidableEq

/-- The options that a caller sees until `netpkt_ip_opt_next` returns 0, and what it has then. -/
def netpktIpOpts (mem : Int → UInt8) (start : Option Int) (optlen : Int) (c : OptCursor) :
    List IpOpt × OptCursor :=
  let r := netpktIpOptNext mem start optlen c
  if _h : r.1 = 0 then ([], r.2)
  else
    let rest := netpktIpOpts mem start optlen r.2
    (⟨r.1, r.2.data, r.2.len⟩ :: rest.1, rest.2)
termination_by optLeft start optlen c
decreasing_by exact optLeft_netpktIpOptNext _h

/-- `netpkt_tcp_opt_enum`. -/
def netpktTcpOptEnum (pkt : NetpktMem) (c : OptCursor) : Int × OptCursor :=
  netpktIpOptNext pkt.mem pkt.pktTcpOpt pkt.pktTcpOptLen c

def TCP_OPT_SACKOK : Int := 4

/-- `tcp_syn (tcp)`. -/
def tcpSynAt (mem : Int → UInt8) (tcp : Int) : Bool := (mem (tcp + 13)).toNat / 2 % 2 = 1

/-- `memset (data - 2, 1, n + 2)` on the option that the caller has. -/
def netpktNoopOpt (pkt : NetpktMem) (c : OptCursor) : NetpktMem :=
  { pkt with
    mem := writeAt pkt.mem (c.data.getD 0 - 2) (List.replicate (c.len + 2).toNat 1) }

/-- The loop of `netpkt_tcp_remove_sack`. -/
def netpktRemoveSackLoop (pkt : NetpktMem) (c : OptCursor) (ret : Int) : Int × NetpktMem :=
  let r := netpktTcpOptEnum pkt c
  if _h : r.1 = 0 then (ret, pkt)
  else if r.1 = TCP_OPT_SACKOK then netpktRemoveSackLoop (netpktNoopOpt pkt r.2) r.2 1
  else netpktRemoveSackLoop pkt r.2 ret
termination_by optLeft pkt.pktTcpOpt pkt.pktTcpOptLen c
decreasing_by all_goals exact optLeft_netpktIpOptNext _h

/-- `netpkt_tcp_remove_sack`. -/
def netpktTcpRemoveSack (pkt : NetpktMem) : Int × NetpktMem :=
  match pkt.pktTcp, pkt.pktTcpOpt with
  | some tcp, some _ =>
      if tcpSynAt pkt.mem tcp then netpktRemoveSackLoop pkt optCursorInit 0 else (0, pkt)
  | _,        _      => (0, pkt)

end Bklib
