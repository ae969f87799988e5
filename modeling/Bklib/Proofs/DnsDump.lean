import Bklib.Model.DnsDump
import Bklib.Proofs.Memdump

/-!
# `Bklib.Proofs.DnsDump`: which messages can be dumped

Each row of a dump has 48 characters besides one for each byte, as long as the offsets have no more
than four digits. So an array of 16384 bytes is right for the dump of 4096 bytes, and for no longer
one (`dnsDump_inside_iff`).
-/

set_option autoImplicit false

namespace Bklib

open Bklib.Lib

/-- There is a dump, and it stays inside its array, wherever that is. -/
def DumpInside (dump : (Int → UInt8) → Int → Option SnBuf) : Prop :=
  ∀ mem buf, ∃ b, dump mem buf = some b ∧ b.Inside buf 16384

/-- `n` bytes are not dumped at this level, or they are 1 to 4096. -/
def DumpFits (level debugLevel n : Int) : Prop := debugLevel < level ∨ 0 < n ∧ n ≤ 4096

theorem length_fmt4d_ge (x : Int) : 4 ≤ (fmt4d x).length := by
  rw [fmt4d, List.length_append, List.length_replicate]
  omega

/-- Four digits fill the field. -/
theorem length_fmt4d {n : Nat} (h : n < 10000) : (fmt4d n).length = 4 := by
  have hself : toInt32 (n : Int) = n := toInt32_eq_self (by omega) (by omega)
  have hdigits : (fmtD n).length ≤ 4 := by
    rw [fmtD, hself, length_bytes]
    exact Nat.repr_length n 4 (by decide) h
  rw [fmt4d, List.length_append, List.length_replicate]
  omega

/-- A row takes 48 characters at least. -/
theorem memdumpRowsLen_ge (rows : Nat) : 48 * rows ≤ memdumpRowsLen rows := by
  induction rows with
  | zero => exact Nat.zero_le _
  | succ rows ih =>
      have hoffset := length_fmt4d_ge (16 * rows : Nat)
      rw [memdumpRowsLen_succ]
      omega

/-- It takes 48 exactly while the offset has four digits. -/
theorem memdumpRowsLen_eq {rows : Nat} (h : rows ≤ 625) : memdumpRowsLen rows = 48 * rows := by
  induction rows with
  | zero => rfl
  | succ rows ih =>
      rw [memdumpRowsLen_succ, ih (by omega), length_fmt4d (by omega)]
      omega

/-- The array has room for the dump of 4096 bytes, but for its newline. -/
theorem memdumpLen_le_iff (n : Nat) : memdumpLen n ≤ 16385 ↔ n ≤ 4096 := by
  unfold memdumpLen
  constructor
  · intro hle
    have hrows := memdumpRowsLen_ge ((n + 15) / 16)
    omega
  · intro hle
    rw [memdumpRowsLen_eq (by omega)]
    omega

variable {level debugLevel : Int} {dns : Dns}

/-- A dump is right exactly when it is not made, or made of 1 to 4096 bytes. -/
theorem dnsDump_inside_iff (n : Int) :
    DumpInside (dnsDump level debugLevel dns n) ↔ DumpFits level debugLevel n := by
  unfold DumpInside dnsDump DumpFits
  by_cases hlevel : level ≤ debugLevel
  · rw [or_iff_right (by omega)]
    simp only [if_pos hlevel]
    by_cases hn : 0 < n
    · have hsome : readAt dns.mem dns.buf n.toNat ≠ [] := by
        rw [← List.length_pos_iff, length_readAt]
        omega
      have hinside := fun mem buf => memdump_inside_iff mem buf (show (0 : Int) ≤ 16384 by decide)
        (by decide) (readAt dns.mem dns.buf n.toNat)
      simp only [if_pos hn, Option.some.injEq, exists_eq_left', hinside, or_iff_right hsome,
        length_readAt, forall_const]
      have hlen := memdumpLen_le_iff n.toNat
      omega
    · simp only [if_neg hn]
      exact iff_of_false (fun h => by simpa using h (fun _ => 0) 0) (fun h => hn h.1)
  · simp only [if_neg hlevel]
    exact iff_of_true (fun _ _ => ⟨_, rfl, fun _ hr => absurd hr List.not_mem_nil⟩)
      (Or.inl (by omega))

/-- A call of `dns_rr_pack` that fails dumps the whole message, any other one nothing. -/
theorem dnsRrDump_inside_iff (call : Dns × DnsRr × Int) :
    DumpInside (dnsRrDump debugLevel call) ↔
      (call.2.2 < 0 → DumpFits debugWARN debugLevel (call.1.bufEnd - call.1.buf)) := by
  unfold DumpInside dnsRrDump
  by_cases hfailed : call.2.2 < 0
  · simp only [if_pos hfailed]
    rw [forall_prop_of_true hfailed]
    exact dnsDump_inside_iff _
  · simp only [if_neg hfailed]
    exact iff_of_true (fun _ _ => ⟨_, rfl, fun _ hr => absurd hr List.not_mem_nil⟩)
      fun h => absurd h hfailed

end Bklib
