import Bklib.Model.DnsResolve
import Bklib.Proofs.DnsRoundTrip

/-!
# `Bklib.Proofs.DnsResolve`: the hosts of a reply

`nhosts` counts one more than there are records: `HostsAre` says which entries there are, and behind
the records of the message there is always a blank one (`HostsRead`). The addresses that CNAMEs lead to
come behind it (`derivedHosts`), so the entries are the records, the blank one and these
(`dnsHostsLoop_spec`), and never the records and these alone (`dnsResolveReply_lists_never`).

The count of the addresses of the queried name is the bound of the draw, but the draw then selects
among all addresses (`dnsPickHost_eq`). So the chosen host answers the query only when the selected
address happens to (`dnsResolveReply_answers_iff`).

`Decodable` is a reply that `dns_rr_pack` reads to its end, with a question, and `HostsFit` is room for
what is listed. `rand` stands for `rand_u32`, and nothing more is assumed of it than that it is not
above its bound.
-/

set_option autoImplicit false

namespace Bklib

open Bklib.Lib

/-! ### Entries -/

/-- The entries from 1 on, and the one at 0, which is cleared. -/
structure HostsAre (h : DnsHosts) (entries : List DnsRr) : Prop where
  nhosts : h.nhosts = entries.length + 1
  entry : ∀ (k : Nat) (hk : k < entries.length), h.hosts (k + 1) = entries[k]
  first : h.hosts 0 = DnsRr.zero

namespace HostsAre

variable {h : DnsHosts} {entries : List DnsRr}

theorem entries_eq (hare : HostsAre h entries) : h.entries = entries := by
  unfold DnsHosts.entries
  rw [hare.nhosts, Nat.add_sub_cancel]
  refine List.ext_getElem (by simp) fun k hk hk' => ?_
  rw [List.getElem_map, List.getElem_range', Nat.one_mul, Nat.add_comm 1 k, hare.entry k hk']

/-- A record behind the last one. -/
theorem append (hare : HostsAre h entries) (rr : DnsRr) :
    HostsAre { h.set h.nhosts rr with nhosts := h.nhosts + 1 } (entries ++ [rr]) := by
  have hn := hare.nhosts
  refine ⟨by simp [hn], fun k hk => ?_, ?_⟩
  · show Function.update h.hosts h.nhosts rr (k + 1) = _
    rw [List.length_append, List.length_singleton] at hk
    by_cases hlast : k = entries.length
    · subst hlast
      rw [← hn, Function.update_self]
      simp
    · rw [Function.update_of_ne (by omega), hare.entry k (by omega),
        List.getElem_append_left (by omega)]
  · show Function.update h.hosts h.nhosts rr 0 = _
    rw [Function.update_of_ne (by omega), hare.first]

/-- The entries do not depend on `qidx`. -/
theorem setQidx (hare : HostsAre h entries) (qidx : Int) : HostsAre { h with qidx } entries :=
  ⟨hare.nhosts, hare.entry, hare.first⟩

end HostsAre

/-! ### Reading -/

/-- The record is one that is copied. -/
def DnsRr.listed (rr : DnsRr) : Bool :=
  rr.rrSection = DNS_RR_ANSWER ∨ rr.rrSection = DNS_RR_QUESTION

/-- The records that have been copied have a blank entry behind them, and so it goes on. -/
structure HostsRead (maxhosts : Nat) (h : DnsHosts) (rrs : List DnsRr) : Prop where
  are : HostsAre h (rrs ++ [DnsRr.zero])
  blank : ∀ n, h.nhosts ≤ n → n < maxhosts → h.hosts n = DnsRr.zero
  qidx : h.qidx = -1

/-- The cleared hosts are read from no record. -/
theorem hostsRead_clear (hosts : Nat → DnsRr) {maxhosts : Nat} (hroom : 2 < maxhosts) :
    HostsRead maxhosts ⟨dnsHostsClear hosts maxhosts, 2, -1⟩ [] := by
  have hclear : ∀ n, n < maxhosts → dnsHostsClear hosts maxhosts n = DnsRr.zero := fun n hn => if_pos hn
  refine ⟨⟨rfl, fun k hk => ?_, hclear 0 (by omega)⟩, fun n _ hn => hclear n hn, rfl⟩
  rw [List.nil_append, List.length_singleton] at hk
  obtain rfl : k = 0 := by omega
  exact hclear 1 (by omega)

/-- A record is copied to the blank entry. -/
theorem HostsRead.copy {maxhosts : Nat} {h : DnsHosts} {rrs : List DnsRr}
    (hread : HostsRead maxhosts h rrs) (rr : DnsRr) (hroom : h.nhosts < maxhosts) :
    HostsRead maxhosts { h.set (h.nhosts - 1) rr with nhosts := h.nhosts + 1 } (rrs ++ [rr]) := by
  have hn := hread.are.nhosts
  rw [List.length_append, List.length_singleton] at hn
  refine ⟨⟨by simp [hn], fun k hk => ?_, ?_⟩, fun n hlo hhi => ?_, hread.qidx⟩
  · show Function.update h.hosts (h.nhosts - 1) rr (k + 1) = _
    simp only [List.length_append, List.length_singleton] at hk
    rcases Nat.lt_trichotomy k rrs.length with hlt | rfl | hgt
    · rw [Function.update_of_ne (by omega), hread.are.entry k (by simp; omega)]
      simp [hlt]
    · rw [show h.nhosts - 1 = rrs.length + 1 by omega, Function.update_self]
      simp
    · obtain rfl : k = rrs.length + 1 := by omega
      rw [Function.update_of_ne (by omega), hread.blank _ (by omega) (by omega)]
      simp
  · show Function.update h.hosts (h.nhosts - 1) rr 0 = _
    rw [Function.update_of_ne (by omega), hread.are.first]
  · show Function.update h.hosts (h.nhosts - 1) rr n = _
    have hlo' : h.nhosts + 1 ≤ n := hlo
    rw [Function.update_of_ne (by omega), hread.blank n (by omega) hhi]

/-- The questions and the answers of a message that can be read are copied when there is room.
Induction on the calls. -/
theorem dnsHostsRead_spec {maxhosts : Nat} (fuel : Nat) :
    ∀ {dns : Dns} {h : DnsHosts} {before rrs : List DnsRr}, HostsRead maxhosts h before →
      dnsReadRrs fuel dns = some rrs →
      (before ++ rrs.filter DnsRr.listed).length + 2 < maxhosts →
      ∃ h', dnsHostsRead maxhosts fuel dns h = some h' ∧
        HostsRead maxhosts h' (before ++ rrs.filter DnsRr.listed) := by
  induction fuel with
  | zero =>
      intro dns h before rrs _ hrrs
      exact absurd hrrs (by simp [dnsReadRrs])
  | succ fuel ih =>
      intro dns h before rrs hread hrrs hroom
      rw [dnsReadRrs] at hrrs
      rw [dnsHostsRead]
      dsimp only at hrrs ⊢
      split at hrrs
      · exact absurd hrrs (by simp)
      rename_i hneg
      split at hrrs
      · rename_i hzero
        obtain rfl := Option.some.inj hrrs
        rw [if_pos (by omega)]
        exact ⟨h, rfl, by simpa using hread⟩
      · rename_i hzero
        obtain ⟨rest, hrest, rfl⟩ := Option.map_eq_some_iff.mp hrrs
        rw [if_neg (by omega)]
        generalize (dnsRrUnpack dns).2.1 = rr at hroom ⊢
        by_cases hlisted : rr.listed = true
        · -- The record takes the blank entry, and the next one must be there for the next record.
          rw [List.filter_cons_of_pos hlisted] at hroom ⊢
          have hn := hread.are.nhosts
          simp only [List.length_append, List.length_cons, List.length_nil] at hn hroom
          have hcopy := hread.copy rr (by omega)
          rw [if_neg (not_not.mpr (of_decide_eq_true hlisted)),
            if_neg (not_not.mpr (show h.nhosts + 1 < maxhosts by omega))]
          obtain ⟨h', hh', hread'⟩ := ih hcopy hrest (by simp; omega)
          rw [List.append_assoc] at hread'
          exact ⟨h', hh', hread'⟩
        · -- An authority or an additional record is skipped.
          rw [List.filter_cons_of_neg hlisted] at hroom ⊢
          rw [if_pos fun hor => hlisted (decide_eq_true hor)]
          exact ih hread hrest hroom

/-! ### CNAMEs -/

/-- The first address of `name` among the entries. -/
def addrFor (entries : List DnsRr) (name : List UInt8) : Option DnsRr :=
  entries.find? fun rr => rr.isAddr && strcasecmpEq rr.name name

/-- The addresses that the CNAMEs of `rrs` lead to, when these entries are there already. -/
def derivedHosts (entries : List DnsRr) : List DnsRr → List DnsRr
  | []        => []
  | rr :: rrs =>
      match if rr.isCname then addrFor entries rr.rdataName else none with
      | none   => derivedHosts entries rrs
      | some a => rr.withAddr a :: derivedHosts (entries ++ [rr.withAddr a]) rrs

theorem DnsRr.isAddr_zero : DnsRr.zero.isAddr = false := by decide

/-- The address of a CNAME is an answer of type A. -/
theorem DnsRr.withAddr_isAddr {rr : DnsRr} (h : rr.isCname = true) (a : DnsRr) :
    (rr.withAddr a).isAddr = true := by
  simp only [DnsRr.isCname, decide_eq_true_eq] at h
  exact decide_eq_true ⟨h.1, rfl⟩

theorem DnsRr.not_isCname_of_isAddr {rr : DnsRr} (h : rr.isAddr = true) : rr.isCname = false := by
  simp only [DnsRr.isAddr, decide_eq_true_eq] at h
  refine decide_eq_false fun hcname => ?_
  exact absurd (h.2.symm.trans hcname.2) (by decide)

/-- The blank entry is no address. -/
theorem addrFor_blank (rrs ds : List DnsRr) (name : List UInt8) :
    addrFor (rrs ++ DnsRr.zero :: ds) name = addrFor (rrs ++ ds) name := by
  unfold addrFor
  rw [List.find?_append, List.find?_append, List.find?_cons_of_neg (by simp [DnsRr.isAddr_zero])]

/-- The index of the first question, or -1. -/
def questionIdx (rrs : List DnsRr) : Int :=
  match rrs.findIdx? fun rr => rr.rrSection = DNS_RR_QUESTION with
  | none   => -1
  | some k => k + 1

/-- The first question stays the first one. -/
theorem questionIdx_concat (rrs : List DnsRr) (rr : DnsRr) :
    questionIdx (rrs ++ [rr]) =
      if questionIdx rrs < 0 ∧ rr.rrSection = DNS_RR_QUESTION then ((rrs.length + 1 : Nat) : Int)
      else questionIdx rrs := by
  unfold questionIdx
  rw [List.findIdx?_append]
  cases hidx : rrs.findIdx? fun rr => rr.rrSection = DNS_RR_QUESTION with
  | some k =>
      rw [Option.some_or]
      exact (if_neg fun h => absurd h.1 (show ¬((k : Int) + 1 < 0) by omega)).symm
  | none =>
      rw [Option.none_or]
      by_cases hquestion : rr.rrSection = DNS_RR_QUESTION
      · rw [if_pos ⟨by decide, hquestion⟩]
        simp [List.findIdx?_cons, hquestion]
      · rw [if_neg fun h => hquestion h.2]
        simp [List.findIdx?_cons, hquestion]

/-- Before round `done.length + 1` the CNAMEs of `done` have been looked up. -/
structure HostsLoop (rrs : List DnsRr) (h : DnsHosts) (done ds : List DnsRr) : Prop where
  are : HostsAre h (rrs ++ DnsRr.zero :: ds)
  addrs : ∀ d ∈ ds, d.isAddr = true
  qidx : h.qidx = questionIdx done

/-- The step lemma of the loop. -/
theorem HostsLoop.round {maxhosts : Nat} {rrs done rest ds : List DnsRr} {h : DnsHosts} {rr : DnsRr}
    (hloop : HostsLoop rrs h done ds) (hrrs : rrs = done ++ rr :: rest)
    (hroom : h.nhosts + (derivedHosts (rrs ++ ds) (rr :: rest)).length ≤ maxhosts) :
    ∃ ds', HostsLoop rrs (dnsHostsRound maxhosts h (done.length + 1)) (done ++ [rr]) (ds ++ ds') ∧
      derivedHosts (rrs ++ ds) (rr :: rest) = ds' ++ derivedHosts (rrs ++ (ds ++ ds')) rest := by
  have hentry : h.hosts (done.length + 1) = rr := by
    rw [hloop.are.entry done.length (by rw [hrrs]; simp)]
    simp [hrrs]
  unfold dnsHostsRound
  rw [hentry]
  -- The first question sets `qidx`, and changes no entry.
  generalize hq : (if h.qidx < 0 ∧ rr.rrSection = DNS_RR_QUESTION then
    { h with qidx := ((done.length + 1 : Nat) : Int) } else h) = h₁
  have hare : HostsAre h₁ (rrs ++ DnsRr.zero :: ds) := by
    rw [← hq]
    split
    · exact hloop.are.setQidx _
    · exact hloop.are
  have hn : h₁.nhosts = h.nhosts := by rw [← hq]; split <;> rfl
  have hqidx : h₁.qidx = questionIdx (done ++ [rr]) := by
    rw [questionIdx_concat, ← hloop.qidx, ← hq]
    split <;> rfl
  have hhost : h₁.hosts (done.length + 1) = rr := by
    rw [← hentry, ← hq]
    split <;> rfl
  dsimp only
  rw [derivedHosts] at hroom ⊢
  rw [hhost]
  by_cases hcname : rr.isCname = true
  · rw [if_pos hcname] at hroom ⊢
    rw [if_neg (not_not.mpr hcname)]
    have hfor : h₁.addrFor rr.rdataName = addrFor (rrs ++ ds) rr.rdataName := by
      unfold DnsHosts.addrFor
      rw [hare.entries_eq]
      exact addrFor_blank rrs ds rr.rdataName
    rw [hfor]
    cases haddr : addrFor (rrs ++ ds) rr.rdataName with
    | none => exact ⟨[], by simpa using ⟨hare, hloop.addrs, hqidx⟩, by simp⟩
    | some a =>
        -- The first address of the target is copied to the end, where later rounds find it too.
        rw [haddr] at hroom
        simp only [List.length_cons] at hroom
        refine ⟨[rr.withAddr a], ?_, by simp⟩
        dsimp only
        rw [if_neg (not_not.mpr (by omega))]
        have happend := hare.append (rr.withAddr a)
        rw [List.append_assoc, List.cons_append] at happend
        refine ⟨happend, fun d hd => ?_, hqidx⟩
        rcases List.mem_append.mp hd with hd | hd
        · exact hloop.addrs d hd
        · rw [List.mem_singleton.mp hd]
          exact DnsRr.withAddr_isAddr hcname a
  · rw [if_pos hcname, if_neg hcname]
    exact ⟨[], by simpa using ⟨hare, hloop.addrs, hqidx⟩, by simp⟩

/-- Behind the records the loop goes on without doing anything. -/
theorem HostsLoop.still {maxhosts : Nat} {rrs ds : List DnsRr} {h : DnsHosts}
    (hloop : HostsLoop rrs h rrs ds) (fuel : Nat) :
    ∀ i, rrs.length < i → dnsHostsLoop maxhosts fuel i h = h := by
  induction fuel with
  | zero => intro i _; rfl
  | succ fuel ih =>
      intro i hi
      rw [dnsHostsLoop]
      split
      · rfl
      · rename_i hlt
        rw [not_not, hloop.are.nhosts] at hlt
        have hentry := hloop.are.entry (i - 1) (by omega)
        rw [Nat.sub_add_cancel (by omega)] at hentry
        -- The entry is the blank one or an address that a CNAME has led to.
        have hkind : (h.hosts i).isCname = false ∧ (h.hosts i).rrSection ≠ DNS_RR_QUESTION := by
          rw [hentry, List.getElem_append_right (by omega)]
          have hmem := List.getElem_mem (l := DnsRr.zero :: ds) (n := i - 1 - rrs.length)
            (by simp only [List.length_append] at hlt; omega)
          rcases List.mem_cons.mp hmem with hzero | hd
          · rw [hzero]
            decide
          · have haddr := hloop.addrs _ hd
            refine ⟨DnsRr.not_isCname_of_isAddr haddr, fun hquestion => ?_⟩
            simp only [DnsRr.isAddr, decide_eq_true_eq] at haddr
            exact absurd (haddr.1.symm.trans hquestion) (by decide)
        have hround : dnsHostsRound maxhosts h i = h := by
          have hq : ¬(h.qidx < 0 ∧ (h.hosts i).rrSection = DNS_RR_QUESTION) := fun hq => hkind.2 hq.2
          unfold dnsHostsRound
          simp only [if_neg hq]
          rw [if_pos (by rw [hkind.1]; decide)]
        rw [hround]
        exact ih (i + 1) (by omega)

/-- The loop looks up all CNAMEs when there is room. Induction on the records that are left. -/
theorem dnsHostsLoop_spec {maxhosts : Nat} {rrs : List DnsRr} (rest : List DnsRr) :
    ∀ {done ds : List DnsRr} {h : DnsHosts} {fuel : Nat}, HostsLoop rrs h done ds →
      rrs = done ++ rest → h.nhosts + (derivedHosts (rrs ++ ds) rest).length ≤ maxhosts →
      rest.length ≤ fuel →
      HostsLoop rrs (dnsHostsLoop maxhosts fuel (done.length + 1) h) rrs
        (ds ++ derivedHosts (rrs ++ ds) rest) := by
  induction rest with
  | nil =>
      intro done ds h fuel hloop hrrs _ _
      rw [List.append_nil] at hrrs
      subst hrrs
      rw [hloop.still fuel _ (Nat.lt_succ_self _), derivedHosts, List.append_nil]
      exact hloop
  | cons rr rest ih =>
      intro done ds h fuel hloop hrrs hroom hfuel
      obtain ⟨ds', hround, hderived⟩ := hloop.round hrrs hroom
      rw [hderived, List.length_append] at hroom
      have hn := hloop.are.nhosts
      have hn' := hround.are.nhosts
      simp only [List.length_append, List.length_cons] at hn hn'
      obtain ⟨fuel, rfl⟩ : ∃ k, fuel = k + 1 := ⟨fuel - 1, by simp at hfuel; omega⟩
      have hlt : done.length + 1 < h.nhosts := by
        have hlen := congrArg List.length hrrs
        simp only [List.length_append, List.length_cons] at hlen
        omega
      rw [dnsHostsLoop, if_neg (not_not.mpr hlt), hderived, ← List.append_assoc]
      have hnext := ih hround (by rw [hrrs]; simp)
        (show (dnsHostsRound maxhosts h (done.length + 1)).nhosts
          + (derivedHosts (rrs ++ (ds ++ ds')) rest).length ≤ maxhosts by omega)
        (show rest.length ≤ fuel by simp at hfuel; omega)
      rw [List.length_append, List.length_singleton] at hnext
      exact hnext

/-! ### The choice -/

/-- The choice is among all addresses, from the first one on. -/
theorem dnsPickHost_eq (rrs : List DnsRr) :
    ∀ n : Int, dnsPickHost n rrs = (rrs.filter DnsRr.isAddr)[(n - 1).toNat]? := by
  induction rrs with
  | nil => intro n; rfl
  | cons rr rrs ih =>
      intro n
      rw [dnsPickHost]
      by_cases haddr : rr.isAddr = true
      · rw [if_neg (not_not.mpr haddr), List.filter_cons_of_pos haddr]
        by_cases hn : 0 < n - 1
        · rw [if_pos hn, ih, show (n - 1).toNat = (n - 1 - 1).toNat + 1 by omega,
            List.getElem?_cons_succ]
        · rw [if_neg hn, show (n - 1).toNat = 0 by omega, List.getElem?_cons_zero]
      · rw [if_pos haddr, List.filter_cons_of_neg haddr, ih]

/-- The addresses of a reply with these records: those that were received, then the derived ones. -/
def hostAddrs (rrs : List DnsRr) : List DnsRr := (rrs ++ derivedHosts rrs rrs).filter DnsRr.isAddr

/-- There is room for the records and the addresses of the CNAMEs. -/
def HostsFit (rrs : List DnsRr) (maxhosts : Nat) : Prop :=
  rrs.length + 2 < maxhosts ∧ rrs.length + 2 + (derivedHosts rrs rrs).length ≤ maxhosts

/-- The entries of the result. -/
def DnsResolved.entries (r : DnsResolved) : List DnsRr :=
  (List.range' 1 (r.ret.toNat - 1)).map r.hosts

/-- A reply that can be read, with a question. -/
structure Decodable (fuel : Nat) (mem : Int → UInt8) (buf buflen : Int) (rrs : List DnsRr)
    (question : DnsRr) : Prop where
  qr : (dnsReceive mem buf buflen).qr ≠ 0
  read : ∃ all, dnsReadRrs fuel (dnsReceive mem buf buflen) = some all ∧
    rrs = all.filter DnsRr.listed
  question : (rrs.find? fun rr => rr.rrSection = DNS_RR_QUESTION) = some question

theorem Decodable.listed {fuel : Nat} {mem : Int → UInt8} {buf buflen : Int} {rrs : List DnsRr}
    {question : DnsRr} (h : Decodable fuel mem buf buflen rrs question) :
    ∀ rr ∈ rrs, rr.listed = true := by
  obtain ⟨all, -, rfl⟩ := h.read
  exact fun rr hrr => (List.mem_filter.mp hrr).2

/-- How many of the addresses have the name. -/
def addrsNamed (rrs : List DnsRr) (name : List UInt8) : Nat :=
  (hostAddrs rrs).countP fun rr => strcasecmpEq rr.name name

/-- The first question is at that index. -/
theorem questionIdx_of_find {rrs : List DnsRr} {question : DnsRr}
    (h : (rrs.find? fun rr => rr.rrSection = DNS_RR_QUESTION) = some question) :
    ∃ (k : Nat) (hk : k < rrs.length), questionIdx rrs = k + 1 ∧ rrs[k] = question := by
  obtain ⟨hquestion, k, hk, hat, hbefore⟩ := List.find?_eq_some_iff_getElem.mp h
  have hidx : rrs.findIdx? (fun rr => rr.rrSection = DNS_RR_QUESTION) = some k := by
    refine List.findIdx?_eq_some_iff_getElem.mpr ⟨hk, by rw [hat]; exact hquestion, fun j hj => ?_⟩
    have hno := hbefore j hj
    simpa using hno
  refine ⟨k, hk, ?_, hat⟩
  rw [questionIdx, hidx]

/-! When the loop has come to its end: -/

section
variable {rrs : List DnsRr} {h : DnsHosts} (hloop : HostsLoop rrs h rrs (derivedHosts rrs rrs))
include hloop

/-- The entry at `qidx` is the first question. -/
theorem HostsLoop.asked {question : DnsRr}
    (hquestion : (rrs.find? fun rr => rr.rrSection = DNS_RR_QUESTION) = some question) :
    0 < h.qidx ∧ h.hosts h.qidx.toNat = question := by
  obtain ⟨k, hk, hidx, hat⟩ := questionIdx_of_find hquestion
  have hqidx := hloop.qidx.trans hidx
  refine ⟨by omega, ?_⟩
  rw [hqidx, show ((k : Int) + 1).toNat = k + 1 by omega,
    hloop.are.entry k (by simp only [List.length_append]; omega), List.getElem_append_left hk, hat]

theorem HostsLoop.entries_isAddr : h.entries.filter DnsRr.isAddr = hostAddrs rrs := by
  rw [hloop.are.entries_eq, hostAddrs, List.filter_append, List.filter_append,
    List.filter_cons_of_neg (by rw [DnsRr.isAddr_zero]; decide)]

theorem HostsLoop.count (name : List UInt8) :
    (h.entries.countP fun rr => rr.isAddr && strcasecmpEq rr.name name) = addrsNamed rrs name := by
  rw [addrsNamed, ← hloop.entries_isAddr, List.countP_filter]
  exact List.countP_congr fun rr _ => by rw [Bool.and_comm]

theorem HostsLoop.pick (n : Nat) : dnsPickHost n h.entries = (hostAddrs rrs)[n - 1]? := by
  rw [dnsPickHost_eq, hloop.entries_isAddr]
  congr 1
  omega

end

section
variable (rand : Nat → Nat) {fuel : Nat} {mem : Int → UInt8} {buf buflen : Int} (hosts : Nat → DnsRr)
  {maxhosts : Nat} {rrs : List DnsRr} {question : DnsRr}

/-- The records are copied and the CNAMEs looked up when there is room. -/
theorem Decodable.looped (h : Decodable fuel mem buf buflen rrs question)
    (hfit : HostsFit rrs maxhosts) :
    ∃ h₁, dnsHostsRead maxhosts fuel (dnsReceive mem buf buflen)
        ⟨dnsHostsClear hosts maxhosts, 2, -1⟩ = some h₁ ∧ h₁.nhosts < maxhosts ∧
      HostsLoop rrs (dnsHostsLoop maxhosts maxhosts 1 h₁) rrs (derivedHosts rrs rrs) := by
  obtain ⟨all, hread, hall⟩ := h.read
  obtain ⟨hfit₁, hfit₂⟩ := hfit
  obtain ⟨h₁, hh₁, hhosts⟩ := dnsHostsRead_spec fuel
    (hostsRead_clear hosts (show 2 < maxhosts by omega)) hread (by rw [List.nil_append, ← hall]; omega)
  rw [List.nil_append, ← hall] at hhosts
  have hn₁ := hhosts.are.nhosts
  rw [List.length_append, List.length_singleton] at hn₁
  have hstart : HostsLoop rrs h₁ [] [] := ⟨hhosts.are, by simp, hhosts.qidx⟩
  have hspec : HostsLoop rrs (dnsHostsLoop maxhosts maxhosts 1 h₁) rrs
      ([] ++ derivedHosts (rrs ++ []) rrs) :=
    dnsHostsLoop_spec rrs hstart rfl (by rw [List.append_nil]; omega) (by omega)
  rw [List.append_nil, List.nil_append] at hspec
  exact ⟨h₁, hh₁, by omega, hspec⟩

/-- What `dns_resolve_reply` returns when there is room. -/
theorem dnsResolveReply_spec (h : Decodable fuel mem buf buflen rrs question)
    (hfit : HostsFit rrs maxhosts) :
    ∃ r, dnsResolveReply rand fuel mem buf buflen hosts maxhosts = some r ∧ 0 < r.ret ∧
      r.entries = rrs ++ DnsRr.zero :: derivedHosts rrs rrs ∧
      r.hosts 0 = ((hostAddrs rrs)[rand (addrsNamed rrs question.name + 1) - 1]?).getD DnsRr.zero := by
  obtain ⟨h₁, hh₁, hn₁, hdone⟩ := h.looped hosts hfit
  have hroom := hfit.1
  have hqr := h.qr
  have hunpack : (dnsUnpack (dnsInit mem buf buflen).1).1 = dnsReceive mem buf buflen := rfl
  have hret : (dnsUnpack (dnsInit mem buf buflen).1).2 = 12 := by
    show buf + 12 - buf = 12
    omega
  unfold dnsResolveReply
  dsimp only
  rw [hret, hunpack, if_neg (not_or.mpr ⟨by decide, hqr⟩), if_neg (not_not.mpr (by omega)), hh₁,
    Option.map_some, if_neg (not_not.mpr hn₁)]
  generalize dnsHostsLoop maxhosts maxhosts 1 h₁ = h₂ at hdone ⊢
  obtain ⟨hqidx, hname⟩ := hdone.asked h.question
  rw [if_neg (not_not.mpr hqidx), hname, hdone.count, hdone.pick]
  -- The choice changes the entry 0 only.
  have hlisted : ∀ host : Nat → DnsRr, (∀ n, 0 < n → host n = h₂.hosts n) →
      (List.range' 1 (h₂.nhosts - 1)).map host = rrs ++ DnsRr.zero :: derivedHosts rrs rrs := by
    intro host hsame
    rw [← hdone.are.entries_eq]
    refine List.map_congr_left fun n hn => hsame n ?_
    have hmem := List.mem_range'.mp hn
    omega
  have hpos : 0 < (h₂.nhosts : Int) := by
    rw [hdone.are.nhosts]
    omega
  cases (hostAddrs rrs)[rand (addrsNamed rrs question.name + 1) - 1]? with
  | none => exact ⟨_, rfl, hpos, hlisted _ fun _ _ => rfl, hdone.are.first⟩
  | some a =>
      refine ⟨⟨h₂.nhosts, some (dnsReceive mem buf buflen).id, (h₂.set 0 a).hosts⟩, rfl, hpos,
        hlisted _ fun n hn => ?_, ?_⟩
      · exact Function.update_of_ne (show n ≠ 0 by omega) a h₂.hosts
      · exact Function.update_self 0 a h₂.hosts

end

/-! ### Behind the hosts -/

/-- The loop that copies does not write behind the hosts. Induction on the calls. -/
theorem dnsHostsRead_inside {maxhosts : Nat} (fuel : Nat) :
    ∀ {dns : Dns} {h h' : DnsHosts}, h.nhosts < maxhosts →
      dnsHostsRead maxhosts fuel dns h = some h' → ∀ n, maxhosts ≤ n → h'.hosts n = h.hosts n := by
  induction fuel with
  | zero =>
      intro dns h h' _ hrun
      exact absurd hrun (by simp [dnsHostsRead])
  | succ fuel ih =>
      intro dns h h' hlt hrun n hn
      rw [dnsHostsRead] at hrun
      dsimp only at hrun
      split at hrun
      · rw [← Option.some.inj hrun]
      · split at hrun
        · exact ih hlt hrun n hn
        · -- The record is copied to the entry before `nhosts`.
          have hcopy : ∀ rr, Function.update h.hosts (h.nhosts - 1) rr n = h.hosts n := fun rr =>
            Function.update_of_ne (by omega) rr h.hosts
          split at hrun
          · rw [← Option.some.inj hrun]
            exact hcopy _
          · rename_i hroom
            rw [ih (not_not.mp hroom) hrun n hn]
            exact hcopy _

/-- A round does not write behind the array. -/
theorem dnsHostsRound_inside (maxhosts : Nat) (h : DnsHosts) (i : Nat) {n : Nat} (hn : maxhosts ≤ n) :
    (dnsHostsRound maxhosts h i).hosts n = h.hosts n := by
  unfold dnsHostsRound
  generalize hq : (if h.qidx < 0 ∧ (h.hosts i).rrSection = DNS_RR_QUESTION then
    { h with qidx := (i : Int) } else h) = h₁
  have hsame : h₁.hosts = h.hosts := by
    rw [← hq]
    split <;> rfl
  dsimp only
  split
  · rw [hsame]
  · split
    · rw [hsame]
    · split
      · rw [hsame]
      · rename_i a _ hroom
        rw [← hsame]
        exact Function.update_of_ne (show n ≠ h₁.nhosts by omega) _ h₁.hosts

/-- Neither does the loop. -/
theorem dnsHostsLoop_inside (maxhosts fuel : Nat) :
    ∀ (i : Nat) (h : DnsHosts) {n : Nat}, maxhosts ≤ n →
      (dnsHostsLoop maxhosts fuel i h).hosts n = h.hosts n := by
  induction fuel with
  | zero => intro i h n _; rfl
  | succ fuel ih =>
      intro i h n hn
      rw [dnsHostsLoop]
      split
      · rfl
      · rw [ih _ _ hn, dnsHostsRound_inside maxhosts h i hn]

/-- Whatever is received, and however many hosts there is room for, `dns_resolve_reply` does not write
behind them. -/
theorem dnsResolveReply_inside (rand : Nat → Nat) {fuel : Nat} {mem : Int → UInt8} {buf buflen : Int}
    {hosts : Nat → DnsRr} {maxhosts : Nat} {r : DnsResolved}
    (hrun : dnsResolveReply rand fuel mem buf buflen hosts maxhosts = some r) {n : Nat}
    (hn : maxhosts ≤ n) : r.hosts n = hosts n := by
  have hclear : dnsHostsClear hosts maxhosts n = hosts n := if_neg (Nat.not_lt.mpr hn)
  unfold dnsResolveReply at hrun
  dsimp only at hrun
  split at hrun
  · rw [← Option.some.inj hrun]
    exact hclear
  split at hrun
  · rw [← Option.some.inj hrun]
    exact hclear
  rename_i hroom
  obtain ⟨h, hread, rfl⟩ := Option.map_eq_some_iff.mp hrun
  have hcopied : h.hosts n = hosts n := by
    rw [dnsHostsRead_inside fuel (not_not.mp hroom) hread n hn]
    exact hclear
  have hlooped : (dnsHostsLoop maxhosts maxhosts 1 h).hosts n = hosts n :=
    (dnsHostsLoop_inside maxhosts maxhosts 1 h hn).trans hcopied
  split
  · exact hcopied
  split
  · exact hlooped
  split
  · exact hlooped
  · rename_i a _
    exact (Function.update_of_ne (show n ≠ 0 by omega) a _).trans hlooped

/-! ### The addresses of a reply -/

/-- An address that the records give: one that was received, or one that a CNAME leads to. -/
inductive AddrRecord (rrs : List DnsRr) : DnsRr → Prop where
  | received {a : DnsRr} (hmem : a ∈ rrs) (haddr : a.isAddr = true) : AddrRecord rrs a
  | derived {c a : DnsRr} (hmem : c ∈ rrs) (hcname : c.isCname = true) (target : AddrRecord rrs a)
      (hname : strcasecmpEq a.name c.rdataName = true) : AddrRecord rrs (c.withAddr a)

theorem AddrRecord.isAddr {rrs : List DnsRr} {rr : DnsRr} (h : AddrRecord rrs rr) :
    rr.isAddr = true := by
  cases h with
  | received _ haddr => exact haddr
  | derived _ hcname _ _ => exact DnsRr.withAddr_isAddr hcname _

/-- Every CNAME that leads to an address leads to one that was received. -/
theorem AddrRecord.exists_received {rrs : List DnsRr} {rr : DnsRr} (h : AddrRecord rrs rr) :
    ∃ a ∈ rrs, a.isAddr = true := by
  induction h with
  | received hmem haddr => exact ⟨_, hmem, haddr⟩
  | derived _ _ _ _ ih => exact ih

theorem DnsRr.ne_zero_of_isAddr {rr : DnsRr} (h : rr.isAddr = true) : rr ≠ DnsRr.zero := by
  rintro rfl
  exact absurd (h.symm.trans DnsRr.isAddr_zero) (by decide)

/-- Induction on the records that are left. -/
theorem derivedHosts_addrRecord {rrs : List DnsRr} (rest : List DnsRr) :
    ∀ {entries : List DnsRr}, (∀ a ∈ entries, a.isAddr = true → AddrRecord rrs a) → rest ⊆ rrs →
      ∀ d ∈ derivedHosts entries rest, AddrRecord rrs d := by
  induction rest with
  | nil => simp [derivedHosts]
  | cons rr rest ih =>
      intro entries hentries hsub d hd
      have hrest : rest ⊆ rrs := fun a ha => hsub (List.mem_cons_of_mem rr ha)
      rw [derivedHosts] at hd
      split at hd
      · exact ih hentries hrest d hd
      · rename_i a ha
        have hcname : rr.isCname = true := by
          by_contra hno
          rw [if_neg hno] at ha
          exact absurd ha (by simp)
        rw [if_pos hcname] at ha
        have hfound := List.find?_some ha
        rw [Bool.and_eq_true] at hfound
        have htarget := hentries a (List.mem_of_find?_eq_some ha) hfound.1
        have hderived : AddrRecord rrs (rr.withAddr a) :=
          .derived (hsub List.mem_cons_self) hcname htarget hfound.2
        rcases List.mem_cons.mp hd with rfl | hd
        · exact hderived
        · refine ih (fun b hb haddr => ?_) hrest d hd
          rcases List.mem_append.mp hb with hb | hb
          · exact hentries b hb haddr
          · rw [List.mem_singleton.mp hb]
            exact hderived

/-- The addresses of the hosts are address records. -/
theorem hostAddrs_addrRecord {rrs : List DnsRr} {a : DnsRr} (h : a ∈ hostAddrs rrs) :
    AddrRecord rrs a := by
  obtain ⟨hmem, haddr⟩ := List.mem_filter.mp h
  rcases List.mem_append.mp hmem with hmem | hmem
  · exact .received hmem haddr
  · exact derivedHosts_addrRecord rrs (fun b hb hb' => .received hb hb') (fun _ hb => hb) a hmem

/-- There is no address when no record is one. -/
theorem hostAddrs_eq_nil_iff (rrs : List DnsRr) :
    hostAddrs rrs = [] ↔ ∀ rr ∈ rrs, rr.isAddr = false := by
  constructor
  · intro hnil rr hrr
    by_contra haddr
    have hmem : rr ∈ hostAddrs rrs :=
      List.mem_filter.mpr ⟨List.mem_append_left _ hrr, Bool.not_eq_false _ ▸ haddr⟩
    rw [hnil] at hmem
    exact absurd hmem (by simp)
  · intro hnone
    refine List.eq_nil_iff_forall_not_mem.mpr fun a ha => ?_
    obtain ⟨b, hb, haddr⟩ := (hostAddrs_addrRecord ha).exists_received
    exact absurd (haddr.symm.trans (hnone b hb)) (by decide)

/-! ### A reply with one address -/

/-- Without a CNAME no host is derived. -/
theorem derivedHosts_of_no_cname {rrs : List DnsRr} :
    ∀ {entries : List DnsRr}, (∀ rr ∈ rrs, rr.isCname = false) → derivedHosts entries rrs = [] := by
  induction rrs with
  | nil => intro _ _; rfl
  | cons rr rrs ih =>
      intro entries hno
      rw [derivedHosts, if_neg (by rw [hno rr List.mem_cons_self]; decide)]
      exact ih fun a ha => hno a (List.mem_cons_of_mem rr ha)

/-- A question for the address of `a`. -/
def repliedQuestion : DnsRr := ⟨DNS_RR_QUESTION, [97], DNS_TYPE_A, DNS_CLASS_IN, 0, 0, 0, 0, []⟩

/-- An address whose name is one byte. -/
def repliedAddr (c : UInt8) : DnsRr :=
  ⟨DNS_RR_ANSWER, [c], DNS_TYPE_A, DNS_CLASS_IN, 60, 0, 0, 0x0100007f, []⟩

def repliedStart : Dns := { (dnsInit (fun _ => 0) 1 64).1 with qr := 1 }

/-- The reply that is packed from them. -/
def repliedMessage (c : UInt8) : Dns :=
  run (fun dns rr => (dnsRrPack id dns rr).1) repliedStart [repliedQuestion, repliedAddr c]

theorem nameCanonical_letter {c : UInt8} (hc : c = 97 ∨ c = 98) : NameCanonical [c] := by
  rcases hc with rfl | rfl
  · exact nameCanonical_a
  · exact nameCanonical_single ⟨by decide, by decide, by decide⟩ (by decide)

/-- The sample is a message in which both records were packed. -/
theorem repliedMessage_packed {c : UInt8} (hc : c = 97 ∨ c = 98) :
    PackedRrs repliedStart (repliedMessage c) [repliedQuestion, repliedAddr c] := by
  refine PackedRrs.run id _ (packedRrs_start rfl rfl (by decide)) ⟨?_, ?_, trivial⟩
  · refine packStep_of_canonical id (rrCanonical_addr rfl nameCanonical_a rfl)
      ⟨by decide +kernel, by decide +kernel⟩ ⟨fun i hi => ?_, fun hresource => absurd rfl hresource⟩
    have hnone : knownSuffix repliedStart.nameAt [97] = none := by decide +kernel
    exact absurd (hnone.symm.trans hi) (by simp)
  · refine packStep_of_canonical id (rrCanonical_addr rfl (nameCanonical_letter hc) rfl) ?_
      ⟨fun i hi => ?_, fun _ hname =>
        absurd (hname.symm.trans (DnsRr.hasName_of_typeA rfl)) (by decide)⟩
    · rcases hc with rfl | rfl <;> exact ⟨by decide +kernel, by decide +kernel⟩
    · rcases hc with rfl | rfl
      · have hsome : knownSuffix (dnsRrPack id repliedStart repliedQuestion).1.nameAt [97]
            = some 12 := by decide +kernel
        obtain rfl := Option.some.inj (hsome.symm.trans hi)
        decide +kernel
      · have hnone : knownSuffix (dnsRrPack id repliedStart repliedQuestion).1.nameAt [98]
            = none := by decide +kernel
        exact absurd (hnone.symm.trans hi) (by simp)

/-- The reply is read as a question and an address. -/
structure RepliedAs (c : UInt8) (asked addr : DnsRr) : Prop where
  decodable : Decodable 3 (dnsPack (repliedMessage c)).1.mem 1 (dnsPack (repliedMessage c)).2
    [asked, addr] asked
  asked : asked.name = [97] ∧ asked.isAddr = false ∧ asked.isCname = false
  addr : addr.name = [c] ∧ addr.isAddr = true

/-- So both can be read. -/
theorem repliedMessage_read {c : UInt8} (hc : c = 97 ∨ c = 98) :
    ∃ asked addr, RepliedAs c asked addr := by
  have hplain : ([repliedQuestion, repliedAddr c].Pairwise fun rr rr' => rr.rrSection ≤ rr'.rrSection)
      ∧ (∀ rr ∈ [repliedQuestion, repliedAddr c], rr.counted = true)
      ∧ NameDataLast [repliedQuestion, repliedAddr c] := by
    unfold NameDataLast
    rcases hc with rfl | rfl <;> decide
  obtain ⟨got, hgot, hcontent⟩ := (repliedMessage_packed hc).reads (by decide) rfl rfl rfl rfl rfl
    hplain.1 hplain.2.1 (Nat.le_of_ble_eq_true rfl) hplain.2.2
  obtain ⟨asked, got, rfl, hasked, hrest⟩ := List.map_eq_cons_iff.mp hcontent
  obtain ⟨addr, got, rfl, haddr, hnil⟩ := List.map_eq_cons_iff.mp hrest
  obtain rfl := List.map_eq_nil_iff.mp hnil
  -- Neither the section, nor the type, nor the name is lost.
  have hquestion : asked.rrSection = DNS_RR_QUESTION := congrArg DnsRr.rrSection hasked
  have hanswer : addr.rrSection = DNS_RR_ANSWER := congrArg DnsRr.rrSection haddr
  have hbuf : (repliedMessage c).buf = 1 := by
    rcases hc with rfl | rfl <;> decide +kernel
  have hqr : (dnsReceive (dnsPack (repliedMessage c)).1.mem 1
      (dnsPack (repliedMessage c)).2).qr ≠ 0 := by
    rcases hc with rfl | rfl <;> decide +kernel
  rw [hbuf] at hgot
  refine ⟨asked, addr, ⟨hqr, ⟨_, hgot, ?_⟩, ?_⟩, ⟨congrArg DnsRr.name hasked, ?_, ?_⟩,
    congrArg DnsRr.name haddr, ?_⟩
  · simp [DnsRr.listed, hquestion, hanswer]
  · simp [hquestion]
  · simp [DnsRr.isAddr, hquestion, DNS_RR_QUESTION, DNS_RR_ANSWER]
  · simp [DnsRr.isCname, hquestion, DNS_RR_QUESTION, DNS_RR_ANSWER]
  · exact decide_eq_true ⟨hanswer, congrArg DnsRr.rrType haddr⟩

section
variable {c : UInt8} {asked addr : DnsRr} (h : RepliedAs c asked addr)
include h

/-- The sample reply derives no host. -/
theorem RepliedAs.derived : derivedHosts [asked, addr] [asked, addr] = [] := by
  refine derivedHosts_of_no_cname fun rr hrr => ?_
  rcases List.mem_cons.mp hrr with rfl | hrr
  · exact h.asked.2.2
  · rw [List.mem_singleton.mp hrr]
    exact DnsRr.not_isCname_of_isAddr h.addr.2

theorem RepliedAs.hostAddrs : hostAddrs [asked, addr] = [addr] := by
  rw [Bklib.hostAddrs, h.derived, List.append_nil,
    List.filter_cons_of_neg (by rw [h.asked.2.1]; decide), List.filter_cons_of_pos h.addr.2,
    List.filter_nil]

theorem RepliedAs.fit : HostsFit [asked, addr] 8 := by
  unfold HostsFit
  rw [h.derived]
  exact ⟨show 4 < 8 by decide, show 4 ≤ 8 by decide⟩

end

/-! ### The entries -/

/-- An address that the CNAME leads to. -/
def DerivedFrom (rrs : List DnsRr) (cname derived : DnsRr) : Prop :=
  ∃ a, AddrRecord rrs a ∧ strcasecmpEq a.name cname.rdataName = true ∧ derived = cname.withAddr a

/-- The entries are the records, and one address for each CNAME whose target has an address. -/
def HostsListed (r : DnsResolved) (rrs : List DnsRr) : Prop :=
  ∃ ds, List.Forall₂ (DerivedFrom rrs)
      (rrs.filter fun rr => rr.isCname && (addrFor rrs rr.rdataName).isSome) ds ∧
    r.entries = rrs ++ ds

/-- None of them is blank. -/
theorem HostsListed.no_blank {r : DnsResolved} {rrs : List DnsRr} (h : HostsListed r rrs)
    (hlisted : ∀ rr ∈ rrs, rr.listed = true) : DnsRr.zero ∉ r.entries := by
  obtain ⟨ds, hds, hentries⟩ := h
  rw [hentries, List.mem_append, not_or]
  constructor
  · intro hmem
    exact absurd (hlisted _ hmem) (by decide)
  · intro hmem
    obtain ⟨k, hk, hat⟩ := List.getElem_of_mem hmem
    obtain ⟨a, -, -, heq⟩ := hds.get (by rw [hds.length_eq]; exact hk) hk
    have hcname := List.mem_filter.mp (List.get_mem (rrs.filter fun rr =>
      rr.isCname && (addrFor rrs rr.rdataName).isSome) ⟨k, by rw [hds.length_eq]; exact hk⟩)
    have haddr := DnsRr.withAddr_isAddr (Bool.and_eq_true _ _ ▸ hcname.2).1 a
    rw [← heq, List.get_eq_getElem, hat] at haddr
    exact absurd (haddr.symm.trans DnsRr.isAddr_zero) (by decide)

section
variable (rand : Nat → Nat) {fuel : Nat} {mem : Int → UInt8} {buf buflen : Int} (hosts : Nat → DnsRr)
  {maxhosts : Nat} {rrs : List DnsRr} {question : DnsRr}

/-- There is always a blank entry behind the records, so the entries are never those that were
received. -/
theorem dnsResolveReply_lists_never (h : Decodable fuel mem buf buflen rrs question)
    (hfit : HostsFit rrs maxhosts) :
    ∃ r, dnsResolveReply rand fuel mem buf buflen hosts maxhosts = some r ∧
      r.entries = rrs ++ DnsRr.zero :: derivedHosts rrs rrs ∧ ¬HostsListed r rrs := by
  obtain ⟨r, hr, -, hentries, -⟩ := dnsResolveReply_spec rand hosts h hfit
  refine ⟨r, hr, hentries, fun hlisted => hlisted.no_blank h.listed ?_⟩
  rw [hentries]
  simp

end

/-- The result for a question and its answer is 4, and the entry 3 is blank. -/
theorem dnsResolveReply_lists_blank :
    ∃ (fuel : Nat) (rrs : List DnsRr) (r : DnsResolved),
      dnsResolveReply (fun _ => 0) fuel (dnsPack (repliedMessage 97)).1.mem 1
        (dnsPack (repliedMessage 97)).2 (fun _ => DnsRr.zero) 8 = some r ∧
      rrs.length = 2 ∧ r.entries = rrs ++ [DnsRr.zero] ∧ ¬HostsListed r rrs := by
  obtain ⟨asked, addr, h⟩ := repliedMessage_read (Or.inl rfl : (97 : UInt8) = 97 ∨ _)
  obtain ⟨r, hr, hentries, hnot⟩ :=
    dnsResolveReply_lists_never (fun _ => 0) (fun _ => DnsRr.zero) h.decodable h.fit
  rw [h.derived] at hentries
  exact ⟨3, _, r, hr, rfl, hentries, hnot⟩

/-- A blank entry is listed, too, so the list is not that of the records. -/
theorem not_lists_replied :
    ¬∀ (rand : Nat → Nat) (fuel : Nat) (mem : Int → UInt8) (buf buflen : Int) (hosts : Nat → DnsRr)
      (maxhosts : Nat) (rrs : List DnsRr) (question : DnsRr) (r : DnsResolved),
      Decodable fuel mem buf buflen rrs question → HostsFit rrs maxhosts →
      dnsResolveReply rand fuel mem buf buflen hosts maxhosts = some r → HostsListed r rrs := by
  intro hall
  obtain ⟨asked, addr, h⟩ := repliedMessage_read (Or.inl rfl : (97 : UInt8) = 97 ∨ _)
  obtain ⟨r, hr, -, hentries, -⟩ :=
    dnsResolveReply_spec (fun _ => 0) (fun _ => DnsRr.zero) h.decodable h.fit
  have hlisted := hall _ 3 _ 1 _ _ 8 _ asked r h.decodable h.fit hr
  refine hlisted.no_blank h.decodable.listed ?_
  rw [hentries]
  simp

/-! ### The chosen host -/

/-- An address that answers the question. -/
structure AnswerTo (rrs : List DnsRr) (question rr : DnsRr) : Prop where
  record : AddrRecord rrs rr
  name : strcasecmpEq rr.name question.name = true

/-- The host answers the question, or there is no answer. -/
structure HostAnswers (rrs : List DnsRr) (question host : DnsRr) : Prop where
  answer : host = DnsRr.zero ∨ AnswerTo rrs question host
  found : (∃ rr, AnswerTo rrs question rr) → host ≠ DnsRr.zero

/-- The draw is bound by the count of the answers, so it passes the last address only when all of them
are answers. -/
theorem hostAnswers_iff {rrs : List DnsRr} {question : DnsRr} {n : Nat}
    (hn : n ≤ addrsNamed rrs question.name) :
    HostAnswers rrs question (((hostAddrs rrs)[n]?).getD DnsRr.zero) ↔
      (∀ rr ∈ rrs, rr.isAddr = false) ∨
        ∃ a, (hostAddrs rrs)[n]? = some a ∧ strcasecmpEq a.name question.name = true := by
  rw [← hostAddrs_eq_nil_iff]
  cases hselected : (hostAddrs rrs)[n]? with
  | some a =>
      have ha := hostAddrs_addrRecord (List.mem_of_getElem? hselected)
      have hne := DnsRr.ne_zero_of_isAddr ha.isAddr
      constructor
      · rintro ⟨hzero | hanswer, -⟩
        · exact absurd hzero hne
        · exact Or.inr ⟨a, rfl, hanswer.name⟩
      · rintro (hnil | ⟨b, hb, hname⟩)
        · rw [hnil] at hselected
          exact absurd hselected (by simp)
        · obtain rfl := Option.some.inj hb
          exact ⟨Or.inr ⟨ha, hname⟩, fun _ => hne⟩
  | none =>
      have hlen := List.getElem?_eq_none_iff.mp hselected
      constructor
      · rintro ⟨-, hfound⟩
        by_contra hno
        obtain ⟨b, hb⟩ := List.exists_mem_of_ne_nil _ fun hnil => hno (Or.inl hnil)
        -- The draw has passed the last address, so each of them is counted as an answer.
        have hall : addrsNamed rrs question.name = (hostAddrs rrs).length :=
          Nat.le_antisymm List.countP_le_length (Nat.le_trans hlen hn)
        have hname := List.countP_eq_length.mp hall b hb
        exact hfound ⟨b, hostAddrs_addrRecord hb, hname⟩ rfl
      · rintro (hnil | ⟨b, hb, -⟩)
        · refine ⟨Or.inl rfl, ?_⟩
          rintro ⟨b, hb⟩
          obtain ⟨a, ha, haddr⟩ := hb.record.exists_received
          have hnone := (hostAddrs_eq_nil_iff rrs).mp hnil a ha
          exact absurd (haddr.symm.trans hnone) (by decide)
        · exact absurd hb (by simp)

/-- Not all of the first elements are counted, when there is one more of them than the count.
Induction on the list. -/
theorem exists_not_counted {α : Type} (p : α → Bool) (l : List α) :
    ∃ n, n ≤ l.countP p ∧ ¬∃ a, l[n]? = some a ∧ p a = true := by
  induction l with
  | nil => exact ⟨0, Nat.le_refl 0, by simp⟩
  | cons b l ih =>
      by_cases hb : p b = true
      · obtain ⟨n, hn, hnone⟩ := ih
        refine ⟨n + 1, ?_, hnone⟩
        rw [List.countP_cons_of_pos hb]
        exact Nat.succ_le_succ hn
      · refine ⟨0, Nat.zero_le _, ?_⟩
        rintro ⟨a, ha, hcounted⟩
        obtain rfl := Option.some.inj ha
        exact hb hcounted

section
variable (rand : Nat → Nat) {fuel : Nat} {mem : Int → UInt8} {buf buflen : Int} (hosts : Nat → DnsRr)
  {maxhosts : Nat} {rrs : List DnsRr} {question : DnsRr}

/-- With every draw the host answers the question only when no address was received. -/
theorem dnsResolveReply_every_draw (h : Decodable fuel mem buf buflen rrs question)
    (hfit : HostsFit rrs maxhosts) :
    (∀ rand : Nat → Nat, (∀ k, 0 < k → rand k ≤ k) →
      ∃ r, dnsResolveReply rand fuel mem buf buflen hosts maxhosts = some r ∧
        HostAnswers rrs question (r.hosts 0)) ↔ ∀ rr ∈ rrs, rr.isAddr = false := by
  constructor
  · intro hall
    -- The draw that passes the answers before the first address of another name selects that one.
    obtain ⟨n, hn, hnone⟩ :=
      exists_not_counted (fun rr => strcasecmpEq rr.name question.name) (hostAddrs rrs)
    obtain ⟨r, hr, hanswers⟩ := hall (fun k => min k (n + 1)) fun k _ => Nat.min_le_left k (n + 1)
    obtain ⟨r', hr', -, -, hhost⟩ :=
      dnsResolveReply_spec (fun k => min k (n + 1)) hosts h hfit
    obtain rfl := Option.some.inj (hr.symm.trans hr')
    have hdraw : min (addrsNamed rrs question.name + 1) (n + 1) - 1 = n := by
      have hle : n ≤ addrsNamed rrs question.name := hn
      omega
    rw [hhost, hdraw] at hanswers
    exact ((hostAnswers_iff hn).mp hanswers).resolve_right hnone
  · intro hno rand hrand
    obtain ⟨r, hr, -, -, hhost⟩ := dnsResolveReply_spec rand hosts h hfit
    have hdraw := hrand (addrsNamed rrs question.name + 1) (Nat.succ_pos _)
    refine ⟨r, hr, ?_⟩
    rw [hhost]
    exact (hostAnswers_iff (by omega)).mpr (Or.inl hno)

/-- The host answers the question if and only if no address was received, or the selected address has
the name. -/
theorem dnsResolveReply_answers_iff (hrand : ∀ k, 0 < k → rand k ≤ k)
    (h : Decodable fuel mem buf buflen rrs question) (hfit : HostsFit rrs maxhosts) :
    ∃ r, dnsResolveReply rand fuel mem buf buflen hosts maxhosts = some r ∧ 0 < r.ret ∧
      (HostAnswers rrs question (r.hosts 0) ↔
        (∀ rr ∈ rrs, rr.isAddr = false) ∨
          ∃ a, (hostAddrs rrs)[rand (addrsNamed rrs question.name + 1) - 1]? = some a ∧
            strcasecmpEq a.name question.name = true) := by
  obtain ⟨r, hr, hret, -, hhost⟩ := dnsResolveReply_spec rand hosts h hfit
  have hdraw := hrand (addrsNamed rrs question.name + 1) (Nat.succ_pos _)
  refine ⟨r, hr, hret, ?_⟩
  rw [hhost]
  exact hostAnswers_iff (by omega)

end

/-- The draw of 0 for the only answer selects it. -/
theorem dnsResolveReply_answers_a :
    ∃ (fuel : Nat) (rrs : List DnsRr) (question : DnsRr) (r : DnsResolved),
      dnsResolveReply (fun _ => 0) fuel (dnsPack (repliedMessage 97)).1.mem 1
        (dnsPack (repliedMessage 97)).2 (fun _ => DnsRr.zero) 8 = some r ∧
      HostAnswers rrs question (r.hosts 0) := by
  obtain ⟨asked, addr, h⟩ := repliedMessage_read (c := 97) (Or.inl rfl)
  obtain ⟨r, hr, -, hanswers⟩ := dnsResolveReply_answers_iff (fun _ => 0) (fun _ => DnsRr.zero)
    (fun _ _ => Nat.zero_le _) h.decodable h.fit
  refine ⟨3, _, asked, r, hr, hanswers.mpr (Or.inr ⟨addr, ?_, ?_⟩)⟩
  · rw [h.hostAddrs]
    rfl
  · rw [h.addr.1, h.asked.1]
    decide

/-- The only address is chosen although it is not one of the name that is asked for. -/
theorem not_answers_other :
    ¬∀ (rand : Nat → Nat) (fuel : Nat) (mem : Int → UInt8) (buf buflen : Int) (hosts : Nat → DnsRr)
      (maxhosts : Nat) (rrs : List DnsRr) (question : DnsRr) (r : DnsResolved),
      (∀ k, 0 < k → rand k ≤ k) → Decodable fuel mem buf buflen rrs question →
      HostsFit rrs maxhosts → dnsResolveReply rand fuel mem buf buflen hosts maxhosts = some r →
      0 < r.ret → HostAnswers rrs question (r.hosts 0) := by
  intro hall
  obtain ⟨asked, addr, h⟩ := repliedMessage_read (c := 98) (Or.inr rfl)
  obtain ⟨r, hr, hret, -, hhost⟩ :=
    dnsResolveReply_spec (fun _ => 0) (fun _ => DnsRr.zero) h.decodable h.fit
  have hanswers := hall (fun _ => 0) 3 _ 1 _ (fun _ => DnsRr.zero) 8 _ asked r
    (fun _ _ => Nat.zero_le _) h.decodable h.fit hr hret
  rw [hhost, h.hostAddrs] at hanswers
  rcases hanswers.answer with hzero | hanswer
  · exact DnsRr.ne_zero_of_isAddr h.addr.2 hzero
  · have hname := hanswer.name
    rw [show (([addr][0 - 1]?).getD DnsRr.zero) = addr from rfl, h.addr.1, h.asked.1] at hname
    exact absurd hname (by decide)

end Bklib
