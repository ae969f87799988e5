import Bklib.Proofs.NetpktAdjust
import Bklib.Proofs.NetpktOpt

/-!
# `Bklib.Proofs.NetpktSack`: a SYN packet without SACK permission

`netpkt_tcp_remove_sack` overwrites the options while it walks through them. The position is always
behind the bytes that were overwritten, so what is still to be read is what was there at first
(`netpktRemoveSackLoop_spec`): the area ends up as if the options had been written again, with no-ops
in the place of each SACK permission.
-/

set_option autoImplicit false

namespace Bklib

open Bklib.Lib

/-! ### Areas without SACK permission -/

/-- The option is a SACK permission. -/
def isSackOk : TlvOpt → Bool
  | .nop     => false
  | .opt t _ => t = 4

/-- No-ops of the same length when it is one, and the option itself when not. -/
def noopOpt (o : TlvOpt) : List TlvOpt :=
  if isSackOk o then List.replicate o.bytes.length .nop else [o]

/-- Blank options are bytes of 1. -/
theorem flatMap_bytes_replicate (n : Nat) :
    (List.replicate n TlvOpt.nop).flatMap TlvOpt.bytes = List.replicate n 1 := by
  induction n with
  | zero => rfl
  | succ n ih =>
      rw [List.replicate_succ, List.flatMap_cons, ih, List.replicate_succ]
      rfl

theorem length_noopOpt (o : TlvOpt) : ((noopOpt o).flatMap TlvOpt.bytes).length = o.bytes.length := by
  unfold noopOpt
  split
  · rw [flatMap_bytes_replicate, List.length_replicate]
  · rw [List.flatMap_singleton]

/-- Blanking keeps the area's length. -/
theorem length_flatMap_noopOpt (opts : List TlvOpt) :
    ((opts.flatMap noopOpt).flatMap TlvOpt.bytes).length = (opts.flatMap TlvOpt.bytes).length := by
  induction opts with
  | nil => rfl
  | cons o opts ih =>
      rw [List.flatMap_cons, List.flatMap_append, List.length_append, List.flatMap_cons,
        List.length_append, length_noopOpt, ih]

/-- An area whose options are all right stays so with some of them blanked. -/
theorem noopOpt_ok {lim : Nat} {opts : List TlvOpt} (h : ∀ o ∈ opts, o.Ok lim) :
    ∀ o ∈ opts.flatMap noopOpt, o.Ok lim := by
  intro o' ho'
  obtain ⟨o, ho, hmem⟩ := List.mem_flatMap.mp ho'
  unfold noopOpt at hmem
  split at hmem
  · rw [(List.mem_replicate.mp hmem).2]
    trivial
  · rw [List.mem_singleton.mp hmem]
    exact h o ho

/-- Only the byte 4 is the SACK permission. -/
theorem charToInt_eq_four {t : UInt8} : charToInt t = TCP_OPT_SACKOK ↔ t = 4 := by
  constructor
  · intro h
    have ht := t.toNat_lt
    unfold TCP_OPT_SACKOK at h
    by_cases hlt : t.toNat < 128
    · rw [charToInt_of_lt hlt] at h
      exact UInt8.toNat_inj.mp (by show t.toNat = 4; omega)
    · rw [charToInt_of_ge (by omega)] at h
      omega
  · rintro rfl
    rfl

theorem seenOpt_type_eq {a : Int} {o : TlvOpt} :
    (seenOpt a o).type = TCP_OPT_SACKOK ↔ isSackOk o = true := by
  cases o with
  | nop     => simp [seenOpt, isSackOk, TCP_OPT_SACKOK]
  | opt t d => simp [seenOpt, isSackOk, charToInt_eq_four]

/-- Where the data of an option is, as it is seen. -/
theorem seenOpt_data {a d : Int} {o : TlvOpt} (h : (seenOpt a o).data = some d) :
    d = a + 2 ∧ (seenOpt a o).len + 2 = o.bytes.length := by
  cases o with
  | nop      => cases h
  | opt t bs =>
      cases h
      refine ⟨rfl, ?_⟩
      simp only [seenOpt, TlvOpt.bytes, List.length_cons]
      omega

theorem seenOpt_sack {a : Int} {o : TlvOpt} (h : isSackOk o = true) :
    (seenOpt a o).data = some (a + 2) := by
  cases o with
  | nop      => cases h
  | opt t bs => rfl

/-- A no-op, as it is seen. -/
def seenNoop : IpOpt := ⟨1, none, 0⟩

/-- A map over two lists of options goes on at the address behind the first. -/
theorem mapOpts_append {γ : Type} (f : Int → TlvOpt → γ) (xs ys : List TlvOpt) (a : Int) :
    mapOpts f a (xs ++ ys) =
      mapOpts f a xs ++ mapOpts f (a + (xs.flatMap TlvOpt.bytes).length) ys := by
  induction xs generalizing a with
  | nil => simp [mapOpts]
  | cons o xs ih =>
      rw [List.cons_append, mapOpts, ih, mapOpts, List.cons_append, List.flatMap_cons,
        List.length_append, Nat.cast_add, Int.add_assoc]

/-- Blank options are seen as blanks. -/
theorem mapOpts_noops (n : Nat) (a : Int) :
    mapOpts seenOpt a (List.replicate n .nop) = List.replicate n seenNoop := by
  induction n generalizing a with
  | zero => rfl
  | succ n ih =>
      rw [List.replicate_succ, mapOpts, ih, List.replicate_succ]
      rfl

/-- What a caller sees of an area after the no-ops were written. -/
theorem mapOpts_noopOpt (opts : List TlvOpt) (a : Int) :
    mapOpts seenOpt a (opts.flatMap noopOpt) =
      (mapOpts seenOpt a opts).flatMap fun o =>
        if o.type = TCP_OPT_SACKOK then List.replicate (o.len + 2).toNat seenNoop else [o] := by
  induction opts generalizing a with
  | nil => rfl
  | cons o opts ih =>
      rw [List.flatMap_cons, mapOpts_append, length_noopOpt, ih, mapOpts, List.flatMap_cons]
      congr 1
      by_cases hsack : isSackOk o = true
      · rw [noopOpt, if_pos hsack, mapOpts_noops, if_pos (seenOpt_type_eq.mpr hsack),
          (seenOpt_data (seenOpt_sack hsack)).2, Int.toNat_natCast]
      · rw [noopOpt, if_neg hsack, if_neg (mt seenOpt_type_eq.mp hsack)]
        rfl

/-! ### The memory -/

/-- The bytes of an area that was written again with no-ops: they are in the place of the SACK
permissions, and everything else is as it was. -/
structure NoopsAt (mem mem' : Int → UInt8) (seen : List IpOpt) : Prop where
  noop : ∀ o ∈ seen, o.type = TCP_OPT_SACKOK →
    ∃ d, o.data = some d ∧
      readAt mem' (d - 2) (o.len + 2).toNat = List.replicate (o.len + 2).toNat 1
  data : ∀ o ∈ seen, o.type ≠ TCP_OPT_SACKOK → ∀ d, o.data = some d →
    readAt mem' d o.len.toNat = readAt mem d o.len.toNat
  frame : ∀ i, (∀ o ∈ seen, o.type = TCP_OPT_SACKOK → ∀ d, o.data = some d →
    i < d - 2 ∨ d + o.len ≤ i) → mem' i = mem i

/-- The data of options from `a` on. -/
theorem mapOpts_data_ge {opts : List TlvOpt} {a : Int} {o : IpOpt} (ho : o ∈ mapOpts seenOpt a opts)
    {d : Int} (hd : o.data = some d) : a + 2 ≤ d := by
  induction opts generalizing a with
  | nil => cases ho
  | cons o' opts ih =>
      cases List.mem_cons.mp ho with
      | inl heq =>
          subst heq
          exact Int.le_of_eq (seenOpt_data hd).1.symm
      | inr hmem =>
          have hpos := o'.bytes_length_pos
          have hge := ih hmem
          omega

/-- One option, written again as it is or as no-ops. -/
theorem noopsAt_singleton (mem : Int → UInt8) (a : Int) (o : TlvOpt)
    (hread : readAt mem a o.bytes.length = o.bytes) :
    NoopsAt mem (writeAt mem a ((noopOpt o).flatMap TlvOpt.bytes)) [seenOpt a o] := by
  by_cases hsack : isSackOk o = true
  · have hdata := seenOpt_sack (a := a) hsack
    have hlen := (seenOpt_data hdata).2
    have hbytes : (noopOpt o).flatMap TlvOpt.bytes = List.replicate o.bytes.length 1 := by
      rw [noopOpt, if_pos hsack, flatMap_bytes_replicate]
    have htype := seenOpt_type_eq (a := a).mpr hsack
    refine ⟨fun o' ho' _ => ?_, fun o' ho' hne => ?_, fun i hi => ?_⟩
    · rw [List.mem_singleton.mp ho', hlen, Int.toNat_natCast, hbytes]
      refine ⟨a + 2, hdata, ?_⟩
      have hwritten := readAt_writeAt mem a (List.replicate o.bytes.length 1)
      rw [List.length_replicate] at hwritten
      rwa [Int.add_sub_cancel]
    · rw [List.mem_singleton.mp ho'] at hne
      exact absurd htype hne
    · have hout := hi _ (List.mem_singleton.mpr rfl) htype (a + 2) hdata
      unfold writeAt
      rw [if_neg]
      rw [hbytes, List.length_replicate]
      omega
  · have hsame : writeAt mem a ((noopOpt o).flatMap TlvOpt.bytes) = mem := by
      rw [noopOpt, if_neg hsack, List.flatMap_singleton, ← hread, writeAt_readAt]
    have htype := mt (seenOpt_type_eq (a := a)).mp hsack
    rw [hsame]
    refine ⟨fun o' ho' heq => ?_, fun _ _ _ _ _ => rfl, fun _ _ => rfl⟩
    rw [List.mem_singleton.mp ho'] at heq
    exact absurd heq htype

/-- Induction on the options; those in front are written first. -/
theorem noopsAt_writeAt (opts : List TlvOpt) :
    ∀ (mem : Int → UInt8) (a : Int),
      readAt mem a (opts.flatMap TlvOpt.bytes).length = opts.flatMap TlvOpt.bytes →
        NoopsAt mem (writeAt mem a ((opts.flatMap noopOpt).flatMap TlvOpt.bytes))
          (mapOpts seenOpt a opts) := by
  induction opts with
  | nil =>
      intro mem a _
      have hsame : writeAt mem a [] = mem := writeAt_readAt mem a 0
      refine ⟨by simp [mapOpts], by simp [mapOpts], fun i _ => ?_⟩
      exact congrFun hsame i
  | cons o opts ih =>
      intro mem a hread
      have hlen := length_noopOpt o
      rw [List.flatMap_cons, List.length_append, readAt_add] at hread
      obtain ⟨hhead, htail⟩ := List.append_inj hread (by rw [length_readAt])
      -- The option in front, and then the others in the memory that this leaves.
      have hone := noopsAt_singleton mem a o hhead
      generalize hmem₁ : writeAt mem a ((noopOpt o).flatMap TlvOpt.bytes) = mem₁ at hone
      have hsame : ∀ i, a + o.bytes.length ≤ i → mem₁ i = mem i := fun i hi => by
        rw [← hmem₁]
        exact writeAt_of_ge mem _ (by rw [hlen]; exact hi)
      have hrest := ih mem₁ (a + o.bytes.length) (by
        rw [readAt_congr fun i _ => hsame _ (by omega)]
        exact htail)
      have hsplit : writeAt mem a (((o :: opts).flatMap noopOpt).flatMap TlvOpt.bytes) =
          writeAt mem₁ (a + o.bytes.length) ((opts.flatMap noopOpt).flatMap TlvOpt.bytes) := by
        rw [List.flatMap_cons, List.flatMap_append, writeAt_append, hmem₁, hlen]
      rw [hsplit]
      generalize hmem₂ : writeAt mem₁ (a + o.bytes.length)
        ((opts.flatMap noopOpt).flatMap TlvOpt.bytes) = mem₂ at hrest
      have hkept : ∀ i, i < a + o.bytes.length → mem₂ i = mem₁ i := fun i hi => by
        rw [← hmem₂]
        exact writeAt_of_lt mem₁ _ hi
      rw [mapOpts]
      refine ⟨fun o' ho' heq => ?_, fun o' ho' hne d hd => ?_, fun i hi => ?_⟩
      · cases List.mem_cons.mp ho' with
        | inl h =>
            subst h
            obtain ⟨d, hd, hnoop⟩ := hone.noop _ (List.mem_singleton.mpr rfl) heq
            obtain ⟨rfl, hend⟩ := seenOpt_data hd
            refine ⟨a + 2, hd, ?_⟩
            rw [← hnoop]
            exact readAt_congr fun i hi => hkept _ (by omega)
        | inr h => exact hrest.noop o' h heq
      · cases List.mem_cons.mp ho' with
        | inl h =>
            subst h
            obtain ⟨rfl, hend⟩ := seenOpt_data hd
            rw [← hone.data _ (List.mem_singleton.mpr rfl) hne _ hd]
            exact readAt_congr fun i hi => hkept _ (by omega)
        | inr h =>
            have hge := mapOpts_data_ge h hd
            rw [hrest.data o' h hne d hd]
            exact readAt_congr fun i _ => hsame _ (by omega)
      · rw [hrest.frame i fun o' ho' => hi o' (List.mem_cons_of_mem _ ho')]
        refine hone.frame i fun o' ho' => hi o' ?_
        rw [List.mem_singleton.mp ho']
        exact List.mem_cons_self

/-! ### The loop -/

/-- The loop from `a` on, over the `k` bytes to the end of the area. Induction along its options: a
no-op is written behind the position only after the position has passed it. -/
theorem netpktRemoveSackLoop_spec (bs : List UInt8) :
    ∀ {pkt : NetpktMem} {c : OptCursor} {a : Int} {k : Nat} (ret : Int),
      c.p.or pkt.pktTcpOpt = some a → (optEnd pkt.pktTcpOpt pkt.pktTcpOptLen - a).toNat = k →
        bs = readAt pkt.mem a k →
          netpktRemoveSackLoop pkt c ret =
            (if (optsOf 128 bs).1.any isSackOk then 1 else ret,
              { pkt with
                mem := writeAt pkt.mem a
                  (((optsOf 128 bs).1.flatMap noopOpt).flatMap TlvOpt.bytes) }) := by
  induction bs using optsOf_induct 128 with
  | hnone bs h =>
      intro pkt c a k ret hp hend hbs
      have htype : (netpktTcpOptEnum pkt c).1 = 0 := (netpktIpOptNext_none hp hend (hbs ▸ h)).1
      have hsame : writeAt pkt.mem a [] = pkt.mem := writeAt_readAt pkt.mem a 0
      rw [netpktRemoveSackLoop, dif_pos htype, optsOf_none h]
      simp only [List.any_nil, List.flatMap_nil, hsame]
      rfl
  | hsome bs o rest h ih =>
      intro pkt c a k ret hp hend hbs
      obtain ⟨hlen, hhead, hrest⟩ := rest_of_firstOpt (hbs ▸ h)
      have hcall : netpktTcpOptEnum pkt c = _ := netpktIpOptNext_some hp hend (hbs ▸ h)
      generalize hc : (⟨some (a + o.bytes.length), (seenOpt a o).data, (seenOpt a o).len,
        c.loaded ++ optLoads a o⟩ : OptCursor) = c' at hcall
      have hp' : c'.p = some (a + o.bytes.length) := by rw [← hc]
      -- In both branches the option has been written again when the next one is read.
      have hstep : netpktRemoveSackLoop pkt c ret = netpktRemoveSackLoop
          { pkt with mem := writeAt pkt.mem a ((noopOpt o).flatMap TlvOpt.bytes) } c'
          (if isSackOk o then 1 else ret) := by
        rw [netpktRemoveSackLoop, dif_neg (by rw [hcall]; exact seenOpt_type_ne_zero h), hcall]
        by_cases hsack : isSackOk o = true
        · have hdata := seenOpt_sack (a := a) hsack
          have hn : (c'.len + 2).toNat = o.bytes.length := by
            rw [← hc]
            exact (congrArg Int.toNat (seenOpt_data hdata).2).trans (Int.toNat_natCast _)
          rw [if_pos (seenOpt_type_eq.mpr hsack), if_pos hsack, netpktNoopOpt, hn, noopOpt,
            if_pos hsack, flatMap_bytes_replicate]
          have hd : c'.data.getD 0 - 2 = a := by
            rw [← hc]
            simp [hdata]
          rw [hd]
        · rw [if_neg (mt seenOpt_type_eq.mp hsack), if_neg hsack, noopOpt, if_neg hsack,
            List.flatMap_singleton, ← hhead, writeAt_readAt]
      rw [hstep, ih _ (a := a + o.bytes.length) (k := k - o.bytes.length) (by rw [hp']; rfl)
        (by show (optEnd pkt.pktTcpOpt pkt.pktTcpOptLen - _).toNat = _; omega) ?_, optsOf_some h]
      · have hsplit : writeAt pkt.mem a ((((o :: (optsOf 128 rest).1).flatMap noopOpt)).flatMap
            TlvOpt.bytes) = writeAt (writeAt pkt.mem a ((noopOpt o).flatMap TlvOpt.bytes))
              (a + o.bytes.length) (((optsOf 128 rest).1.flatMap noopOpt).flatMap TlvOpt.bytes) := by
          rw [List.flatMap_cons, List.flatMap_append, writeAt_append, length_noopOpt]
        rw [hsplit, List.any_cons]
        cases isSackOk o <;> simp
      · rw [hrest]
        exact readAt_congr fun i _ => (writeAt_of_ge pkt.mem _ (by rw [length_noopOpt]; omega)).symm

/-! ### The packet -/

/-- The options that a caller sees of a packet with `netpkt_tcp_opt_enum`. -/
def netpktTcpOpts (pkt : NetpktMem) : List IpOpt :=
  (netpktIpOpts pkt.mem pkt.pktTcpOpt pkt.pktTcpOptLen optCursorInit).1

/-- Only the SACK permissions are gone, and there are no-ops in their place. -/
structure SackRemoved (pkt : NetpktMem) (r : Int × NetpktMem) : Prop where
  /-- The enumeration gives a no-op for each byte of a SACK permission, and the others as before. -/
  opts : netpktTcpOpts r.2 = (netpktTcpOpts pkt).flatMap fun o =>
    if o.type = TCP_OPT_SACKOK then List.replicate (o.len + 2).toNat seenNoop else [o]
  gone : ∀ o ∈ netpktTcpOpts r.2, o.type ≠ TCP_OPT_SACKOK
  noops : NoopsAt pkt.mem r.2.mem (netpktTcpOpts pkt)
  rest : r.2 = { pkt with mem := r.2.mem }
  found : r.1 = if ∃ o ∈ netpktTcpOpts pkt, o.type = TCP_OPT_SACKOK then 1 else 0
  again : netpktTcpRemoveSack r.2 = (0, r.2)

theorem optLeft_init {pkt : NetpktMem} {start : Int} (hopt : pkt.pktTcpOpt = some start) :
    (optEnd pkt.pktTcpOpt pkt.pktTcpOptLen - start).toNat = pkt.pktTcpOptLen.toNat := by
  rw [hopt, optEnd, Option.getD_some, add_sub_cancel_left]

/-- The options of a packet with an area are those of its bytes. -/
theorem netpktTcpOpts_eq {pkt : NetpktMem} {start : Int} (hopt : pkt.pktTcpOpt = some start) :
    netpktTcpOpts pkt
      = mapOpts seenOpt start (optsOf 128 (readAt pkt.mem start pkt.pktTcpOptLen.toNat)).1 := by
  have hp : optCursorInit.p.or pkt.pktTcpOpt = some start := by
    rw [hopt]
    rfl
  exact (netpktIpOpts_spec _ hp (optLeft_init hopt) rfl).1

/-- A packet with no area has none. -/
theorem netpktTcpOpts_none {pkt : NetpktMem} (hopt : pkt.pktTcpOpt = none) :
    netpktTcpOpts pkt = [] := by
  have hcall : (netpktIpOptNext pkt.mem pkt.pktTcpOpt pkt.pktTcpOptLen optCursorInit).1 = 0 := by
    rw [hopt]
    rfl
  rw [netpktTcpOpts, netpktIpOpts_nil hcall]

/-- The permission is seen exactly when the area has it. -/
theorem exists_sack_iff {opts : List TlvOpt} {a : Int} :
    (∃ o ∈ mapOpts seenOpt a opts, o.type = TCP_OPT_SACKOK) ↔ opts.any isSackOk = true := by
  induction opts generalizing a with
  | nil => simp [mapOpts]
  | cons o opts ih =>
      rw [mapOpts, List.exists_mem_cons_iff, ih, seenOpt_type_eq, List.any_cons, Bool.or_eq_true]

/-- The loop over the whole area. -/
theorem netpktRemoveSackLoop_init {pkt : NetpktMem} {start : Int}
    (hopt : pkt.pktTcpOpt = some start) {opts : List TlvOpt}
    (hopts : (optsOf 128 (readAt pkt.mem start pkt.pktTcpOptLen.toNat)).1 = opts) :
    netpktRemoveSackLoop pkt optCursorInit 0 = (if opts.any isSackOk then 1 else 0,
      { pkt with mem := writeAt pkt.mem start ((opts.flatMap noopOpt).flatMap TlvOpt.bytes) }) := by
  have hp : optCursorInit.p.or pkt.pktTcpOpt = some start := by
    rw [hopt]
    rfl
  rw [netpktRemoveSackLoop_spec _ 0 hp (optLeft_init hopt) rfl, hopts]

/-- An area without SACK permissions is written as it is. -/
theorem flatMap_noopOpt_of_none {opts : List TlvOpt} (h : opts.any isSackOk = false) :
    opts.flatMap noopOpt = opts := by
  induction opts with
  | nil => rfl
  | cons o opts ih =>
      rw [List.any_cons, Bool.or_eq_false_iff] at h
      rw [List.flatMap_cons, ih h.2, noopOpt, if_neg (by rw [h.1]; exact Bool.false_ne_true)]
      rfl

/-- No option is a SACK permission after the no-ops were written. -/
theorem any_noopOpt (opts : List TlvOpt) : (opts.flatMap noopOpt).any isSackOk = false := by
  induction opts with
  | nil => rfl
  | cons o opts ih =>
      rw [List.flatMap_cons, List.any_append, ih, Bool.or_false]
      by_cases hsack : isSackOk o = true
      · rw [noopOpt, if_pos hsack, List.any_replicate]
        simp [isSackOk]
      · rw [noopOpt, if_neg hsack]
        simpa using hsack

/-- `netpkt_tcp_remove_sack` on a SYN packet. -/
theorem netpktTcpRemoveSack_spec {pkt : NetpktMem} {tcp : Int} (htcp : pkt.pktTcp = some tcp)
    (hsyn : tcpSynAt pkt.mem tcp = true) : SackRemoved pkt (netpktTcpRemoveSack pkt) := by
  cases hopt : pkt.pktTcpOpt with
  | none =>
      have hcall : netpktTcpRemoveSack pkt = (0, pkt) := by
        unfold netpktTcpRemoveSack
        rw [htcp, hopt]
      have hnil := netpktTcpOpts_none hopt
      rw [hcall]
      refine ⟨?_, ?_, ?_, rfl, ?_, hcall⟩
      · rw [hnil]
        rfl
      · rw [hnil]
        simp
      · exact ⟨by simp [hnil], by simp [hnil], fun _ _ => rfl⟩
      · rw [hnil]
        simp
  | some start =>
      have hread := netpktTcpOpts_eq hopt
      obtain ⟨hbytes, hok, hrest⟩ := optsOf_spec 128 (readAt pkt.mem start pkt.pktTcpOptLen.toNat)
      generalize hopts : (optsOf 128 (readAt pkt.mem start pkt.pktTcpOptLen.toNat)).1 = opts
        at hread hbytes hok
      generalize (optsOf 128 (readAt pkt.mem start pkt.pktTcpOptLen.toNat)).2 = rest at hbytes hrest
      have hguard : ∀ pkt' : NetpktMem, pkt'.pktTcpOpt = some start → pkt'.pktTcp = some tcp →
          netpktTcpRemoveSack pkt' = if tcpSynAt pkt'.mem tcp then
            netpktRemoveSackLoop pkt' optCursorInit 0 else (0, pkt') := by
        intro pkt' hopt' htcp'
        unfold netpktTcpRemoveSack
        rw [htcp', hopt']
      have hsplit : pkt.pktTcpOptLen.toNat = (opts.flatMap TlvOpt.bytes).length + rest.length := by
        have h := congrArg List.length hbytes
        rwa [length_readAt, List.length_append] at h
      rw [hsplit, readAt_add] at hbytes
      obtain ⟨hhead, htail⟩ := List.append_inj hbytes (by rw [length_readAt])
      have hcall := hguard pkt hopt htcp
      rw [if_pos hsyn, netpktRemoveSackLoop_init hopt hopts] at hcall
      rw [hcall]
      generalize hpkt' : ({ pkt with
        mem := writeAt pkt.mem start ((opts.flatMap noopOpt).flatMap TlvOpt.bytes) } : NetpktMem)
        = pkt'
      have hmem : pkt'.mem = writeAt pkt.mem start ((opts.flatMap noopOpt).flatMap TlvOpt.bytes) := by
        rw [← hpkt']
      have hopt' : pkt'.pktTcpOpt = some start := by rw [← hpkt', ← hopt]
      have hlen : pkt'.pktTcpOptLen = pkt.pktTcpOptLen := by rw [← hpkt']
      -- The area is now the options with the no-ops, and the same rest.
      have harea : readAt pkt'.mem start pkt.pktTcpOptLen.toNat
          = (opts.flatMap noopOpt).flatMap TlvOpt.bytes ++ rest := by
        have hlen' := length_flatMap_noopOpt opts
        have hwritten := readAt_writeAt pkt.mem start ((opts.flatMap noopOpt).flatMap TlvOpt.bytes)
        rw [hlen'] at hwritten
        rw [hsplit, readAt_add, hmem, hwritten,
          readAt_writeAt_disjoint _ _ (Or.inr (by rw [hlen'])), htail]
      have hopts' : (optsOf 128 (readAt pkt'.mem start pkt'.pktTcpOptLen.toNat)).1
          = opts.flatMap noopOpt := by
        rw [hlen, harea, optsOf_flatMap_bytes (by omega) (noopOpt_ok hok) hrest]
      have hread' := netpktTcpOpts_eq hopt'
      rw [hopts'] at hread'
      refine ⟨?_, ?_, ?_, ?_, ?_, ?_⟩
      · rw [hread', mapOpts_noopOpt, hread]
      · intro o ho heq
        have hany := exists_sack_iff.mp ⟨o, hread' ▸ ho, heq⟩
        rw [any_noopOpt] at hany
        cases hany
      · rw [hread, hmem]
        exact noopsAt_writeAt opts pkt.mem start hhead
      · rw [← hpkt']
      · simp only [hread, exists_sack_iff]
      · have hany := any_noopOpt opts
        have hsame : writeAt pkt'.mem start ((opts.flatMap noopOpt).flatMap TlvOpt.bytes)
            = pkt'.mem := by
          rw [hmem, writeAt_writeAt _ _ rfl]
        have hloop := netpktRemoveSackLoop_init hopt' hopts'
        rw [flatMap_noopOpt_of_none hany, hany, hsame] at hloop
        rw [hguard pkt' hopt' (by rw [← hpkt', ← htcp])]
        split
        · exact hloop
        · rfl

/-- A SYN packet with a segment size, a SACK permission and two no-ops. -/
def synSample : NetpktMem := ipPacket
  [69, 0, 0, 48, 0, 1, 0, 0, 64, 6, 102, 65, 10, 0, 0, 1, 10, 0, 0, 134,
   0, 22, 4, 157, 0, 0, 0, 1, 0, 0, 0, 0, 112, 2, 0, 80, 0, 0, 0, 0, 2, 4, 5, 180, 4, 2, 1, 1]

theorem netpktTcpRemoveSack_synSample : SackRemoved synSample (netpktTcpRemoveSack synSample) :=
  netpktTcpRemoveSack_spec (show synSample.pktTcp = some 20 from rfl) (by decide +kernel)

end Bklib
