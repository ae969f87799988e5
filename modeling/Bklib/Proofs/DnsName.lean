import Bklib.Lib.DomainName
import Bklib.Lib.Run
import Bklib.Model.Dns
import Bklib.Proofs.HashMap

/-!
# `Bklib.Proofs.DnsName`: names that `dns_pack_name` writes

`Dns.nameAt` is the table of names as `hash_get` shows it. `dnsPackNameLoop_spec` says what a call
does: on success it writes the compressed name, and the table gets the suffixes that it did not
have.

A caller writes names behind each other (`NameRun`), and may write other parts of the message in
between. In every such run each name decodes to its labels from the message as it is in the end, and
so does every offset of the table (`dnsPackName_sound`).
-/

set_option autoImplicit false

namespace Bklib

open Bklib.Lib

/-! ### The table -/

theorem keyEq_name (a b : List UInt8) : keyEq hashHashStr strcmp a b ↔ a = b := by
  constructor
  · exact fun h => strcmp_eq_zero_iff.mp h.2
  · rintro rfl
    exact ⟨rfl, strcmp_eq_zero_iff.mpr rfl⟩

theorem equivalence_keyEq_name : Equivalence (keyEq hashHashStr strcmp) where
  refl a := (keyEq_name a a).mpr rfl
  symm h := (keyEq_name _ _).mpr ((keyEq_name _ _).mp h).symm
  trans h h' := (keyEq_name _ _).mpr (((keyEq_name _ _).mp h).trans ((keyEq_name _ _).mp h'))

/-- The map that the table stands for: from a name to an offset. -/
abbrev NameMap := KeyMap (keySetoid equivalence_keyEq_name) (Option Nat)

/-- The offset of a name, as `hash_get` finds it. -/
def Dns.nameAt (dns : Dns) : SuffixTable := fun key =>
  dns.nameHash.bind fun hash => (hashGetEntry hash key).map fun e => e.2.getD 0

/-- The table, if there is one, is a hash table of names. -/
def Dns.HashOk (dns : Dns) : Prop :=
  ∀ hash, dns.nameHash = some hash → ∃ m : NameMap, hash.Models equivalence_keyEq_name m

/-- Only the table of names has changed. -/
structure Dns.TableOnly (dns dns' : Dns) : Prop where
  eq : ∃ hash, dns' = { dns with nameHash := hash }
  hashOk : dns'.HashOk

namespace Dns

variable {dns : Dns}

theorem nameAt_of_models {hash : HashT (List UInt8) Nat} {m : NameMap}
    (hhash : dns.nameHash = some hash) (hmodels : hash.Models equivalence_keyEq_name m)
    (key : List UInt8) : dns.nameAt key = (m.get key).map fun e => e.2.getD 0 := by
  rw [nameAt, hhash, Option.bind_some, hashGetEntry_eq hmodels]

/-- The table is made when it is needed, and is empty then. -/
theorem withNameHash_spec (h : dns.HashOk) :
    dns.TableOnly dns.withNameHash ∧ dns.withNameHash.nameHash.isSome = true ∧
      dns.withNameHash.nameAt = dns.nameAt := by
  cases hhash : dns.nameHash with
  | some hash =>
      have hsame : dns.withNameHash = dns := by
        rw [withNameHash, hhash, Option.getD_some, ← hhash]
      rw [hsame]
      exact ⟨⟨⟨_, rfl⟩, h⟩, by rw [hhash]; rfl, rfl⟩
  | none =>
      obtain ⟨hmodels, -⟩ :=
        models_hashInit (ν := Nat) equivalence_keyEq_name dnsNameMax 0 0
      have hnew : dns.withNameHash.nameHash = some dnsNameHashInit := by
        rw [withNameHash, hhash]
        rfl
      refine ⟨⟨⟨_, rfl⟩, ?_⟩, by rw [hnew]; rfl, ?_⟩
      · intro hash hsome
        obtain rfl := Option.some.inj (hnew.symm.trans hsome)
        exact ⟨_, hmodels⟩
      · funext key
        rw [nameAt_of_models hnew hmodels, KeyMap.get_empty, nameAt, hhash]
        rfl

/-- A look-up finds what was put, and changes nothing but places in the table. -/
theorem nameGet_spec (h : dns.HashOk) (src : List UInt8) :
    ∃ dns', dns.nameGet src = (dns', dns.nameAt src) ∧ dns.TableOnly dns' ∧
      dns'.nameHash.isSome = dns.nameHash.isSome ∧ dns'.nameAt = dns.nameAt := by
  cases hhash : dns.nameHash with
  | none =>
      refine ⟨dns, ?_, ⟨⟨_, rfl⟩, h⟩, by rw [hhash], rfl⟩
      rw [nameGet, hhash, nameAt, hhash]
      rfl
  | some hash =>
      obtain ⟨m, hmodels⟩ := h hash hhash
      obtain ⟨hash', node, hget, hmodels', hcases⟩ := models_hashGet hmodels src
      have hfound : (node.map fun node => (hash'.readVal node).getD 0) = dns.nameAt src := by
        rw [nameAt_of_models hhash hmodels]
        rcases hcases with ⟨rfl, hnone⟩ | ⟨ref, e, rfl, hentry, hsome⟩
        · rw [hnone]
          rfl
        · rw [hsome, Option.map_some, Option.map_some, HashT.readVal_of_entryAt hentry]
      refine ⟨{ dns with nameHash := some hash' }, ?_, ⟨⟨_, rfl⟩, ?_⟩, rfl, ?_⟩
      · rw [nameGet, hhash]
        simp only [hget, hfound]
      · intro hash'' hsome
        obtain rfl := Option.some.inj hsome
        exact ⟨m, hmodels'⟩
      · funext key
        have hhash' : ({ dns with nameHash := some hash' } : Dns).nameHash = some hash' := rfl
        rw [nameAt_of_models hhash' hmodels', nameAt_of_models hhash hmodels]

/-- What is put is found, and everything else as before. -/
theorem namePut_spec (addrOf : Nat → Nat) (h : dns.HashOk) (hsome : dns.nameHash.isSome = true)
    (src : List UInt8) (i : Nat) :
    dns.TableOnly (dns.namePut addrOf src i) ∧ (dns.namePut addrOf src i).nameHash.isSome = true ∧
      ∀ key, (dns.namePut addrOf src i).nameAt key = if key = src then some i else dns.nameAt key := by
  obtain ⟨hash, hhash⟩ := Option.isSome_iff_exists.mp hsome
  obtain ⟨m, hmodels⟩ := h hash hhash
  have hmodels' := models_put addrOf hmodels src (some i)
  have hnew : (dns.namePut addrOf src i).nameHash = some (hashPut addrOf hash src (some i)).1 := by
    rw [namePut, hhash]
    rfl
  refine ⟨⟨⟨_, rfl⟩, ?_⟩, by rw [hnew]; rfl, fun key => ?_⟩
  · intro hash' hsome'
    obtain rfl := Option.some.inj (hnew.symm.trans hsome')
    exact ⟨_, hmodels'⟩
  · rw [nameAt_of_models hnew hmodels', nameAt_of_models hhash hmodels,
      KeyMap.get_put_of_eq keyEq_name]
    split <;> rfl

end Dns

/-! ### One name -/

/-- A text starts with its first label. -/
theorem take_firstLabel (src : List UInt8) :
    src.take (firstLabel src).length = firstLabel src := by
  have happ : firstLabel src ++ src.dropWhile (· ≠ dot) = src := List.takeWhile_append_dropWhile
  have htake : (firstLabel src ++ src.dropWhile (· ≠ dot)).take (firstLabel src).length
      = firstLabel src := List.take_left
  rwa [happ] at htake

/-- The text from the first dot on. -/
theorem drop_firstLabel (src : List UInt8) :
    src.drop (firstLabel src).length = src.dropWhile (· ≠ dot) := by
  have happ : firstLabel src ++ src.dropWhile (· ≠ dot) = src := List.takeWhile_append_dropWhile
  have hdrop : (firstLabel src ++ src.dropWhile (· ≠ dot)).drop (firstLabel src).length
      = src.dropWhile (· ≠ dot) := List.drop_left
  rwa [happ] at hdrop

theorem length_firstLabel_le (src : List UInt8) : (firstLabel src).length ≤ src.length :=
  (List.takeWhile_prefix _).length_le

/-- A text of less than 256 bytes has labels whose length a byte can hold. -/
theorem dnsLabelLen_eq {src : List UInt8} (h : src.length < 256) :
    dnsLabelLen src = (firstLabel src).length := by
  have hle := length_firstLabel_le src
  unfold dnsLabelLen strchrDot
  by_cases hdot : 46 ∈ src
  · rw [if_pos hdot]
    exact Nat.mod_eq_of_lt (Nat.lt_of_le_of_lt hle h)
  · rw [if_neg hdot, (eq_firstLabel_of_not_mem hdot).1]

/-- The rest of a name is what is behind its first dot. -/
theorem dnsNameRest_eq {src : List UInt8} (h : src.length < 256) :
    dnsNameRest src = afterLabel src := by
  have hle := length_firstLabel_le src
  unfold dnsNameRest strchrDot
  by_cases hdot : 46 ∈ src
  · rw [if_pos hdot]
    show (src.drop ((firstLabel src).length % 256)).drop 1 = _
    rw [Nat.mod_eq_of_lt (Nat.lt_of_le_of_lt hle h), List.drop_one, drop_firstLabel, afterLabel]
  · have hdrop := drop_firstLabel src
    rw [(eq_firstLabel_of_not_mem hdot).1, List.drop_length] at hdrop
    rw [if_neg hdot, List.drop_length, afterLabel, ← hdrop]
    rfl

/-- The ranges that a call has written to. -/
def Dns.newStores (dns dns' : Dns) : List (Int × Nat) := dns'.stored.drop dns.stored.length

/-- What a call for the name `src` at `dst` has done: only the memory, the list of stores and the
table have changed, and the table only for the suffixes of `src`. -/
structure NameCall (dns dns' : Dns) (src : List UInt8) : Prop where
  eq : ∃ mem stored hash, dns' = { dns with mem := mem, stored := stored, nameHash := hash }
  hashOk : dns'.HashOk
  keeps : ∀ k, src.length < k.length → dns'.nameAt k = dns.nameAt k

/-- What a call that returns has done: the compressed name stands at `dst`, and the table has its
suffixes. -/
structure NameWritten (dns dns' : Dns) (src : List UInt8) (dst : Int) : Prop where
  mem : dns'.mem = writeAt dns.mem dst (compressed dns.nameAt src)
  stored : ∃ ws, dns'.stored = dns.stored ++ ws ∧ ∀ w ∈ ws, dst ≤ w.1 ∧
    w.1 + w.2 ≤ dst + (compressed dns.nameAt src).length
  nameAt : ∀ k i, dns'.nameAt k = some i ↔
    (k, i) ∈ suffixOffsets dns.nameAt (dst - dns.buf).toNat src ∨ dns.nameAt k = some i

namespace NameCall

variable {dns dns' dns'' : Dns} {src rest : List UInt8}

theorem refl (h : dns.HashOk) : NameCall dns dns src := ⟨⟨_, _, _, rfl⟩, h, fun _ _ => rfl⟩

/-- Calls for a name and for its rest are a call for the name. -/
theorem trans (h : NameCall dns dns' src) (h' : NameCall dns' dns'' rest)
    (hlen : rest.length ≤ src.length) : NameCall dns dns'' src := by
  obtain ⟨_, _, _, rfl⟩ := h.eq
  obtain ⟨_, _, _, rfl⟩ := h'.eq
  exact ⟨⟨_, _, _, rfl⟩, h'.hashOk, fun k hk =>
    (h'.keeps k (Nat.lt_of_le_of_lt hlen hk)).trans (h.keeps k hk)⟩

theorem of_table (h : dns.TableOnly dns')
    (hnames : ∀ k, src.length < k.length → dns'.nameAt k = dns.nameAt k) :
    NameCall dns dns' src := by
  obtain ⟨_, rfl⟩ := h.eq
  exact ⟨⟨_, _, _, rfl⟩, h.hashOk, hnames⟩

theorem store (h : NameCall dns dns' src) (a : Int) (bs : List UInt8) :
    NameCall dns (dns'.store a bs) src := by
  obtain ⟨_, _, _, rfl⟩ := h.eq
  exact ⟨⟨_, _, _, rfl⟩, h.hashOk, h.keeps⟩

end NameCall

/-- The round that looks for the name: the table is there, and shows what it showed. -/
theorem nameLookup_spec {dns : Dns} (h : dns.HashOk) (src : List UInt8) :
    ∃ dns', dns.withNameHash.nameGet src = (dns', dns.nameAt src) ∧ dns.TableOnly dns' ∧
      dns'.nameHash.isSome = true ∧ dns'.nameAt = dns.nameAt := by
  obtain ⟨⟨⟨hash, hmade⟩, hok⟩, hsome, hnames⟩ := Dns.withNameHash_spec h
  obtain ⟨dns', hget, ⟨⟨hash', rfl⟩, hok'⟩, hsome', hnames'⟩ := Dns.nameGet_spec hok src
  rw [hnames] at hget
  exact ⟨_, hget, ⟨⟨hash', by rw [hmade]⟩, hok'⟩, hsome'.trans hsome, hnames'.trans hnames⟩

/-! The rounds of the loop. -/

section
variable (addrOf : Nat → Nat) {dns dns₁ : Dns} {src : List UInt8}

theorem dnsPackNameLoop_nil (dns : Dns) (dst dstlen : Int) :
    dnsPackNameLoop addrOf dns [] dst dstlen = (dns.store dst [0], some (dst + 1)) := by
  rw [dnsPackNameLoop, if_pos rfl]

theorem dnsPackNameLoop_long (dns : Dns) (hsrc : src ≠ []) (hlen : ¬src.length < dnsNameMax)
    (dst dstlen : Int) : dnsPackNameLoop addrOf dns src dst dstlen = (dns, none) := by
  rw [dnsPackNameLoop, if_neg hsrc, if_pos hlen]

/-- A round at a suffix that is known: a pointer where one fits, else no name. -/
theorem dnsPackNameLoop_known (hsrc : src ≠ []) (hlen : src.length < dnsNameMax) {i : Nat}
    (hget : dns.withNameHash.nameGet src = (dns₁, some i)) (dst dstlen : Int) :
    dnsPackNameLoop addrOf dns src dst dstlen =
      if ¬i < 49152 ∨ dstlen < 2 then (dns₁, none)
      else (dns₁.store dst (pointerBytes i), some (dst + 2)) := by
  rw [dnsPackNameLoop, if_neg hsrc, if_neg (not_not.mpr hlen)]
  simp only [hget]
  rfl

/-- A name that is not in the table: it is put there, and its first label is stored. -/
theorem dnsPackNameLoop_new (hsrc : src ≠ []) (hlen : src.length < dnsNameMax)
    (hget : dns.withNameHash.nameGet src = (dns₁, none)) (dst dstlen : Int) :
    dnsPackNameLoop addrOf dns src dst dstlen =
      if ¬(dns₁.buf ≤ dst ∧ dst < dns₁.bufEnd) then (dns₁, none)
      else
        let dns₂ := dns₁.namePut addrOf src (dst - dns₁.buf).toNat
        let n := (firstLabel src).length
        if dstlen ≤ n + 1 then (dns₂, none)
        else
          dnsPackNameLoop addrOf ((dns₂.store dst [UInt8.ofNat n]).store (dst + 1) (firstLabel src))
            (afterLabel src) (dst + 1 + n) (dstlen - 1 - n) := by
  rw [dnsPackNameLoop, if_neg hsrc, if_neg (not_not.mpr hlen)]
  simp only [hget, dnsLabelLen_eq hlen, dnsNameRest_eq hlen, take_firstLabel]

end

theorem Dns.TableOnly.fields {dns dns' : Dns} (h : dns.TableOnly dns') :
    dns'.mem = dns.mem ∧ dns'.stored = dns.stored ∧ dns'.buf = dns.buf ∧
      dns'.bufEnd = dns.bufEnd := by
  obtain ⟨_, rfl⟩ := h.eq
  exact ⟨rfl, rfl, rfl, rfl⟩

theorem Dns.TableOnly.trans {dns dns' dns'' : Dns} (h : dns.TableOnly dns')
    (h' : dns'.TableOnly dns'') : dns.TableOnly dns'' := by
  obtain ⟨_, rfl⟩ := h.eq
  obtain ⟨_, rfl⟩ := h'.eq
  exact ⟨⟨_, rfl⟩, h'.hashOk⟩

/-- The empty name. -/
theorem NameWritten.root (dns : Dns) (dst : Int) : NameWritten dns (dns.store dst [0]) [] dst where
  mem := by rw [compressed_nil]; rfl
  stored := by
    refine ⟨[(dst, 1)], rfl, fun w hw => ?_⟩
    rw [List.mem_singleton.mp hw, compressed_nil]
    exact ⟨Int.le_refl dst, Int.le_refl _⟩
  nameAt k i := by
    rw [suffixOffsets_nil]
    exact ⟨Or.inr, fun h => h.resolve_left List.not_mem_nil⟩

/-- A pointer to a name that the table has. -/
theorem NameWritten.pointer {dns dns₁ : Dns} {src : List UInt8} (hsrc : src ≠ []) {i : Nat}
    (hat : dns.nameAt src = some i) (htable : dns.TableOnly dns₁) (hnames : dns₁.nameAt = dns.nameAt)
    (dst : Int) : NameWritten dns (dns₁.store dst (pointerBytes i)) src dst := by
  obtain ⟨hmem, hstored, -, -⟩ := htable.fields
  have hbytes := compressed_of_some hsrc hat
  refine ⟨?_, ⟨[(dst, 2)], ?_, fun w hw => ?_⟩, fun k j => ?_⟩
  · rw [hbytes, ← hmem]
    rfl
  · rw [← hstored]
    rfl
  · rw [List.mem_singleton.mp hw, hbytes]
    exact ⟨Int.le_refl dst, Int.le_refl _⟩
  · rw [suffixOffsets_of_some hsrc hat, ← hnames]
    exact ⟨Or.inr, fun h => h.resolve_left List.not_mem_nil⟩

/-- A label in front of a name that is written behind it. -/
theorem NameWritten.label {dns dns₂ dns' : Dns} {src : List UInt8} (hsrc : src ≠ [])
    (hat : dns.nameAt src = none) (htable : dns.TableOnly dns₂) {dst : Int} (hdst : dns.buf ≤ dst)
    (hput : ∀ k, dns₂.nameAt k
      = if k = src then some (dst - dns.buf).toNat else dns.nameAt k)
    (h : NameWritten
      ((dns₂.store dst [UInt8.ofNat (firstLabel src).length]).store (dst + 1) (firstLabel src)) dns'
      (afterLabel src) (dst + 1 + (firstLabel src).length)) : NameWritten dns dns' src dst := by
  obtain ⟨hmem, hstored, hbuf, -⟩ := htable.fields
  have hother : ∀ k, k ≠ src → dns₂.nameAt k = dns.nameAt k := fun k hk => by rw [hput, if_neg hk]
  have hname : compressed dns.nameAt src = [UInt8.ofNat (firstLabel src).length] ++
      (firstLabel src ++ compressed dns₂.nameAt (afterLabel src)) := compressed_put hsrc hat hother
  refine ⟨?_, ?_, fun k i => ?_⟩
  · rw [h.mem, hname, writeAt_append, writeAt_append, ← hmem]
    rfl
  · obtain ⟨ws, hws, hin⟩ := h.stored
    -- the length, the label, and then what the rest of the name stores
    refine ⟨[(dst, 1), (dst + 1, (firstLabel src).length)] ++ ws, ?_, fun w hw => ?_⟩
    · rw [hws, ← hstored]
      simp [Dns.store]
    · rw [hname, List.length_append, List.length_append, List.length_singleton]
      rw [List.mem_append, List.mem_cons, List.mem_singleton] at hw
      obtain (rfl | rfl) | hw := hw
      · exact ⟨Int.le_refl dst, by push_cast; omega⟩
      · exact ⟨by simp, by push_cast; omega⟩
      · obtain ⟨hlo, hhi⟩ := hin w hw
        have hnames : (((dns₂.store dst [UInt8.ofNat (firstLabel src).length]).store (dst + 1)
            (firstLabel src)).nameAt) = dns₂.nameAt := rfl
        rw [hnames] at hhi
        constructor
        · omega
        · push_cast
          omega
  · -- the name is in the table before its rest is packed, but the rest is shorter and never meets it
    rw [h.nameAt, suffixOffsets_put _ hsrc hat hother, List.mem_cons, Prod.mk.injEq]
    have hpos : (dst + 1 + (firstLabel src).length - dns.buf).toNat
        = (dst - dns.buf).toNat + 1 + (firstLabel src).length := by omega
    show (k, i) ∈ suffixOffsets dns₂.nameAt (dst + 1 + (firstLabel src).length - dns₂.buf).toNat _ ∨
      dns₂.nameAt k = some i ↔ _
    rw [hbuf, hpos, hput]
    by_cases hk : k = src
    · rw [if_pos hk, hk, hat]
      simp [eq_comm, or_comm]
    · rw [if_neg hk]
      simp [hk]

/-- What the loop does. Induction on the text, label by label. -/
theorem dnsPackNameLoop_spec (addrOf : Nat → Nat) (src : List UInt8) :
    ∀ {dns : Dns}, dns.HashOk → ∀ dst dstlen : Int,
      ∃ dns' r, dnsPackNameLoop addrOf dns src dst dstlen = (dns', r) ∧ NameCall dns dns' src ∧
        ∀ e, r = some e → e = dst + (compressed dns.nameAt src).length ∧
          NameWritten dns dns' src dst := by
  induction src using nameLabels.induct with
  | case1 =>
      intro dns h dst dstlen
      refine ⟨_, _, dnsPackNameLoop_nil addrOf dns dst dstlen, (NameCall.refl h).store _ _, ?_⟩
      intro e he
      rw [compressed_nil]
      exact ⟨(Option.some.inj he).symm, NameWritten.root dns dst⟩
  | case2 src hsrc ih =>
      intro dns h dst dstlen
      by_cases hlen : src.length < dnsNameMax
      · obtain ⟨dns₁, hget, htable, hsome, hnames⟩ := nameLookup_spec h src
        have hcall₁ : NameCall dns dns₁ src := NameCall.of_table htable fun k _ => by rw [hnames]
        obtain ⟨-, -, hbuf, -⟩ := htable.fields
        cases hat : dns.nameAt src with
        | some i =>
            rw [hat] at hget
            -- a suffix with an offset: a pointer, unless there is no room
            rw [dnsPackNameLoop_known addrOf hsrc hlen hget]
            by_cases hbad : ¬i < 49152 ∨ dstlen < 2
            · rw [if_pos hbad]
              exact ⟨_, _, rfl, hcall₁, fun e he => absurd he (by simp)⟩
            · rw [if_neg hbad]
              refine ⟨_, _, rfl, hcall₁.store _ _, fun e he => ?_⟩
              rw [compressed_of_some hsrc hat]
              exact ⟨(Option.some.inj he).symm, NameWritten.pointer hsrc hat htable hnames dst⟩
        | none =>
            rw [hat] at hget
            -- a new suffix is stored before its label is known to fit
            rw [dnsPackNameLoop_new addrOf hsrc hlen hget]
            by_cases hin : dns₁.buf ≤ dst ∧ dst < dns₁.bufEnd
            · rw [if_neg (not_not.mpr hin)]
              obtain ⟨htable', -, hput⟩ :=
                Dns.namePut_spec addrOf htable.hashOk hsome src (dst - dns₁.buf).toNat
              rw [hnames] at hput
              have hcall₂ : NameCall dns (dns₁.namePut addrOf src (dst - dns₁.buf).toNat) src :=
                NameCall.of_table (htable.trans htable') fun k hk => by
                  rw [hput, if_neg]
                  rintro rfl
                  exact Nat.lt_irrefl _ hk
              generalize hdns₂ : dns₁.namePut addrOf src (dst - dns₁.buf).toNat = dns₂ at *
              by_cases hroom : dstlen ≤ (firstLabel src).length + 1
              · simp only [if_pos hroom]
                exact ⟨_, _, rfl, hcall₂, fun e he => absurd he (by simp)⟩
              · simp only [if_neg hroom]
                -- the label is written, and the loop goes on behind it
                have hcall₃ := (hcall₂.store dst [UInt8.ofNat (firstLabel src).length]).store
                  (dst + 1) (firstLabel src)
                obtain ⟨dns', r, hloop, hcall, hdone⟩ := ih hcall₃.hashOk
                  (dst + 1 + (firstLabel src).length) (dstlen - 1 - (firstLabel src).length)
                have hrest := length_afterLabel_lt hsrc
                refine ⟨dns', r, hloop, hcall₃.trans hcall hrest.le, fun e he => ?_⟩
                obtain ⟨hend, hwritten⟩ := hdone e he
                refine ⟨?_, NameWritten.label hsrc hat (htable.trans htable')
                  (hbuf ▸ hin.1) (hbuf ▸ hput) hwritten⟩
                rw [hend, compressed_put hsrc hat fun k hk => (hput k).trans (if_neg hk),
                  List.length_cons, List.length_append]
                push_cast
                have hnames₃ : ((dns₂.store dst [UInt8.ofNat (firstLabel src).length]).store (dst + 1)
                  (firstLabel src)).nameAt = dns₂.nameAt := rfl
                rw [hnames₃]
                omega
            · rw [if_pos hin]
              exact ⟨_, _, rfl, hcall₁, fun e he => absurd he (by simp)⟩
      · exact ⟨dns, none, dnsPackNameLoop_long addrOf dns hsrc hlen dst dstlen, NameCall.refl h,
          fun e he => absurd he (by simp)⟩

theorem dnsPackName_fst (addrOf : Nat → Nat) (dns : Dns) (src : List UInt8) (dst dstlen : Int) :
    (dnsPackName addrOf dns src dst dstlen).1 = (dnsPackNameLoop addrOf dns src dst dstlen).1 := by
  rw [dnsPackName]
  rcases dnsPackNameLoop addrOf dns src dst dstlen with ⟨dns', r⟩
  cases r <;> rfl

/-- What `dns_pack_name` does. -/
theorem dnsPackName_spec (addrOf : Nat → Nat) {dns : Dns} (h : dns.HashOk) (src : List UInt8)
    (dst dstlen : Int) :
    ∃ dns' i, dnsPackName addrOf dns src dst dstlen = (dns', i) ∧ NameCall dns dns' src ∧
      (i = -1 ∨ i = (compressed dns.nameAt src).length ∧ NameWritten dns dns' src dst) := by
  obtain ⟨dns', r, hloop, hcall, hdone⟩ := dnsPackNameLoop_spec addrOf src h dst dstlen
  unfold dnsPackName
  rw [hloop]
  cases r with
  | none => exact ⟨dns', -1, rfl, hcall, Or.inl rfl⟩
  | some e =>
      obtain ⟨hend, hwritten⟩ := hdone e rfl
      exact ⟨dns', e - dst, rfl, hcall, Or.inr ⟨by omega, hwritten⟩⟩

theorem NameCall.fields {dns dns' : Dns} {src : List UInt8} (h : NameCall dns dns' src) :
    dns'.buf = dns.buf ∧ dns'.bufEnd = dns.bufEnd ∧ dns'.ptr = dns.ptr := by
  obtain ⟨_, _, _, rfl⟩ := h.eq
  exact ⟨rfl, rfl, rfl⟩

/-! ### Names behind each other -/

/-- What a caller does with a message. -/
inductive NameAct where
  /-- `dns_pack_name` of a name, to the offset `pos`. -/
  | name (labels : List Label) (pos : Nat) (dstlen : Int)
  /-- A store of the caller's own, such as the fields of a record. -/
  | other (a : Int) (bs : List UInt8)

/-- A name that was written: `size` is the result of the call. -/
structure NameAtPos where
  labels : List Label
  pos : Nat
  size : Nat
  deriving DecidableEq

/-- A message, and the names that were written to it. -/
structure NameRun where
  dns : Dns
  names : List NameAtPos

/-- The message as a decoder gets it, by offset. -/
def Dns.cells (dns : Dns) (i : Nat) : Option UInt8 :=
  if dns.buf + i < dns.bufEnd then some (dns.mem (dns.buf + i)) else none

/-- The names in the table with their offsets, as `hash_foreach` lists them. A null value is
offset 0. -/
def Dns.nameEntries (dns : Dns) : List (List UInt8 × Nat) :=
  match dns.nameHash with
  | none      => []
  | some hash => (hashEntries hash).map fun e => (e.1, e.2.getD 0)

namespace NameRun

/-- The cells that belong to a name. -/
def nameCells (r : NameRun) (i : Nat) : Option UInt8 :=
  if r.names.any fun w => w.pos ≤ i ∧ i < w.pos + w.size then some (r.dns.mem (r.dns.buf + i))
  else none

def step (addrOf : Nat → Nat) (r : NameRun) : NameAct → NameRun
  | .name labels pos dstlen =>
      let (dns, i) := dnsPackName addrOf r.dns (dotted labels) (r.dns.buf + pos) dstlen
      { dns, names := r.names ++ [⟨labels, pos, i.toNat⟩] }
  | .other a bs => { r with dns := r.dns.store a bs }

/-- A name goes behind those before it, and the call succeeds inside the message. Other stores leave
the names alone. -/
def InOrder (addrOf : Nat → Nat) (r : NameRun) : NameAct → Prop
  | .name labels pos dstlen =>
      (∀ l ∈ labels, l.Ok) ∧ (∀ w ∈ r.names, w.pos + w.size ≤ pos) ∧
        0 < (dnsPackName addrOf r.dns (dotted labels) (r.dns.buf + pos) dstlen).2 ∧
        r.dns.buf + pos + (dnsPackName addrOf r.dns (dotted labels) (r.dns.buf + pos) dstlen).2
          ≤ r.dns.bufEnd
  | .other a bs => ∀ w ∈ r.names,
      a + bs.length ≤ r.dns.buf + w.pos ∨ r.dns.buf + w.pos + w.size ≤ a

/-- What holds after every act. -/
structure Sound (r : NameRun) (len : Nat) : Prop where
  hashOk : r.dns.HashOk
  end_eq : r.dns.bufEnd = r.dns.buf + len
  inside : ∀ w ∈ r.names, w.pos + w.size ≤ len
  ok : ∀ w ∈ r.names, ∀ l ∈ w.labels, l.Ok
  names : ∀ w ∈ r.names, decodeName r.nameCells len w.pos = some w.labels
  table : ∀ s i, r.dns.nameAt s = some i → i < len ∧ ∃ w ∈ r.names, i < w.pos + w.size ∧
    ∃ ls : List Label, ls <:+ w.labels ∧ ls ≠ [] ∧ s = dotted ls ∧
      decodeName r.nameCells len i = some ls

variable {r : NameRun} {len : Nat}

theorem Sound.tableSound (h : r.Sound len) (hlen : len ≤ 16383) :
    r.dns.nameAt.Sound r.nameCells len := by
  intro s i hs
  obtain ⟨hi, w, hw, -, ls, hsuffix, -, rfl, hdecode⟩ := h.table s i hs
  exact ⟨by omega, ls, fun l hl => h.ok w hw l (hsuffix.subset hl), rfl, hdecode⟩

/-- A name keeps its cells as long as nothing is stored there. -/
theorem cellsLe_nameCells {r r' : NameRun} (hbuf : r'.dns.buf = r.dns.buf)
    (hnames : ∀ w ∈ r.names, w ∈ r'.names)
    (hmem : ∀ w ∈ r.names, ∀ i : Nat, w.pos ≤ i → i < w.pos + w.size →
      r'.dns.mem (r.dns.buf + i) = r.dns.mem (r.dns.buf + i)) :
    CellsLe r.nameCells r'.nameCells := by
  intro i b hb
  unfold nameCells at hb ⊢
  split at hb
  · rename_i hany
    obtain ⟨w, hw, hin⟩ := List.any_eq_true.mp hany
    have hrange := of_decide_eq_true hin
    rw [if_pos (List.any_eq_true.mpr ⟨w, hnames w hw, hin⟩), hbuf, hmem w hw i hrange.1 hrange.2]
    exact hb
  · exact absurd hb (by simp)

/-- The step lemma for a store of the caller's own. -/
theorem Sound.other (h : r.Sound len) {a : Int} {bs : List UInt8}
    (haway : ∀ w ∈ r.names, a + bs.length ≤ r.dns.buf + w.pos ∨ r.dns.buf + w.pos + w.size ≤ a) :
    NameRun.Sound { r with dns := r.dns.store a bs } len := by
  have hle : CellsLe r.nameCells (nameCells { r with dns := r.dns.store a bs }) := by
    refine cellsLe_nameCells rfl (fun w hw => hw) fun w hw i hlo hhi => ?_
    cases haway w hw with
    | inl hbefore => exact writeAt_of_ge _ _ (by omega)
    | inr hbehind => exact writeAt_of_lt _ _ (by omega)
  refine ⟨h.hashOk, h.end_eq, h.inside, h.ok, fun w hw => ?_, fun s i hs => ?_⟩
  · exact decodeFrom_mono hle _ _ _ (h.names w hw)
  · obtain ⟨hi, w, hw, hlt, ls, hsuffix, hne, hs', hdecode⟩ := h.table s i hs
    exact ⟨hi, w, hw, hlt, ls, hsuffix, hne, hs', decodeFrom_mono hle _ _ _ hdecode⟩

/-- The step lemma for a name. -/
theorem Sound.name (h : r.Sound len) (hlen : len ≤ 16383) {labels : List Label} {pos : Nat}
    {dns' : Dns} (hok : ∀ l ∈ labels, l.Ok) (hbehind : ∀ w ∈ r.names, w.pos + w.size ≤ pos)
    (hcall : NameCall r.dns dns' (dotted labels))
    (hwritten : NameWritten r.dns dns' (dotted labels) (r.dns.buf + pos))
    (hfits : pos + (compressed r.dns.nameAt (dotted labels)).length ≤ len) :
    NameRun.Sound
      ⟨dns', r.names ++ [⟨labels, pos, (compressed r.dns.nameAt (dotted labels)).length⟩]⟩ len := by
  obtain ⟨hbuf, hend, -⟩ := hcall.fields
  have hbefore : ∀ s i, r.dns.nameAt s = some i → i < pos := by
    intro s i hs
    obtain ⟨-, w, hw, hlt, -⟩ := h.table s i hs
    exact Nat.lt_of_lt_of_le hlt (hbehind w hw)
  have hnew := hwritten.nameAt
  rw [show (r.dns.buf + pos - r.dns.buf).toNat = pos by omega] at hnew
  generalize hr' : NameRun.mk dns' (r.names ++
    [⟨labels, pos, (compressed r.dns.nameAt (dotted labels)).length⟩]) = r'
  have hdns : r'.dns = dns' := by rw [← hr']
  have hnames : r'.names = r.names ++
      [⟨labels, pos, (compressed r.dns.nameAt (dotted labels)).length⟩] := by rw [← hr']
  -- The cells of the names before are as they were, and the new cells hold the compressed name.
  have hle : CellsLe r.nameCells r'.nameCells := by
    refine cellsLe_nameCells (by rw [hdns, hbuf]) (fun w hw => ?_) fun w hw i _ hhi => ?_
    · rw [hnames]
      exact List.mem_append_left _ hw
    · have hpos := hbehind w hw
      rw [hdns, hwritten.mem, writeAt_of_lt _ _ (by omega)]
  have hholds : Holds r'.nameCells pos (compressed r.dns.nameAt (dotted labels)) := by
    refine holds_of_cells fun k hk => ?_
    have hany : (r'.names.any fun w => w.pos ≤ pos + k ∧ pos + k < w.pos + w.size) = true := by
      rw [hnames, List.any_append, List.any_cons]
      simp only [Nat.le_add_right, Nat.add_lt_add_left hk pos, and_self, decide_true, Bool.true_or,
        Bool.or_true]
    rw [nameCells, if_pos hany, hdns, hbuf, hwritten.mem]
    push_cast
    rw [← Int.add_assoc, writeAt_add _ _ _ k hk]
  have hsound := (h.tableSound hlen).mono hle
  refine ⟨by rw [hdns]; exact hcall.hashOk, by rw [hdns, hend, hbuf]; exact h.end_eq, ?_, ?_, ?_, ?_⟩
  · intro w hw
    rw [hnames, List.mem_append, List.mem_singleton] at hw
    cases hw with
    | inl hw => exact h.inside w hw
    | inr hw => rw [hw]; exact hfits
  · intro w hw
    rw [hnames, List.mem_append, List.mem_singleton] at hw
    cases hw with
    | inl hw => exact h.ok w hw
    | inr hw => rw [hw]; exact hok
  · intro w hw
    rw [hnames, List.mem_append, List.mem_singleton] at hw
    cases hw with
    | inl hw => exact decodeFrom_mono hle _ _ _ (h.names w hw)
    | inr hw => rw [hw]; exact decodeFrom_compressed hsound hbefore hok pos hholds hfits
  · intro s i hs
    rw [hdns] at hs
    cases (hnew s i).mp hs with
    | inl hmem =>
        obtain ⟨-, hlt, ls, hsuffix, hne, hs', hdecode⟩ :=
          decodeName_suffixOffsets hsound hok pos hbefore hholds hfits (s, i) hmem
        refine ⟨Nat.lt_of_lt_of_le hlt hfits, ⟨labels, pos, _⟩, ?_, hlt, ls, hsuffix, hne, hs',
          hdecode⟩
        rw [hnames]
        exact List.mem_append_right _ (List.mem_singleton.mpr rfl)
    | inr hold =>
        obtain ⟨hi, w, hw, hlt, ls, hsuffix, hne, hs', hdecode⟩ := h.table s i hold
        refine ⟨hi, w, ?_, hlt, ls, hsuffix, hne, hs', decodeFrom_mono hle _ _ _ hdecode⟩
        rw [hnames]
        exact List.mem_append_left _ hw

/-- The step lemma. -/
theorem Sound.step (addrOf : Nat → Nat) (h : r.Sound len) (hlen : len ≤ 16383) {act : NameAct}
    (hact : r.InOrder addrOf act) : (r.step addrOf act).Sound len := by
  cases act with
  | other a bs => exact h.other hact
  | name labels pos dstlen =>
      obtain ⟨hok, hbehind, hpos, hfits⟩ := hact
      obtain ⟨dns', i, hpack, hcall, hcases⟩ :=
        dnsPackName_spec addrOf h.hashOk (dotted labels) (r.dns.buf + pos) dstlen
      unfold NameRun.step
      rw [hpack] at hpos hfits
      simp only [hpack]
      obtain rfl | ⟨rfl, hwritten⟩ := hcases
      · exact absurd hpos (by simp)
      · rw [h.end_eq] at hfits
        exact h.name hlen hok hbehind hcall hwritten (by omega)

/-- A message with no name yet is sound. -/
theorem sound_init (mem : Int → UInt8) (buf : Int) (len : Nat) :
    NameRun.Sound ⟨(dnsInit mem buf len).1, []⟩ len where
  hashOk hash hsome := absurd hsome (by simp [dnsInit])
  end_eq := rfl
  inside w hw := absurd hw List.not_mem_nil
  ok w hw := absurd hw List.not_mem_nil
  names w hw := absurd hw List.not_mem_nil
  table s i hs := absurd hs (by simp [Dns.nameAt, dnsInit])

/-- The message has the cells of the names. -/
theorem Sound.cellsLe (h : r.Sound len) : CellsLe r.nameCells r.dns.cells := by
  intro i b hb
  unfold nameCells at hb
  split at hb
  · rename_i hany
    obtain ⟨w, hw, hin⟩ := List.any_eq_true.mp hany
    have hrange := of_decide_eq_true hin
    have hinside := h.inside w hw
    have hend := h.end_eq
    rw [Dns.cells, if_pos (by omega)]
    exact hb
  · exact absurd hb (by simp)

end NameRun

/-- An entry of the table is what a look-up gives. -/
theorem nameAt_of_mem_nameEntries {dns : Dns} (h : dns.HashOk) {e : List UInt8 × Nat}
    (he : e ∈ dns.nameEntries) : dns.nameAt e.1 = some e.2 := by
  unfold Dns.nameEntries at he
  cases hhash : dns.nameHash with
  | none =>
      rw [hhash] at he
      exact absurd he List.not_mem_nil
  | some hash =>
      rw [hhash] at he
      obtain ⟨m, hmodels⟩ := h hash hhash
      obtain ⟨entry, hentry, rfl⟩ := List.mem_map.mp he
      have hget := (hmodels.get_iff entry.1 entry).mpr
        ⟨(perm_hashEntries hmodels.wf).mem_iff.mp hentry, equivalence_keyEq_name.refl _⟩
      rw [Dns.nameAt_of_models hhash hmodels, hget]
      rfl

open NameRun in
/-- Names that are written behind each other decode to their labels, and every entry of the table
leads to a suffix of a name that was written. -/
theorem dnsPackName_sound (addrOf : Nat → Nat) (mem : Int → UInt8) (buf : Int) (len : Nat)
    (hlen : len ≤ 16383) (acts : List NameAct)
    (hacts : AllSteps (InOrder addrOf) (step addrOf) ⟨(dnsInit mem buf len).1, []⟩ acts) :
    let r := run (step addrOf) ⟨(dnsInit mem buf len).1, []⟩ acts
    (∀ w ∈ r.names, decodeName r.dns.cells len w.pos = some w.labels) ∧
      ∀ e ∈ r.dns.nameEntries, ∃ w ∈ r.names, ∃ ls : List Label, ls <:+ w.labels ∧ ls ≠ [] ∧
        e.1 = dotted ls ∧ decodeName r.dns.cells len e.2 = some ls := by
  intro r
  have hsound : r.Sound len := run_inv_of_allSteps (I := fun r => r.Sound len)
    (fun s act h hact => NameRun.Sound.step addrOf h hlen hact) (sound_init mem buf len) hacts
  have hle := hsound.cellsLe
  refine ⟨fun w hw => decodeFrom_mono hle _ _ _ (hsound.names w hw), fun e he => ?_⟩
  obtain ⟨-, w, hw, -, ls, hsuffix, hne, hs, hdecode⟩ :=
    hsound.table e.1 e.2 (nameAt_of_mem_nameEntries hsound.hashOk he)
  exact ⟨w, hw, ls, hsuffix, hne, hs, decodeFrom_mono hle _ _ _ hdecode⟩

open NameRun in
/-- `a.b`, two bytes behind it, and `c.b`, whose end is a pointer into `a.b`. -/
theorem dnsPackName_sound_pointer :
    let acts := [.name [[97], [98]] 12 48, .other 17 [0, 1], .name [[99], [98]] 19 41]
    let r := run (step id) ⟨(dnsInit (fun _ => 0) 0 60).1, []⟩ acts
    r.dns.cells 21 = some 192 ∧ r.dns.cells 22 = some 14 ∧
      ∀ w ∈ r.names, decodeName r.dns.cells 60 w.pos = some w.labels := by
  intro acts r
  have hok : ∀ b : UInt8, b ≠ dot → Label.Ok [b] := fun b hb =>
    ⟨by simp, by simp, by simpa using hb.symm⟩
  have hfirst : ∀ l ∈ ([[97], [98]] : List Label), l.Ok := by
    simp [hok 97 (by decide), hok 98 (by decide)]
  have hlast : ∀ l ∈ ([[99], [98]] : List Label), l.Ok := by
    simp [hok 99 (by decide), hok 98 (by decide)]
  have hacts : AllSteps (InOrder id) (step id) ⟨(dnsInit (fun _ => 0) 0 60).1, []⟩ acts := by
    refine ⟨⟨hfirst, by decide +kernel⟩, ?_, ⟨hlast, by decide +kernel⟩, trivial⟩
    intro w hw
    have hnames : (step id ⟨(dnsInit (fun _ => 0) 0 60).1, []⟩ (.name [[97], [98]] 12 48)).names
        = [⟨[[97], [98]], 12, 5⟩] := by decide +kernel
    rw [hnames, List.mem_singleton] at hw
    rw [hw]
    decide +kernel
  exact ⟨by decide +kernel, by decide +kernel,
    (dnsPackName_sound id (fun _ => 0) 0 60 (by decide) acts hacts).1⟩

end Bklib
