import Bklib.Lib.Run
import Bklib.Proofs.DnsDump

/-!
# `Bklib.Proofs.DnsUnpack`: reading records stays inside the message

`scanName` is the reading of a name without its text: where the name ends, whether the reader
refuses it, or whether the copy of a label runs over the end of the message, which the source does
not check. `dnsUnpackNameLoop_spec` compares it with the loop of `dns_unpack_name`.

`RecordInside` says that the record at `ptr` lies in the message with all that it needs, and
`ReadsInside` is the condition under which a call reads it, or refuses it and dumps the message,
without leaving the message or the array of the dump. Along every run of calls that meet the condition
nothing outside the message is read, `ptr` stays inside, and a record that is cut off is an error
(`dnsRrUnpack_inside`).
-/

set_option autoImplicit false

namespace Bklib

open Bklib.Lib

/-! ### Names inside the message -/

/-- The name at `src` ends at `e`, and all its bytes lie before `stop`, or behind a pointer before
the end of the message. -/
inductive NameInside (dns : Dns) : Int → Int → Int → Prop where
  | root {src stop : Int} (hsrc : src < stop) (hzero : dns.mem src = 0) :
      NameInside dns src stop (src + 1)
  | label {src stop e : Int} (hlabel : 0 < dns.mem src ∧ dns.mem src < 64)
      (hstop : src + 1 + (dns.mem src).toNat ≤ stop)
      (hrest : NameInside dns (src + 1 + (dns.mem src).toNat) stop e) : NameInside dns src stop e
  | pointer {src stop e : Int} (hsrc : src + 1 < stop) (hpointer : 64 ≤ dns.mem src)
      (hrest : NameInside dns
        (dns.buf + (256 * ((dns.mem src).toNat % 64) + (dns.mem (src + 1)).toNat : Nat))
        dns.bufEnd e) : NameInside dns src stop (src + 2)

/-- How the reading of a name ends: behind it, with the text that was written. -/
inductive NameScan where
  | ends (e : Int) (text : List UInt8)
  | refused
  | overruns
  deriving DecidableEq

/-- Behind a pointer the name ends at `e`, wherever the rest of it stands. -/
def NameScan.behind (e : Int) : NameScan → NameScan
  | .ends _ text => .ends e text
  | r            => r

/-- The dot in front of a label that is not the first. -/
def dotFor (dst : List UInt8) : List UInt8 := if dst = [] then [] else [46]

/-- The reading of the name at `src` up to `stop`, when `dst` has been written of its text and
`ptrMax - 1` pointers may be followed. -/
def scanName (mem : Int → UInt8) (buf bufEnd ptrMax src stop : Int) (dst : List UInt8) :
    NameScan :=
  if ¬src < stop then .refused
  else
    let n := mem src
    if n = 0 then .ends (src + 1) dst
    else if n &&& 192 ≠ 0 then
      let i := dnsPtrValue n (mem (src + 1))
      if ¬1 < ptrMax ∨ ¬src + 1 < stop ∨ ¬0 < i then .refused
      else (scanName mem buf bufEnd (ptrMax - 1) (buf + i) bufEnd dst).behind (src + 2)
    else if ¬(dst ++ dotFor dst).length + n.toNat < dnsNameMax then .refused
    else if bufEnd < src + 1 + strncpyLen mem (src + 1) n.toNat then .overruns
    else
      scanName mem buf bufEnd ptrMax (src + 1 + n.toNat) stop
        (dst ++ dotFor dst ++ strncpyText mem (src + 1) n.toNat)
termination_by (ptrMax.toNat, (stop - src).toNat)

/-- `scanName` on the bytes of a message. -/
abbrev Dns.scan (dns : Dns) (ptrMax src stop : Int) (dst : List UInt8) : NameScan :=
  scanName dns.mem dns.buf dns.bufEnd ptrMax src stop dst

/-- The range, an address and a length, lies in the message. -/
def Dns.HasRange (dns : Dns) (w : Int × Nat) : Prop :=
  ∀ a, w.1 ≤ a → a < w.1 + w.2 → dns.buf ≤ a ∧ a < dns.bufEnd

/-- Only the list of loads has changed, and they are all inside the message. -/
structure Dns.Read (dns dns' : Dns) : Prop where
  eq : ∃ loaded, dns' = { dns with loaded := loaded }
  inside : ∀ w ∈ dns'.loaded, dns.HasRange w

theorem Dns.Read.fields {dns dns' : Dns} (h : dns.Read dns') :
    dns'.mem = dns.mem ∧ dns'.buf = dns.buf ∧ dns'.bufEnd = dns.bufEnd := by
  obtain ⟨_, rfl⟩ := h.eq
  exact ⟨rfl, rfl, rfl⟩

theorem Dns.Read.hasRange {dns dns' : Dns} (h : dns.Read dns') :
    ∀ w ∈ dns'.loaded, dns'.HasRange w := by
  obtain ⟨_, rfl⟩ := h.eq
  exact h.inside

/-- A load inside the buffer is a reading. -/
theorem Dns.Read.load {dns dns' : Dns} (h : dns.Read dns') {a : Int} {n : Nat} (hlo : dns.buf ≤ a)
    (hhi : a + n ≤ dns.bufEnd) : dns.Read (dns'.load a n) := by
  obtain ⟨loaded, rfl⟩ := h.eq
  refine ⟨⟨_, rfl⟩, fun w hw => ?_⟩
  rcases List.mem_append.mp hw with hw | hw
  · exact h.inside w hw
  · intro b h1 h2
    rw [List.mem_singleton.mp hw] at h1 h2
    exact ⟨Int.le_trans hlo h1, Int.lt_of_lt_of_le h2 hhi⟩

theorem Dns.Read.trans {dns dns' dns'' : Dns} (h : dns.Read dns') (h' : dns'.Read dns'') :
    dns.Read dns'' := by
  obtain ⟨_, rfl⟩ := h.eq
  obtain ⟨loaded, rfl⟩ := h'.eq
  exact ⟨⟨loaded, rfl⟩, h'.inside⟩

theorem Dns.Read.unpackU16 {dns dns' : Dns} (h : dns.Read dns') {p : Int} (hlo : dns.buf ≤ p)
    (hhi : p + 2 ≤ dns.bufEnd) : dns.Read (dns'.unpackU16 p).1 := h.load hlo hhi

theorem Dns.Read.unpackU32 {dns dns' : Dns} (h : dns.Read dns') {p : Int} (hlo : dns.buf ≤ p)
    (hhi : p + 4 ≤ dns.bufEnd) : dns.Read (dns'.unpackU32 p).1 := h.load hlo hhi

/-- What the loop leaves behind agrees with the scan. -/
structure Agrees (dns : Dns) (srcEnd : Int) (r : DnsNameRead) (scan : NameScan) : Prop where
  read : dns.Read r.dns
  ends : ∀ e text, scan = .ends e text →
    r.ok = true ∧ r.dst = text ∧
      (if r.srcEnd = 0 then r.src else r.srcEnd) = if srcEnd = 0 then e else srcEnd
  refused : scan = .refused → r.ok = false

/-- Behind a pointer `*src_end` is set for good. -/
theorem Agrees.behind {dns : Dns} {srcEnd q : Int} {r : DnsNameRead} {scan : NameScan}
    (h : Agrees dns (if srcEnd = 0 then q else srcEnd) r scan) (hq : 0 < q) :
    Agrees dns srcEnd r (scan.behind q) := by
  refine ⟨h.read, fun e text he => ?_, fun he => ?_⟩
  · cases scan with
    | ends e' text' =>
        obtain ⟨rfl, rfl⟩ := NameScan.ends.inj he
        obtain ⟨hok, hdst, hend⟩ := h.ends e' _ rfl
        refine ⟨hok, hdst, hend.trans ?_⟩
        by_cases h0 : srcEnd = 0
        · rw [if_pos h0, if_neg (by omega)]
        · rw [if_neg h0, if_neg h0]
    | refused => exact absurd he (by simp [NameScan.behind])
    | overruns => exact absurd he (by simp [NameScan.behind])
  · cases scan with
    | ends e' text' => exact absurd he (by simp [NameScan.behind])
    | refused => exact h.refused rfl
    | overruns => exact absurd he (by simp [NameScan.behind])

theorem and_192_ne_zero_iff (n : UInt8) : n &&& 192 ≠ 0 ↔ 64 ≤ n := by
  have hall : ∀ k : Fin 256, UInt8.ofNat k.val &&& 192 ≠ 0 ↔ 64 ≤ UInt8.ofNat k.val := by
    decide +kernel
  simpa using hall ⟨n.toNat, n.toNat_lt⟩

/-- `strncpy` fills its whole length. -/
theorem length_strncpyText (mem : Int → UInt8) (src : Int) (n : Nat) :
    (strncpyText mem src n).length = n := by
  have hle := (List.takeWhile_prefix (· ≠ 0) (l := readAt mem src n)).length_le
  rw [length_readAt] at hle
  show (cstr (readAt mem src n) ++ List.replicate (n - (cstr _).length) 0).length = n
  unfold cstr
  rw [List.length_append, List.length_replicate]
  omega

/-! The rounds of the loop. -/

section
variable {dns : Dns} {src stop : Int} (ptrMax : Int) (dst : List UInt8) (dstlen srcEnd : Int)

theorem dnsUnpackNameLoop_stop (h : ¬src < stop) :
    dnsUnpackNameLoop dns ptrMax src (stop - src) dst dstlen srcEnd
      = ⟨dns, false, dst, src, srcEnd⟩ := by
  rw [dnsUnpackNameLoop, if_pos (by omega)]

theorem dnsUnpackNameLoop_zero (h : src < stop) (hzero : dns.mem src = 0) :
    dnsUnpackNameLoop dns ptrMax src (stop - src) dst dstlen srcEnd
      = ⟨dns.load src 1, true, dst, src + 1, srcEnd⟩ := by
  rw [dnsUnpackNameLoop, if_neg (by omega)]
  simp only [if_pos hzero]

/-- A round at a pointer: it stops at the end of the pointers or of the bytes, else it goes on at
the target. -/
theorem dnsUnpackNameLoop_pointer (h : src < stop) (hzero : dns.mem src ≠ 0)
    (hpointer : dns.mem src &&& 192 ≠ 0) :
    dnsUnpackNameLoop dns ptrMax src (stop - src) dst dstlen srcEnd =
      if ¬0 < ptrMax - 1 ∨ ¬0 < stop - src - 1 then ⟨dns.load src 1, false, dst, src + 1, srcEnd⟩
      else
        let i := dnsPtrValue (dns.mem src) (dns.mem (src + 1))
        let dns' := (dns.load src 1).load (src + 1) 1
        if ¬0 < i then ⟨dns', false, dst, src + 1 + 1, srcEnd⟩
        else
          dnsUnpackNameLoop dns' (ptrMax - 1) (dns.buf + i) (dns.bufEnd - dns.buf - i) dst dstlen
            (if srcEnd = 0 then src + 1 + 1 else srcEnd) := by
  rw [dnsUnpackNameLoop, if_neg (by omega)]
  simp only [if_neg hzero, if_pos hpointer]
  rfl

/-- A round at a label: it stops where the label does not fit, else it copies it. -/
theorem dnsUnpackNameLoop_label (h : src < stop) (hzero : dns.mem src ≠ 0)
    (hpointer : ¬dns.mem src &&& 192 ≠ 0) (hdst : dstlen = dnsNameMax - dst.length) :
    dnsUnpackNameLoop dns ptrMax src (stop - src) dst dstlen srcEnd =
      if ¬(dst ++ dotFor dst).length + (dns.mem src).toNat < dnsNameMax then
        ⟨dns.load src 1, false,
          if dst ≠ [] ∧ ¬1 < dstlen then dst else dst ++ dotFor dst, src + 1, srcEnd⟩
      else
        let n := (dns.mem src).toNat
        let text := strncpyText dns.mem (src + 1) n
        dnsUnpackNameLoop ((dns.load src 1).load (src + 1) (strncpyLen dns.mem (src + 1) n)) ptrMax
          (src + 1 + n)
          (stop - (src + 1 + n)) (dst ++ dotFor dst ++ text)
          (dnsNameMax - (dst ++ dotFor dst ++ text).length) srcEnd := by
  subst hdst
  have hlen := length_strncpyText dns.mem (src + 1) (dns.mem src).toNat
  rw [dnsUnpackNameLoop, if_neg (by omega)]
  simp only [if_neg hzero, if_neg hpointer]
  rw [List.length_append]
  unfold dotFor
  by_cases hdst : dst = []
  · subst hdst
    simp only [ne_eq, not_true_eq_false, false_and, if_false, if_true, List.length_nil,
      List.append_nil, List.nil_append, hlen]
    by_cases hroom : (0 : Nat) + 0 + (dns.mem src).toNat < dnsNameMax
    · rw [if_neg (by omega), if_neg (by omega)]
      congr 1
      omega
    · rw [if_pos (by omega), if_pos (by omega)]
  · simp only [ne_eq, hdst, not_false_eq_true, true_and, if_false, List.length_singleton,
      List.length_append, hlen]
    have hpos : 0 < (dns.mem src).toNat := by
      have h0 : (dns.mem src).toNat ≠ 0 := fun h0 => hzero (UInt8.toNat_inj.mp h0)
      omega
    by_cases hroom : dst.length + 1 + (dns.mem src).toNat < dnsNameMax
    · rw [if_neg (by omega), if_neg (by omega), if_neg (by omega)]
      congr 1
      · omega
      · push_cast
        omega
    · -- Without room for the dot there is none for the label either.
      rw [if_pos hroom]
      by_cases hdot : (1 : Int) < dnsNameMax - dst.length
      · rw [if_neg (by omega), if_pos (by push_cast; omega), if_neg (by omega)]
      · rw [if_pos hdot, if_pos hdot]

end

/-- The loop agrees with the scan, as long as the scan does not run over the end. Induction along the
scan. -/
theorem dnsUnpackNameLoop_spec (d : Dns) (hbuf : 0 < d.buf) (ptrMax src stop : Int)
    (dst : List UInt8) :
    d.buf ≤ src → stop ≤ d.bufEnd → d.scan ptrMax src stop dst ≠ .overruns →
      ∀ {dns : Dns}, d.Read dns → ∀ srcEnd : Int,
        Agrees d srcEnd
          (dnsUnpackNameLoop dns ptrMax src (stop - src) dst (dnsNameMax - dst.length) srcEnd)
          (d.scan ptrMax src stop dst) := by
  induction ptrMax, src, stop, dst using scanName.induct d.mem d.buf d.bufEnd with
  | case1 ptrMax src stop dst hstop =>
      intro _ _ _ dns hread srcEnd
      rw [Dns.scan, scanName, if_pos hstop, dnsUnpackNameLoop_stop _ _ _ _ hstop]
      exact ⟨hread, by simp, fun _ => rfl⟩
  | case2 ptrMax src stop dst hstop n hzero =>
      intro hlo hhi _ dns hread srcEnd
      obtain ⟨hmem, -, -⟩ := hread.fields
      have hsrc : src < stop := not_not.mp hstop
      have hload := hread.load (a := src) (n := 1) hlo (by omega)
      rw [Dns.scan, scanName, if_neg hstop, if_pos hzero,
        dnsUnpackNameLoop_zero _ _ _ _ hsrc (by rw [hmem]; exact hzero)]
      refine ⟨hload, fun e text he => ?_, fun he => absurd he (by simp)⟩
      obtain ⟨rfl, rfl⟩ := NameScan.ends.inj he
      exact ⟨rfl, rfl, rfl⟩
  | case3 ptrMax src stop dst hstop n hzero hpointer i hbad =>
      intro hlo hhi _ dns hread srcEnd
      obtain ⟨hmem, -, -⟩ := hread.fields
      have hsrc : src < stop := not_not.mp hstop
      have hload := hread.load (a := src) (n := 1) hlo (by omega)
      have hbad' : ¬1 < ptrMax ∨ ¬src + 1 < stop ∨ ¬0 < dnsPtrValue (d.mem src) (d.mem (src + 1)) :=
        hbad
      rw [Dns.scan, scanName, if_neg hstop, if_neg hzero, if_pos hpointer, if_pos hbad,
        dnsUnpackNameLoop_pointer _ _ _ _ hsrc (by rw [hmem]; exact hzero)
          (by rw [hmem]; exact hpointer)]
      split
      · exact ⟨hload, by simp, fun _ => rfl⟩
      · simp only [hmem]
        rw [if_pos (by omega)]
        exact ⟨hload.load (by omega) (by omega), by simp, fun _ => rfl⟩
  | case4 ptrMax src stop dst hstop n hzero hpointer i hbad ih =>
      intro hlo hhi hover dns hread srcEnd
      obtain ⟨hmem, hbuf', hend⟩ := hread.fields
      have hsrc : src < stop := not_not.mp hstop
      have hload := hread.load (a := src) (n := 1) hlo (by omega)
      have hgood : ¬(¬1 < ptrMax ∨ ¬src + 1 < stop ∨
        ¬0 < dnsPtrValue (d.mem src) (d.mem (src + 1))) := hbad
      rw [Dns.scan, scanName, if_neg hstop, if_neg hzero, if_pos hpointer, if_neg hbad] at hover ⊢
      rw [dnsUnpackNameLoop_pointer _ _ _ _ hsrc (by rw [hmem]; exact hzero)
          (by rw [hmem]; exact hpointer), if_neg (by omega)]
      simp only [hmem, hbuf', hend]
      rw [if_neg (by omega)]
      have hload₂ := hload.load (a := src + 1) (n := 1) (by omega) (by omega)
      -- The rest of the name ends somewhere else, but the pointer ends here.
      have hrest : d.scan (ptrMax - 1) (d.buf + i) d.bufEnd dst ≠ .overruns := by
        intro hrest
        rw [show scanName d.mem d.buf d.bufEnd (ptrMax - 1) (d.buf + dnsPtrValue (d.mem src)
          (d.mem (src + 1))) d.bufEnd dst = .overruns from hrest] at hover
        exact hover rfl
      have hagrees := ih (by omega) (Int.le_refl _) hrest hload₂
        (if srcEnd = 0 then src + 1 + 1 else srcEnd)
      rw [show d.bufEnd - (d.buf + i) = d.bufEnd - d.buf - i by omega] at hagrees
      rw [show src + 1 + 1 = src + 2 by omega] at hagrees ⊢
      exact hagrees.behind (by omega)
  | case5 ptrMax src stop dst hstop n hzero hpointer hlong =>
      intro hlo hhi _ dns hread srcEnd
      obtain ⟨hmem, -, -⟩ := hread.fields
      have hsrc : src < stop := not_not.mp hstop
      have hload := hread.load (a := src) (n := 1) hlo (by omega)
      rw [Dns.scan, scanName, if_neg hstop, if_neg hzero, if_neg hpointer, if_pos hlong,
        dnsUnpackNameLoop_label _ _ _ _ hsrc (by rw [hmem]; exact hzero)
          (by rw [hmem]; exact hpointer) rfl, if_pos (by rw [hmem]; exact hlong)]
      exact ⟨hload, by simp, fun _ => rfl⟩
  | case6 ptrMax src stop dst hstop n hzero hpointer hlong hover =>
      intro hlo hhi hne dns hread srcEnd
      rw [Dns.scan, scanName, if_neg hstop, if_neg hzero, if_neg hpointer, if_neg hlong,
        if_pos hover] at hne
      exact absurd rfl hne
  | case7 ptrMax src stop dst hstop n hzero hpointer hlong hover ih =>
      intro hlo hhi hne dns hread srcEnd
      obtain ⟨hmem, -, -⟩ := hread.fields
      have hsrc : src < stop := not_not.mp hstop
      have hload := hread.load (a := src) (n := 1) hlo (by omega)
      rw [Dns.scan, scanName, if_neg hstop, if_neg hzero, if_neg hpointer, if_neg hlong,
        if_neg hover] at hne ⊢
      rw [dnsUnpackNameLoop_label _ _ _ _ hsrc (by rw [hmem]; exact hzero)
          (by rw [hmem]; exact hpointer) rfl, if_neg (by rw [hmem]; exact hlong)]
      have hn : n = d.mem src := rfl
      have hload₂ := hload.load (a := src + 1) (n := strncpyLen d.mem (src + 1) n.toNat) (by omega)
        (by omega)
      simp only [hmem]
      exact ih (by omega) hhi hne hload₂ srcEnd

/-- A positive target is the fourteen bits of the two bytes. -/
theorem dnsPtrValue_pos {hi lo : UInt8} (h : 0 < dnsPtrValue hi lo) :
    dnsPtrValue hi lo = (256 * (hi.toNat % 64) + lo.toNat : Nat) := by
  have hlo := lo.toNat_lt
  unfold dnsPtrValue at h ⊢
  split
  · push_cast
    rfl
  · rename_i hneg
    rw [if_neg hneg] at h
    omega

theorem uint8_pos {n : UInt8} (h : n ≠ 0) : 0 < n.toNat := by
  have hnat : n.toNat ≠ 0 := fun h0 => h (UInt8.toNat_inj.mp h0)
  omega

/-- A name that the scan reads lies inside the message. Induction along the scan. -/
theorem scanName_ends (d : Dns) (ptrMax src stop : Int) (dst : List UInt8) :
    ∀ {e : Int} {text : List UInt8}, d.scan ptrMax src stop dst = .ends e text →
      NameInside d src stop e ∧ src < e ∧ e ≤ stop := by
  induction ptrMax, src, stop, dst using scanName.induct d.mem d.buf d.bufEnd with
  | case1 ptrMax src stop dst hstop =>
      intro e text h
      rw [Dns.scan, scanName, if_pos hstop] at h
      exact absurd h (by simp)
  | case2 ptrMax src stop dst hstop n =>
      rename_i hzero
      intro e text h
      rw [Dns.scan, scanName, if_neg hstop, if_pos hzero] at h
      -- the byte 0 ends the name
      obtain ⟨rfl, -⟩ := NameScan.ends.inj h
      have hsrc : src < stop := not_not.mp hstop
      exact ⟨NameInside.root hsrc hzero, by omega, by omega⟩
  | case3 ptrMax src stop dst hstop n hzero hpointer =>
      rename_i i hbad
      intro e text h
      rw [Dns.scan, scanName, if_neg hstop, if_neg hzero, if_pos hpointer, if_pos hbad] at h
      exact absurd h (by simp)
  | case4 ptrMax src stop dst hstop n hzero hpointer i =>
      rename_i hbad ih
      intro e text h
      rw [Dns.scan, scanName, if_neg hstop, if_neg hzero, if_pos hpointer, if_neg hbad] at h
      -- a pointer that is followed has both of its bytes inside
      have hgood : ¬(¬1 < ptrMax ∨ ¬src + 1 < stop ∨
        ¬0 < dnsPtrValue (d.mem src) (d.mem (src + 1))) := hbad
      cases hrest : scanName d.mem d.buf d.bufEnd (ptrMax - 1)
          (d.buf + dnsPtrValue (d.mem src) (d.mem (src + 1))) d.bufEnd dst with
      | ends e' text' =>
          rw [hrest] at h
          obtain ⟨rfl, -⟩ := NameScan.ends.inj h
          obtain ⟨hinside, -, -⟩ := ih hrest
          have hi : 0 < dnsPtrValue (d.mem src) (d.mem (src + 1)) := by omega
          rw [show i = _ from dnsPtrValue_pos hi] at hinside
          refine ⟨NameInside.pointer (by omega) ((and_192_ne_zero_iff _).mp hpointer) hinside, ?_⟩
          omega
      | refused =>
          rw [hrest] at h
          exact absurd h (by simp [NameScan.behind])
      | overruns =>
          rw [hrest] at h
          exact absurd h (by simp [NameScan.behind])
  | case5 ptrMax src stop dst hstop n hzero hpointer =>
      rename_i hlong
      intro e text h
      rw [Dns.scan, scanName, if_neg hstop, if_neg hzero, if_neg hpointer, if_pos hlong] at h
      exact absurd h (by simp)
  | case6 ptrMax src stop dst hstop n hzero hpointer hlong =>
      rename_i hover
      intro e text h
      rw [Dns.scan, scanName, if_neg hstop, if_neg hzero, if_neg hpointer, if_neg hlong,
        if_pos hover] at h
      exact absurd h (by simp)
  | case7 ptrMax src stop dst hstop n hzero hpointer hlong hover =>
      rename_i ih
      intro e text h
      rw [Dns.scan, scanName, if_neg hstop, if_neg hzero, if_neg hpointer, if_neg hlong,
        if_neg hover] at h
      obtain ⟨hinside, hlt, hle⟩ := ih h
      -- a label that fits in front of `stop`
      have hpos := uint8_pos hzero
      have hlabel : 0 < d.mem src ∧ d.mem src < 64 := by
        rw [and_192_ne_zero_iff, UInt8.not_le] at hpointer
        exact ⟨UInt8.lt_iff_toNat_lt.mpr hpos, hpointer⟩
      have hnat : n.toNat = (d.mem src).toNat := rfl
      exact ⟨NameInside.label hlabel (by omega) hinside, by omega, hle⟩

/-- `dns_unpack_name` agrees with the scan. -/
theorem dnsUnpackName_spec {dns : Dns} (hbuf : 0 < dns.buf)
    (hloaded : ∀ w ∈ dns.loaded, dns.HasRange w) {src stop : Int} (hlo : dns.buf ≤ src)
    (hhi : stop ≤ dns.bufEnd) (hover : dns.scan 100 src stop [] ≠ .overruns) :
    ∃ dns' i name p, dnsUnpackName dns src (stop - src) dnsNameMax = (dns', i, name, p) ∧
      dns.Read dns' ∧
      (∀ e text, dns.scan 100 src stop [] = .ends e text →
        0 < i ∧ name = text ++ [0] ∧ p = e) ∧
      (dns.scan 100 src stop [] = .refused → i = -1) := by
  have hagrees := dnsUnpackNameLoop_spec dns hbuf 100 src stop [] hlo hhi hover ⟨⟨_, rfl⟩, hloaded⟩ 0
  rw [List.length_nil, Nat.cast_zero, Int.sub_zero] at hagrees
  unfold dnsUnpackName
  generalize dnsUnpackNameLoop dns 100 src (stop - src) [] dnsNameMax 0 = r at hagrees
  cases hscan : dns.scan 100 src stop [] with
  | ends e text =>
      obtain ⟨hok, hdst, hend⟩ := hagrees.ends e text hscan
      simp only [hok, if_true]
      refine ⟨_, _, _, _, rfl, hagrees.read, fun e' text' he => ?_, fun he => absurd he (by simp)⟩
      obtain ⟨rfl, rfl⟩ := NameScan.ends.inj he
      exact ⟨by omega, by rw [hdst], hend⟩
  | refused =>
      have hok := hagrees.refused hscan
      simp only [hok]
      exact ⟨_, _, _, _, rfl, hagrees.read, fun _ _ he => absurd he (by simp), fun _ => rfl⟩
  | overruns => exact absurd hscan hover

/-- The name of the root is read as an empty text. -/
theorem dnsUnpackName_root {dns : Dns} {src srclen : Int} (dstlen : Int) (hlen : 0 < srclen)
    (hzero : dns.mem src = 0) :
    dnsUnpackName dns src srclen dstlen = (dns.load src 1, 1, [0], src + 1) := by
  have hloop := dnsUnpackNameLoop_zero 100 [] dstlen 0 (show src < src + srclen by omega) hzero
  rw [show src + srclen - src = srclen by omega] at hloop
  unfold dnsUnpackName
  rw [hloop]
  rfl

/-! ### Records -/

/-- The 16-bit number at `p`. -/
def Dns.u16At (dns : Dns) (p : Int) : UInt16 := (dns.unpackU16 p).2

/-- The 32-bit number at `p`. -/
def Dns.u32At (dns : Dns) (p : Int) : UInt32 := (dns.unpackU32 p).2

/-- The record's type at `p` says that its data is a name. -/
def Dns.nameTypeAt (dns : Dns) (p : Int) : Bool :=
  ({ DnsRr.zero with rrType := dns.u16At p } : DnsRr).hasName

/-- The record at `ptr` lies in the message: its name, its fixed fields, and its data, which is an
address or a name when the type says so. -/
def RecordInside (dns : Dns) (rrSection : Int) : Prop :=
  ∃ p, NameInside dns dns.ptr dns.bufEnd p ∧
    if rrSection = DNS_RR_QUESTION then p + 4 ≤ dns.bufEnd
    else
      p + 10 + (dns.u16At (p + 8)).toNat ≤ dns.bufEnd ∧
        (dns.u16At p = DNS_TYPE_A → dns.u16At (p + 8) = 4) ∧
        (dns.nameTypeAt p = true →
          ∃ q, NameInside dns (p + 10) (p + 10 + (dns.u16At (p + 8)).toNat) q)

/-- Behind a name that ends at `p` the record is all there. When its data is a name there is room
behind that for as many bytes again, as they are skipped twice. -/
def RestInside (dns : Dns) (rrSection p : Int) : Prop :=
  if rrSection = DNS_RR_QUESTION then p + 4 ≤ dns.bufEnd
  else
    p + 10 + (dns.u16At (p + 8)).toNat ≤ dns.bufEnd ∧
      (dns.u16At p = DNS_TYPE_A → dns.u16At (p + 8) = 4) ∧
      (dns.nameTypeAt p = true → ∃ q text,
        dns.scan 100 (p + 10) (p + 10 + (dns.u16At (p + 8)).toNat) [] = .ends q text ∧
          q + (dns.u16At (p + 8)).toNat ≤ dns.bufEnd)

/-- The call reads the record, or refuses its name, without leaving the message: no label runs over
the end, behind a name that is read the record is all there, and when the name is refused the message
can be dumped. -/
def ReadsInside (debugLevel : Int) (dns : Dns) : Prop :=
  ∀ rrSection, dnsRrSection dns = some rrSection →
    dns.scan 100 dns.ptr dns.bufEnd [] ≠ .overruns ∧
      (∀ p text, dns.scan 100 dns.ptr dns.bufEnd [] = .ends p text → RestInside dns rrSection p) ∧
      (dns.scan 100 dns.ptr dns.bufEnd [] = .refused →
        DumpFits debugWARN debugLevel (dns.bufEnd - dns.buf))

/-- The call stays inside the message, and inside the array of its dump, and fails on a record that
does not lie in the message. -/
structure CallInside (debugLevel : Int) (dns : Dns) : Prop where
  message : (dnsRrUnpack dns).1.mem = dns.mem ∧ (dnsRrUnpack dns).1.buf = dns.buf ∧
    (dnsRrUnpack dns).1.bufEnd = dns.bufEnd
  loads : ∀ w ∈ (dnsRrUnpack dns).1.loaded, dns.HasRange w
  dump : DumpInside (dnsRrDump debugLevel (dnsRrUnpack dns))
  ptr : 0 < (dnsRrUnpack dns).2.2 →
    dns.buf ≤ (dnsRrUnpack dns).1.ptr ∧ (dnsRrUnpack dns).1.ptr ≤ dns.bufEnd
  cut : ∀ rrSection, dnsRrSection dns = some rrSection → ¬RecordInside dns rrSection →
    (dnsRrUnpack dns).2.2 < 0

/-- What holds between the calls. -/
structure MessageOk (dns : Dns) : Prop where
  buf : 0 < dns.buf
  ptr : dns.buf ≤ dns.ptr ∧ dns.ptr ≤ dns.bufEnd
  loaded : ∀ w ∈ dns.loaded, dns.HasRange w

/-- Setting the index does not touch what has been read. -/
theorem Dns.Read.setIdx {dns dns' : Dns} (h : dns.Read dns') (rrIdx : UInt8) :
    Dns.Read { dns with rrIdx := rrIdx } { dns' with rrIdx := rrIdx } := by
  obtain ⟨loaded, rfl⟩ := h.eq
  exact ⟨⟨loaded, rfl⟩, h.inside⟩

/-- A name that the scan gets to the end of is read, whatever has been read before it. -/
theorem Dns.Read.unpackName {dns dns' : Dns} (h : dns.Read dns') (hbuf : 0 < dns.buf)
    {src stop e : Int} {text : List UInt8} (hlo : dns.buf ≤ src) (hhi : stop ≤ dns.bufEnd)
    (hscan : dns.scan 100 src stop [] = .ends e text) :
    ∃ dns'' i, dnsUnpackName dns' src (stop - src) dnsNameMax = (dns'', i, text ++ [0], e) ∧
      0 < i ∧ dns.Read dns'' := by
  obtain ⟨hmem, hbuf', hend'⟩ := h.fields
  have hscan' : dns'.scan 100 src stop [] = .ends e text := by
    rw [Dns.scan, hmem, hbuf', hend']
    exact hscan
  obtain ⟨dns'', i, name, p, hunpack, hread, hends, -⟩ :=
    dnsUnpackName_spec (hbuf' ▸ hbuf) h.hasRange (hbuf' ▸ hlo) (hend' ▸ hhi) (by rw [hscan']; simp)
  obtain ⟨hi, rfl, rfl⟩ := hends e text hscan'
  exact ⟨dns'', i, hunpack, hi, h.trans hread⟩

/-- A name at `ptr` that the scan gets to the end of is read. -/
theorem MessageOk.unpackName {dns : Dns} (h : MessageOk dns) {p : Int} {text : List UInt8}
    (hscan : dns.scan 100 dns.ptr dns.bufEnd [] = .ends p text) :
    ∃ loaded i, dnsUnpackName dns dns.ptr (dns.bufEnd - dns.ptr) dnsNameMax
        = ({ dns with loaded := loaded }, i, text ++ [0], p) ∧
      0 < i ∧ dns.Read { dns with loaded := loaded } := by
  have hrefl : dns.Read dns := ⟨⟨dns.loaded, rfl⟩, h.loaded⟩
  obtain ⟨dns', i, hunpack, hi, hread⟩ := hrefl.unpackName h.buf h.ptr.1 (Int.le_refl _) hscan
  obtain ⟨loaded, rfl⟩ := hread.eq
  exact ⟨loaded, i, hunpack, hi, hread⟩

/-- The data of a record is read inside the message, and behind it `p` is where it was or behind a
name. -/
theorem dnsRdataUnpack_spec {dns dns' : Dns} (h : dns.Read dns') (hbuf : 0 < dns.buf) (rr : DnsRr)
    {p : Int} (hlo : dns.buf ≤ p) (hend : p + rr.rdataLen.toNat ≤ dns.bufEnd)
    (hA : rr.rrType = DNS_TYPE_A → rr.rdataLen = 4)
    (hname : rr.hasName = true →
      ∃ q text, dns.scan 100 p (p + rr.rdataLen.toNat) [] = .ends q text ∧
        q + rr.rdataLen.toNat ≤ dns.bufEnd) :
    ∃ dns'' rr' p', dnsRdataUnpack dns' rr p = (dns'', rr', p') ∧ dns.Read dns'' ∧
      rr'.rdataLen = rr.rdataLen ∧ dns.buf ≤ p' ∧ p' + rr.rdataLen.toNat ≤ dns.bufEnd := by
  unfold dnsRdataUnpack
  by_cases htype : rr.rrType = DNS_TYPE_A
  · rw [if_pos htype, if_pos (hA htype)]
    rw [hA htype] at hend ⊢
    exact ⟨_, _, p, rfl, h.load (a := p) (n := 4) hlo hend, rfl, hlo, hend⟩
  · rw [if_neg htype]
    by_cases hhas : rr.hasName = true
    · obtain ⟨q, text, hscan, hroom⟩ := hname hhas
      obtain ⟨-, hlt, -⟩ := scanName_ends dns 100 p _ [] hscan
      obtain ⟨dns'', i, hunpack, -, hread⟩ := h.unpackName hbuf hlo hend hscan
      rw [show p + (rr.rdataLen.toNat : Int) - p = rr.rdataLen.toNat by omega] at hunpack
      rw [if_pos hhas]
      simp only [hunpack]
      exact ⟨_, _, _, rfl, hread, rfl, by omega, hroom⟩
    · rw [if_neg hhas]
      exact ⟨dns', rr, p, rfl, h, rfl, hlo, hend⟩

/-- The type and the class are read from four bytes inside the buffer. -/
theorem dnsTypeClassUnpack_read {dns dns' : Dns} (h : dns.Read dns') (rr : DnsRr) {p : Int}
    (hlo : dns.buf ≤ p) (hhi : p + 4 ≤ dns.bufEnd) :
    ∃ dns'', dnsTypeClassUnpack dns' rr p
        = (dns'', { rr with rrType := dns.u16At p, rrClass := dns.u16At (p + 2) }) ∧
      dns.Read dns'' := by
  have hread := (h.unpackU16 hlo (by omega)).unpackU16 (p := p + 2) (by omega) (by omega)
  obtain ⟨_, rfl⟩ := h.eq
  exact ⟨_, rfl, hread⟩

/-- The time to live and the length are read from the next six. -/
theorem dnsTtlLenUnpack_read {dns dns' : Dns} (h : dns.Read dns') (rr : DnsRr) {p : Int}
    (hlo : dns.buf ≤ p) (hhi : p + 10 ≤ dns.bufEnd) :
    ∃ dns'', dnsTtlLenUnpack dns' rr p
        = (dns'', { rr with ttl := dns.u32At (p + 4), rdataLen := dns.u16At (p + 8) }) ∧
      dns.Read dns'' := by
  have hread := (h.unpackU32 (p := p + 4) (by omega) (by omega)).unpackU16 (p := p + 8)
    (by omega) (by omega)
  obtain ⟨_, rfl⟩ := h.eq
  exact ⟨_, rfl, hread⟩

section
variable {dns : Dns} {rrSection i p : Int} {loaded : List (Int × Nat)} {name : List UInt8}
  (hunpack : dnsUnpackName dns dns.ptr (dns.bufEnd - dns.ptr) dnsNameMax
    = ({ dns with loaded := loaded }, i, name, p)) (hi : 0 < i)
include hunpack hi

/-- The call on a question whose name is read. -/
theorem dnsRrUnpack_question (hsection : dnsRrSection dns = some DNS_RR_QUESTION) :
    ∃ loaded', dnsRrUnpack dns =
      ({ dns with rrIdx := dns.rrIdx + 1, loaded := loaded', ptr := p + 4 },
        { DnsRr.zero with
          rrSection := DNS_RR_QUESTION, name := cstr name, rrType := dns.u16At p,
          rrClass := dns.u16At (p + 2) }, 1) := by
  unfold dnsRrUnpack
  simp only [hsection, hunpack]
  rw [if_neg (by omega)]
  exact ⟨_, if_pos rfl⟩

/-- The call on another record whose name is read. -/
theorem dnsRrUnpack_resource (hsection : dnsRrSection dns = some rrSection)
    (hresource : rrSection ≠ DNS_RR_QUESTION) :
    ∃ loaded' dns' rr, dns' = { dns with rrIdx := dns.rrIdx + 1, loaded := loaded' } ∧
      rr = { DnsRr.zero with
        rrSection := rrSection, name := cstr name, rrType := dns.u16At p,
        rrClass := dns.u16At (p + 2), ttl := dns.u32At (p + 4), rdataLen := dns.u16At (p + 8) } ∧
      dnsRrUnpack dns =
        let r := dnsRdataUnpack dns' rr (p + 10)
        ({ r.1 with ptr := r.2.2 + r.2.1.rdataLen.toNat }, { r.2.1 with rdataPtr := r.2.2 }, 1) := by
  unfold dnsRrUnpack
  simp only [hsection, hunpack]
  rw [if_neg (by omega)]
  exact ⟨_, _, _, rfl, rfl, if_neg hresource⟩

end

/-- The call on a record whose name ends at `p`, when the rest of it is there. -/
theorem dnsRrUnpack_ends {dns : Dns} (h : MessageOk dns) {rrSection p : Int} {text : List UInt8}
    (hsection : dnsRrSection dns = some rrSection)
    (hscan : dns.scan 100 dns.ptr dns.bufEnd [] = .ends p text)
    (hrest : RestInside dns rrSection p) :
    ∃ dns' rr p', dnsRrUnpack dns = ({ dns' with ptr := p' }, rr, 1) ∧
      Dns.Read { dns with rrIdx := dns.rrIdx + 1 } dns' ∧ dns.buf ≤ p' ∧ p' ≤ dns.bufEnd := by
  obtain ⟨hinside, hlt, hle⟩ := scanName_ends dns 100 _ _ [] hscan
  obtain ⟨loaded, i, hunpack, hi, hread⟩ := h.unpackName hscan
  have hlo := h.ptr.1
  have hread₁ := hread.setIdx (dns.rrIdx + 1)
  unfold dnsRrUnpack
  simp only [hsection, hunpack]
  rw [if_neg (by omega)]
  unfold RestInside at hrest
  by_cases hquestion : rrSection = DNS_RR_QUESTION
  · rw [if_pos hquestion] at hrest
    obtain ⟨dns₂, htype, hread₂⟩ := dnsTypeClassUnpack_read hread₁
      { DnsRr.zero with rrSection := rrSection, name := cstr (text ++ [0]) } (p := p)
      (Int.le_trans hlo (by omega)) hrest
    simp only [htype]
    rw [if_pos hquestion]
    exact ⟨dns₂, _, p + 4, rfl, hread₂, by omega, hrest⟩
  · rw [if_neg hquestion] at hrest
    obtain ⟨hend, hA, hname⟩ := hrest
    obtain ⟨dns₂, htype, hread₂⟩ := dnsTypeClassUnpack_read hread₁
      { DnsRr.zero with rrSection := rrSection, name := cstr (text ++ [0]) } (p := p)
      (Int.le_trans hlo (by omega)) (Int.le_trans (by omega) hend)
    simp only [htype]
    rw [if_neg hquestion]
    obtain ⟨dns₃, httl, hread₃⟩ := dnsTtlLenUnpack_read hread₂
      { DnsRr.zero with
        rrSection := rrSection, name := cstr (text ++ [0]), rrType := dns.u16At p,
        rrClass := dns.u16At (p + 2) } (p := p) (Int.le_trans hlo (by omega))
      (Int.le_trans (by omega) hend)
    simp only [show Dns.u16At { dns with rrIdx := dns.rrIdx + 1 } = dns.u16At from rfl,
      show Dns.u32At { dns with rrIdx := dns.rrIdx + 1 } = dns.u32At from rfl] at httl ⊢
    simp only [httl]
    -- The state behind the fixed fields has the bytes of the message, so the data is where it was.
    obtain ⟨dns₄, rr, p', hrdata, hread₄, hlen, hlo', hhi'⟩ := dnsRdataUnpack_spec hread₃ h.buf
      { DnsRr.zero with
        rrSection := rrSection, name := cstr (text ++ [0]), rrType := dns.u16At p,
        rrClass := dns.u16At (p + 2), ttl := dns.u32At (p + 4), rdataLen := dns.u16At (p + 8) }
      (Int.le_trans hlo (by omega)) hend hA hname
    simp only [hrdata]
    refine ⟨dns₄, _, _, rfl, hread₄, ?_, ?_⟩
    · rw [hlen]
      exact Int.le_trans hlo' (by omega)
    · rw [hlen]
      exact hhi'

/-- A record whose rest is not inside the message is never read, so the condition says that it is. -/
theorem recordInside_of_restInside {dns : Dns} {rrSection p : Int} {text : List UInt8}
    (hscan : dns.scan 100 dns.ptr dns.bufEnd [] = .ends p text)
    (hrest : RestInside dns rrSection p) : RecordInside dns rrSection := by
  refine ⟨p, (scanName_ends dns 100 _ _ [] hscan).1, ?_⟩
  unfold RestInside at hrest
  split
  · rename_i hquestion
    rw [if_pos hquestion] at hrest
    exact hrest
  · rename_i hquestion
    rw [if_neg hquestion] at hrest
    obtain ⟨hend, hA, hname⟩ := hrest
    refine ⟨hend, hA, fun htype => ?_⟩
    obtain ⟨q, _, hscan', -⟩ := hname htype
    exact ⟨q, (scanName_ends dns 100 _ _ [] hscan').1⟩

/-- One call stays inside the message. -/
theorem dnsRrUnpack_step {debugLevel : Int} {dns : Dns} (h : MessageOk dns)
    (hreads : ReadsInside debugLevel dns) :
    CallInside debugLevel dns ∧ MessageOk (dnsRrUnpack dns).1 := by
  cases hsection : dnsRrSection dns with
  | none =>
      -- behind the last record, nothing is read
      have hcall : dnsRrUnpack dns = (dns, DnsRr.zero, 0) := by
        unfold dnsRrUnpack
        rw [hsection]
      refine ⟨⟨?_, ?_, ?_, ?_, ?_⟩, ?_⟩
      · rw [hcall]
        exact ⟨rfl, rfl, rfl⟩
      · rw [hcall]
        exact h.loaded
      · rw [hcall]
        exact (dnsRrDump_inside_iff _).mpr fun hret =>
          absurd hret (show ¬(0 : Int) < 0 by decide)
      · intro _
        rw [hcall]
        exact h.ptr
      · intro rrSection hsome
        rw [hsection] at hsome
        exact absurd hsome (by simp)
      · rw [hcall]
        exact h
  | some rrSection =>
      obtain ⟨hover, hrest, hdump⟩ := hreads rrSection hsection
      cases hscan : dns.scan 100 dns.ptr dns.bufEnd [] with
      | ends p text =>
          have hinside := hrest p text hscan
          obtain ⟨dns', rr, p', hcall, hread, hlo, hhi⟩ :=
            dnsRrUnpack_ends h hsection hscan hinside
          obtain ⟨loaded, rfl⟩ := hread.eq
          refine ⟨⟨?_, ?_, ?_, ?_, ?_⟩, ?_⟩
          · rw [hcall]
            exact ⟨rfl, rfl, rfl⟩
          · rw [hcall]
            exact hread.inside
          · rw [hcall]
            exact (dnsRrDump_inside_iff _).mpr fun hret =>
              absurd hret (show ¬(1 : Int) < 0 by decide)
          · intro _
            rw [hcall]
            exact ⟨hlo, hhi⟩
          · intro rrSection' hsome hcut
            rw [hsection] at hsome
            cases hsome
            exact absurd (recordInside_of_restInside hscan hinside) hcut
          · rw [hcall]
            exact ⟨h.buf, ⟨hlo, hhi⟩, hread.inside⟩
      | refused =>
          -- a name that is refused leaves the pointer where it was
          obtain ⟨dns', i, name, p, hunpack, hread, -, hrefused⟩ :=
            dnsUnpackName_spec h.buf h.loaded h.ptr.1 (Int.le_refl _) hover
          obtain ⟨loaded, rfl⟩ := hread.eq
          obtain rfl := hrefused hscan
          have hcall : ∃ rr, dnsRrUnpack dns = ({ dns with loaded := loaded }, rr, -1) := by
            unfold dnsRrUnpack
            simp only [hsection, hunpack]
            rw [if_pos (by decide)]
            exact ⟨_, rfl⟩
          obtain ⟨rr, hcall⟩ := hcall
          refine ⟨⟨?_, ?_, ?_, ?_, ?_⟩, ?_⟩
          · rw [hcall]
            exact ⟨rfl, rfl, rfl⟩
          · rw [hcall]
            exact hread.inside
          · rw [hcall]
            exact (dnsRrDump_inside_iff _).mpr fun _ => hdump hscan
          · intro hpos
            rw [hcall] at hpos
            exact absurd hpos (show ¬(0 : Int) < -1 by decide)
          · intro _ _ _
            rw [hcall]
            show (-1 : Int) < 0
            decide
          · rw [hcall]
            exact ⟨h.buf, h.ptr, hread.inside⟩
      | overruns => exact absurd hscan hover

/-- `dns_init` and `dns_pack` on a message that has been received. -/
def dnsReceive (mem : Int → UInt8) (buf len : Int) : Dns := (dnsUnpack (dnsInit mem buf len).1).1

/-- A datagram of at least a header's length is a message. -/
theorem dnsReceive_ok (mem : Int → UInt8) {buf len : Int} (hbuf : 0 < buf) (hlen : 12 ≤ len) :
    MessageOk (dnsReceive mem buf len) := by
  have hread : ∃ loaded, (dnsReceive mem buf len).loaded = loaded ∧
      (dnsReceive mem buf len).buf = buf ∧ (dnsReceive mem buf len).bufEnd = buf + len ∧
      (dnsReceive mem buf len).ptr = buf + 12 ∧
      loaded = [(buf, 2), (buf + 2, 2), (buf + 4, 2), (buf + 6, 2), (buf + 8, 2), (buf + 10, 2)] :=
    ⟨_, rfl, rfl, rfl, rfl, rfl⟩
  obtain ⟨_, hloaded, hb, he, hp, rfl⟩ := hread
  refine ⟨by omega, by omega, fun w hw => ?_⟩
  rw [hloaded] at hw
  intro a h1 h2
  rw [hb, he]
  simp only [List.mem_cons, List.not_mem_nil, or_false] at hw
  rcases hw with rfl | rfl | rfl | rfl | rfl | rfl <;> constructor <;> omega

/-- After the calls of `dns_rr_pack` on a message every byte that was read lies in it, and so does
`ptr` when a call succeeds, and a record that is cut off is an error: in every run in which each call
meets the condition, on a message that `dns_pack` can dump when it does. -/
theorem dnsRrUnpack_inside (debugLevel : Int) (mem : Int → UInt8) {buf len : Int} (hbuf : 0 < buf)
    (hlen : 12 ≤ len) (hdump : DumpFits (debugINFO + 2) debugLevel len) (calls : List Unit)
    (hreads : AllSteps (fun dns _ => ReadsInside debugLevel dns) (fun dns _ => (dnsRrUnpack dns).1)
      (dnsReceive mem buf len) calls) :
    (∀ w ∈ (dnsReceive mem buf len).loaded, (dnsReceive mem buf len).HasRange w) ∧
      DumpInside (dnsPackDump debugLevel (dnsReceive mem buf len)) ∧
      AllSteps (fun dns _ => CallInside debugLevel dns) (fun dns _ => (dnsRrUnpack dns).1)
        (dnsReceive mem buf len) calls := by
  have hok := dnsReceive_ok mem hbuf hlen
  exact ⟨hok.loaded, (dnsDump_inside_iff len).mpr hdump,
    allSteps_of_inv (I := MessageOk) (fun _ _ h hp => dnsRrUnpack_step h hp) hok hreads⟩

/-- Memory in which the bytes stand at address 1. -/
def datagram (bs : List UInt8) : Int → UInt8 := fun a => bs.getD (a - 1).toNat 0

/-- A question for the name `a`. -/
def questionDatagram : List UInt8 := [0, 0, 1, 0, 0, 1, 0, 0, 0, 0, 0, 0, 1, 97, 0, 0, 1, 0, 1]

/-- The name `a` at 13 ends at 16, when the message does not end before that. -/
theorem scanName_a {mem : Int → UInt8} (hlabel : mem 13 = 1) (htext : mem 14 = 97)
    (hroot : mem 15 = 0) {e : Int} (h : 16 ≤ e) : scanName mem 1 e 100 13 e [] = .ends 16 [97] := by
  have hread : readAt mem 14 1 = [97] := by rw [readAt_succ, htext]; rfl
  have hcopy : strncpyLen mem 14 1 = 1 := by rw [strncpyLen, hread]; rfl
  have hcopied : strncpyText mem 14 1 = [97] := by rw [strncpyText, hread]; rfl
  rw [scanName, if_neg (by omega)]
  simp only [hlabel, show (13 + 1 : Int) = 14 from rfl, show UInt8.toNat 1 = 1 from rfl, hcopy,
    hcopied]
  rw [if_neg (by decide), if_neg (by decide), if_neg (by decide), if_neg (by omega), scanName,
    if_neg (by omega), show (14 : Int) + (1 : Nat) = 15 from rfl, hroot, if_pos rfl]
  rfl

theorem scanName_question {e : Int} (h : 16 ≤ e) :
    scanName (datagram questionDatagram) 1 e 100 13 e [] = .ends 16 [97] :=
  scanName_a (by decide) (by decide) (by decide) h

/-- A plain question is read inside its datagram. -/
theorem readsInside_question (debugLevel : Int) :
    ReadsInside debugLevel (dnsReceive (datagram questionDatagram) 1 19) := by
  have hscan : (dnsReceive (datagram questionDatagram) 1 19).scan 100
      (dnsReceive (datagram questionDatagram) 1 19).ptr
      (dnsReceive (datagram questionDatagram) 1 19).bufEnd [] = .ends 16 [97] :=
    scanName_question (by decide)
  intro rrSection hsection
  obtain rfl : rrSection = DNS_RR_QUESTION := by
    have hquestion : dnsRrSection (dnsReceive (datagram questionDatagram) 1 19)
        = some DNS_RR_QUESTION := by decide
    rw [hquestion] at hsection
    exact (Option.some.inj hsection).symm
  rw [hscan]
  refine ⟨by simp, fun p text hends => ?_, by simp⟩
  obtain ⟨rfl, -⟩ := NameScan.ends.inj hends
  unfold RestInside
  rw [if_pos rfl]
  decide

/-- The question is read. -/
theorem dnsRrUnpack_inside_question :
    AllSteps (fun dns _ => CallInside debugINFO dns) (fun dns _ => (dnsRrUnpack dns).1)
      (dnsReceive (datagram questionDatagram) 1 19) [()] :=
  (dnsRrUnpack_inside debugINFO (datagram questionDatagram) (by decide) (by decide)
    (Or.inl (by decide)) [()] ⟨readsInside_question debugINFO, trivial⟩).2.2

/-- When its type and class are cut off, they are read from behind the message. -/
theorem dnsRrUnpack_cut :
    ¬∀ (mem : Int → UInt8) (buf len : Int) (calls : List Unit), 0 < buf → 12 ≤ len →
      AllSteps (fun dns _ => CallInside (-1) dns) (fun dns _ => (dnsRrUnpack dns).1)
        (dnsReceive mem buf len) calls := by
  intro hall
  have hcall := (hall (datagram questionDatagram) 1 15 [()] (by decide) (by decide)).1
  have hscan : (dnsReceive (datagram questionDatagram) 1 15).scan 100
      (dnsReceive (datagram questionDatagram) 1 15).ptr
      (dnsReceive (datagram questionDatagram) 1 15).bufEnd [] = .ends 16 [97] :=
    scanName_question (by decide)
  have hok := dnsReceive_ok (datagram questionDatagram) (show (0 : Int) < 1 by decide)
    (show (12 : Int) ≤ 15 by decide)
  obtain ⟨loaded, i, hunpack, hi, -⟩ := hok.unpackName hscan
  have hquestion : dnsRrSection (dnsReceive (datagram questionDatagram) 1 15)
      = some DNS_RR_QUESTION := by decide
  have hload : (16, 2) ∈ (dnsRrUnpack (dnsReceive (datagram questionDatagram) 1 15)).1.loaded := by
    unfold dnsRrUnpack
    simp only [hquestion, hunpack]
    rw [if_neg (by omega)]
    show (16, 2) ∈ (loaded ++ [(16, 2)]) ++ [(16 + 2, 2)]
    simp
  have hrange := hcall.loads (16, 2) hload 16 (by decide) (by decide)
  exact absurd hrange.2 (by decide)

end Bklib
