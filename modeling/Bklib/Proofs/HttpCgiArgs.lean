import Bklib.Proofs.HttpCgi

/-!
# `Bklib.Proofs.HttpCgiArgs`: argument lists of `http_cgi_args`

At a delimiter the scan moves on twice, so that the character behind a delimiter is never looked at.
It belongs to the next word, delimiter or not. A delimiter that ends the text is taken for the start of
a word that lies behind the text (`CgiTrails`), and an empty value that does not end the text takes the
next pair for its own.

* `httpCgiArgsLen_over_iff`: when a byte behind the text is read.
* `CgiList.args_iff`: when the list that was encoded is returned.
* `httpCgiArgs_iff`: both, for every text and every length that is given for it.
-/

set_option autoImplicit false

namespace Bklib

open Lib

/-! ### The last delimiter -/

/-- The scan takes the last character for a delimiter, from where it looks at `t`. It does not look at
what is behind a delimiter, and a second `=` in a pair ends it. -/
inductive CgiTrails : Bool → List UInt8 → Prop
  | char {inVal : Bool} {ch : UInt8} {t : List UInt8} :
      ch ≠ 38 ∧ ch ≠ 61 → CgiTrails inVal t → CgiTrails inVal (ch :: t)
  | delim {inVal : Bool} {ch next : UInt8} {t : List UInt8} :
      ch = 38 ∨ ch = 61 ∧ inVal = false → CgiTrails (ch == 61) t → CgiTrails inVal (ch :: next :: t)
  | last {inVal : Bool} {ch : UInt8} : ch = 38 ∨ ch = 61 ∧ inVal = false → CgiTrails inVal [ch]

section Trails

variable {inVal : Bool} {ch next : UInt8} {t : List UInt8}

theorem not_cgiTrails_nil : ¬CgiTrails inVal [] := fun h => nomatch h

/-- A character of a word leaves the question to what follows it. -/
theorem cgiTrails_char_iff (hch : ch ≠ 38 ∧ ch ≠ 61) :
    CgiTrails inVal (ch :: t) ↔ CgiTrails inVal t := by
  refine ⟨fun h => ?_, .char hch⟩
  cases h with
  | char _ h  => exact h
  | delim h _ => exact absurd h (by tauto)
  | last h    => exact absurd h (by tauto)

/-- A delimiter leaves it to what follows, now in the word it starts. -/
theorem cgiTrails_delim_iff (hch : ch = 38 ∨ ch = 61 ∧ inVal = false) :
    CgiTrails inVal (ch :: next :: t) ↔ CgiTrails (ch == 61) t := by
  refine ⟨fun h => ?_, .delim hch⟩
  cases h with
  | char h _  => exact absurd hch (by tauto)
  | delim _ h => exact h

/-- A second `=` in a pair. -/
theorem not_cgiTrails_value (t : List UInt8) : ¬CgiTrails true (61 :: t) := by
  intro h
  cases h with
  | char h _  => exact absurd rfl h.2
  | delim h _ => exact absurd h (by decide)
  | last h    => exact absurd h (by decide)

end Trails

/-- What `http_cgi_args` makes of the state its loop ends in. -/
def httpCgiFinish (mem : List UInt8) (len : Nat) (s : CgiArgs) : CgiOut :=
  if s.src < len then ⟨none, false⟩
  else if s.word < s.src then
    ⟨some (s.first ++ [(s.store (httpCgiWord mem len s)).node]), decide (len < s.src)⟩
  else ⟨some (s.first ++ [s.node]), false⟩

/-- The state before the first round. -/
def cgiStart : CgiArgs := ⟨0, 0, [], ⟨none, none⟩, false, false⟩

theorem httpCgiArgsLen_eq (mem : List UInt8) (len : Nat) :
    httpCgiArgsLen mem len =
      httpCgiFinish mem len (scan (httpCgiRound mem len) (httpCgiStopped len) len cgiStart) := rfl

section Rounds

variable {mem : List UInt8} {len : Nat} {s : CgiArgs}

theorem httpCgiRound_char (h1 : mem.getD s.src 0 ≠ 38) (h2 : mem.getD s.src 0 ≠ 61) :
    httpCgiRound mem len s = { s with src := s.src + 1 } := if_pos ⟨h1, h2⟩

/-- The round at an ampersand stores the node and starts the next. -/
theorem httpCgiRound_amp (h : mem.getD s.src 0 = 38) :
    httpCgiRound mem len s =
      { first := s.first ++ [(s.store (httpCgiWord mem len s)).node], node := ⟨none, none⟩
        inVal := false, src := s.src + 2, word := s.src + 1, error := s.error } := by
  simp only [httpCgiRound, h, ne_eq, not_true_eq_false, false_and, if_false, if_true]
  rfl

/-- The round at the equals sign behind a key gives the node its key. -/
theorem httpCgiRound_eq_key (h : mem.getD s.src 0 = 61) (hkey : s.inVal = false)
    (hval : s.node.val = none) :
    httpCgiRound mem len s =
      { s with
        node := ⟨some (httpCgiWord mem len s), none⟩, inVal := true, src := s.src + 2
        word := s.src + 1 } := by
  simp only [httpCgiRound, h, CgiArgs.store, hkey, hval]
  rfl

theorem httpCgiRound_eq_val (h : mem.getD s.src 0 = 61) (hval : s.inVal = true) :
    httpCgiRound mem len s =
      { s with node := { s.node with val := some (httpCgiWord mem len s) }, error := true } := by
  simp only [httpCgiRound, h, CgiArgs.store, hval]
  rfl

end Rounds

/-- The scan goes on: before an `=` there is no value in a pair, and no `assertb` has failed. -/
structure CgiGoesOn (s : CgiArgs) : Prop where
  key   : s.inVal = false → s.node.val = none
  error : s.error = false

theorem cgiStart_goesOn : CgiGoesOn cgiStart := ⟨fun _ => rfl, rfl⟩

section OverRead

variable {mem : List UInt8} {len : Nat} {s : CgiArgs}

/-- A delimiter that the scan goes on behind. -/
theorem httpCgiRound_delim (h : CgiGoesOn s) {ch : UInt8} (hget : mem.getD s.src 0 = ch)
    (hch : ch = 38 ∨ ch = 61 ∧ s.inVal = false) :
    ∃ first node, httpCgiRound mem len s = ⟨s.src + 2, s.src + 1, first, node, ch == 61, false⟩ ∧
      node.val = none := by
  rcases hch with rfl | ⟨rfl, hkey⟩
  · exact ⟨_, ⟨none, none⟩, (httpCgiRound_amp hget).trans (by rw [h.error]; rfl), rfl⟩
  · exact ⟨_, _, (httpCgiRound_eq_key hget hkey (h.key hkey)).trans (by rw [h.error]; rfl), rfl⟩

theorem httpCgiStopped_eq_false (h : CgiGoesOn s) (hlt : s.src < len) :
    httpCgiStopped len s = false := by simp [httpCgiStopped, h.error, hlt]

theorem httpCgiStopped_of_le (hle : len ≤ s.src) : httpCgiStopped len s = true := by
  simp [httpCgiStopped, hle]

/-- At the end of the text, nothing behind it is read any more. -/
theorem httpCgiFinish_at_end (hend : s.src = len) : (httpCgiFinish mem len s).beyond = false := by
  unfold httpCgiFinish
  split_ifs
  · rfl
  · simp [hend]
  · rfl

/-- Behind the end of the text, the last word is behind it, too. -/
theorem httpCgiFinish_behind (hsrc : s.src = len + 1) (hword : s.word = len) :
    (httpCgiFinish mem len s).beyond = true := by
  rw [httpCgiFinish, if_neg (by omega), if_pos (by omega), hsrc]
  simp

/-- Whether a byte behind the text is read depends on what the scan has still to look at. -/
theorem httpCgiFinish_over_iff (hlen : len ≤ mem.length) (n : Nat) :
    ∀ {s}, CgiGoesOn s → s.src ≤ len → len - s.src ≤ n →
      ((httpCgiFinish mem len (scan (httpCgiRound mem len) (httpCgiStopped len) n s)).beyond = true ↔
        CgiTrails s.inVal ((mem.take len).drop s.src)) := by
  have hsize : (mem.take len).length = len := by rw [List.length_take, Nat.min_eq_left hlen]
  induction n with
  | zero =>
      intro s _ hle hn
      have hend : s.src = len := by omega
      rw [scan_zero, httpCgiFinish_at_end hend, List.drop_of_length_le (by omega)]
      exact iff_of_false Bool.false_ne_true not_cgiTrails_nil
  | succ n ih =>
      intro s h hle hn
      by_cases hend : s.src = len
      · rw [scan_of_stopped (httpCgiStopped_of_le (by omega)), httpCgiFinish_at_end hend,
          List.drop_of_length_le (by omega)]
        exact iff_of_false Bool.false_ne_true not_cgiTrails_nil
      · have hlt : s.src < (mem.take len).length := by omega
        have hgo : httpCgiStopped len s = false := httpCgiStopped_eq_false h (by omega)
        obtain ⟨ch, hch⟩ : ∃ ch, (mem.take len)[s.src] = ch := ⟨_, rfl⟩
        have hget : mem.getD s.src 0 = ch := by
          rw [← hch, List.getElem_take, List.getD_eq_getElem?_getD,
            List.getElem?_eq_getElem (by omega), Option.getD_some]
        rw [scan_succ n hgo, List.drop_eq_getElem_cons hlt, hch]
        by_cases hplain : ch ≠ 38 ∧ ch ≠ 61
        · -- no delimiter
          rw [cgiTrails_char_iff hplain, httpCgiRound_char (hget ▸ hplain.1) (hget ▸ hplain.2)]
          exact ih ⟨h.key, h.error⟩ (show s.src + 1 ≤ len by omega) (show len - (s.src + 1) ≤ n by omega)
        · by_cases hdelim : ch = 38 ∨ ch = 61 ∧ s.inVal = false
          · -- a delimiter, with the next character not looked at
            obtain ⟨first, node, hround, hval⟩ := @httpCgiRound_delim mem len s h ch hget hdelim
            rw [hround]
            by_cases hlast : s.src + 1 = len
            · rw [List.drop_of_length_le (by omega),
                scan_of_stopped (httpCgiStopped_of_le (show len ≤ s.src + 2 by omega)),
                httpCgiFinish_behind (show s.src + 2 = len + 1 by omega) hlast]
              exact iff_of_true rfl (.last hdelim)
            · rw [List.drop_eq_getElem_cons (show s.src + 1 < (mem.take len).length by omega),
                cgiTrails_delim_iff hdelim]
              exact ih ⟨fun _ => hval, rfl⟩ (show s.src + 2 ≤ len by omega)
                (show len - (s.src + 2) ≤ n by omega)
          · -- a second `=` in a pair
            have heq : ch = 61 := by tauto
            have hinVal : s.inVal = true := by
              by_contra hkey
              exact hdelim (Or.inr ⟨heq, Bool.eq_false_iff.mpr hkey⟩)
            have hlt' : s.src < len := by omega
            rw [httpCgiRound_eq_val (hget.trans heq) hinVal,
              scan_of_stopped (by simp [httpCgiStopped]), heq, hinVal]
            refine iff_of_false ?_ (not_cgiTrails_value _)
            rw [httpCgiFinish, if_pos hlt']
            exact Bool.false_ne_true

/-- A byte behind the text is read if and only if the text ends in a delimiter that is looked at. -/
theorem httpCgiArgsLen_over_iff (hlen : len ≤ mem.length) :
    (httpCgiArgsLen mem len).beyond = true ↔ CgiTrails false (mem.take len) := by
  rw [httpCgiArgsLen_eq, httpCgiFinish_over_iff hlen len cgiStart_goesOn (Nat.zero_le _) (Nat.sub_le ..)]
  rfl

end OverRead

/-! ### Encoded lists -/

/-- A key, and a value that may be absent. -/
abbrev CgiPair := List UInt8 × Option (List UInt8)

/-- A pair as `http_cgi_args` returns it. -/
def cgiNode (p : CgiPair) : HttpKeyval := ⟨some p.1, p.2⟩

/-- The digits `a` and `b`, in either case, are written for `ch`. -/
def CgiEsc (a b ch : UInt8) : Prop :=
  isxdigit a = true ∧ isxdigit b = true ∧ ch.toNat = 16 * digitVal a + digitVal b ∧
    httpCgiPlain ch = false

instance (a b ch : UInt8) : Decidable (CgiEsc a b ch) := inferInstanceAs (Decidable (_ ∧ _))

/-- `t` is written for `w`: all but letters, digits, `-` and `_` is escaped. -/
def CgiWord (t w : List UInt8) : Prop := PercentCode 37 (fun ch => httpCgiPlain ch = true) CgiEsc t w

/-- A pair is written with an `=`, or without one if there is no value. -/
inductive CgiPairText : List UInt8 → CgiPair → Prop
  | key {t k : List UInt8} : CgiWord t k → CgiPairText t (k, none)
  | keyVal {t k u v : List UInt8} : CgiWord t k → CgiWord u v → CgiPairText (t ++ 61 :: u) (k, some v)

/-- A list of pairs is written with an `&` between two pairs. -/
inductive CgiList : List UInt8 → List CgiPair → Prop
  | single {t : List UInt8} {p : CgiPair} : CgiPairText t p → CgiList t [p]
  | cons {t rest : List UInt8} {p : CgiPair} {ps : List CgiPair} :
      CgiPairText t p → CgiList rest ps → CgiList (t ++ 38 :: rest) (p :: ps)

theorem httpCgiChar_ne {ch : UInt8} : httpCgiChar ch = true → ch ≠ 38 ∧ ch ≠ 61 ∧ ch ≠ 0 :=
  forall_byte (P := fun ch => httpCgiChar ch = true → ch ≠ 38 ∧ ch ≠ 61 ∧ ch ≠ 0)
    (by decide +kernel) ch

theorem httpCgiPlain_ne {ch : UInt8} : httpCgiPlain ch = true → ch ≠ 37 :=
  forall_byte (P := fun ch => httpCgiPlain ch = true → ch ≠ 37) (by decide +kernel) ch

theorem httpCgiChar_of_isxdigit {ch : UInt8} (h : isxdigit ch = true) : httpCgiChar ch = true := by
  simp [httpCgiChar, httpCgiPlain, (isxdigit_char h).1]

namespace CgiWord

variable {t w : List UInt8}

/-- There is no delimiter in a word. -/
theorem chars (h : CgiWord t w) : ∀ ch ∈ t, httpCgiChar ch = true :=
  PercentCode.forall_mem h (by decide) (fun _ hc => by simp [httpCgiChar, hc])
    (fun _ _ _ hc => ⟨httpCgiChar_of_isxdigit hc.1, httpCgiChar_of_isxdigit hc.2.1⟩)

theorem decode (h : CgiWord t w) : percentDecode 37 httpCgiHexVal t = w := by
  have hesc : ∀ a b ch, CgiEsc a b ch → httpCgiHexVal a b = ch := by
    intro a b ch ⟨ha, hb, hval, _⟩
    rw [httpCgiHexVal_hex ha hb, ← hval, UInt8.ofNat_toNat]
  simpa using PercentCode.decode h (fun _ hc => httpCgiPlain_ne hc) hesc []

theorem ne_nil (h : CgiWord t w) (hw : w ≠ []) : t ≠ [] := fun ht => hw ((PercentCode.eq_nil_iff h).mp ht)

end CgiWord

/-! ### A word of the scan -/

section Words

variable {mem t w : List UInt8} {len : Nat} {s : CgiArgs}

/-- The state with the scan at the end of the word `t`. -/
def CgiArgs.atEnd (s : CgiArgs) (t : List UInt8) : CgiArgs := { s with src := s.word + t.length }

/-- What is decoded there. -/
theorem httpCgiWord_atEnd (h : CgiWord t w) (ht : Span mem s.word t) (hw : w.length < len) :
    httpCgiWord mem len (s.atEnd t) = w := by
  have htake : (mem.drop (s.atEnd t).word).take ((s.atEnd t).src - (s.atEnd t).word) = t := by
    rw [show (s.atEnd t).src - (s.atEnd t).word = t.length from Nat.add_sub_cancel_left ..]
    exact ht.take_drop
  rw [httpCgiWord, htake, httpCgiDec_eq, h.decode]
  simp only [Nat.cast_lt, if_pos hw, Int.toNat_natCast, List.take_left]

/-- The scan gets to the end of a word that it has not looked behind. -/
theorem reaches_atEnd (h : CgiWord t w) (ht : Span mem s.word t) (hle : s.word + t.length ≤ len)
    (herr : s.error = false) (hword : s.word ≤ s.src) (n : Nat) :
    s.src + n = s.word + t.length →
    Reaches (httpCgiRound mem len) (httpCgiStopped len) s (s.atEnd t) := by
  induction n generalizing s with
  | zero =>
      intro hn
      have hend : s.atEnd t = s := by rw [CgiArgs.atEnd, ← hn, Nat.add_zero]
      rw [hend]
      exact Reaches.refl s
  | succ n ih =>
      intro hn
      obtain ⟨i, hi⟩ : ∃ i, s.src = s.word + i := ⟨s.src - s.word, by omega⟩
      have hilt : i < t.length := by omega
      have hget : mem.getD s.src 0 = t[i] := by
        rw [hi, List.getD_eq_getElem?_getD, ht i hilt, List.getElem?_eq_getElem hilt,
          Option.getD_some]
      -- a character of the word is no delimiter
      obtain ⟨h38, h61, -⟩ := httpCgiChar_ne (h.chars _ (List.getElem_mem hilt))
      refine Reaches.cons (by simp [httpCgiStopped, herr]; omega) ?_
      rw [httpCgiRound_char (hget ▸ h38) (hget ▸ h61)]
      have hnext := @ih { s with src := s.src + 1 } ht hle herr (show s.word ≤ s.src + 1 by omega)
        (show s.src + 1 + n = s.word + t.length by omega)
      exact hnext

/-- The scan gets to the delimiter behind a word. -/
theorem reaches_delim (h : CgiWord t w) {rest : List UInt8} {ch : UInt8}
    (ht : Span mem s.word (t ++ ch :: rest)) (hlt : s.word + t.length < len) (herr : s.error = false)
    (hword : s.word ≤ s.src) (hsrc : s.src ≤ s.word + t.length) :
    mem.getD (s.atEnd t).src 0 = ch ∧
      Reaches (httpCgiRound mem len) (httpCgiStopped len) s (httpCgiRound mem len (s.atEnd t)) := by
  refine ⟨?_, ?_⟩
  · show mem.getD (s.word + t.length) 0 = ch
    rw [List.getD_eq_getElem?_getD, ht.append_right.head, Option.getD_some]
  · have hgo : httpCgiStopped len (s.atEnd t) = false := by
      simp only [httpCgiStopped, CgiArgs.atEnd, herr, hlt, decide_true, Bool.not_true, Bool.or_self]
    exact (reaches_atEnd h ht.append_left (Nat.le_of_lt hlt) herr hword (s.word + t.length - s.src)
      (by omega)).trans ((Reaches.refl _).cons hgo)

/-- A word at the end of the text is stored. -/
theorem httpCgiFinish_atEnd (h : CgiWord t w) (ht : Span mem s.word t) (hw : w.length < len)
    (hend : s.word + t.length = len) (hne : t ≠ []) :
    httpCgiFinish mem len (s.atEnd t) = ⟨some (s.first ++ [(s.store w).node]), false⟩ := by
  have hpos := List.length_pos_iff.mpr hne
  have hsrc : (s.atEnd t).src = len := hend
  have hword : (s.atEnd t).word < (s.atEnd t).src := show s.word < s.word + t.length by omega
  rw [httpCgiFinish, if_neg (by omega), if_pos hword, httpCgiWord_atEnd h ht hw, hsrc,
    decide_eq_false (Nat.lt_irrefl len)]
  rfl

end Words

/-! ### A pair of the scan -/

/-- The scan is at the start of a pair, or one character on. -/
structure CgiAtPair (s : CgiArgs) : Prop where
  inVal : s.inVal = false
  node  : s.node = ⟨none, none⟩
  error : s.error = false
  word  : s.word ≤ s.src
  src   : s.src ≤ s.word + 1

/-- The state behind a pair. -/
def CgiArgs.behindPair (s : CgiArgs) (t : List UInt8) (p : CgiPair) : CgiArgs :=
  ⟨s.word + t.length + 2, s.word + t.length + 1, s.first ++ [cgiNode p], ⟨none, none⟩, false, false⟩

/-- The state behind a key and its `=`. -/
def CgiArgs.behindKey (s : CgiArgs) (t k : List UInt8) : CgiArgs :=
  ⟨s.word + t.length + 2, s.word + t.length + 1, s.first, ⟨some k, none⟩, true, false⟩

theorem CgiArgs.behindPair_atPair (s : CgiArgs) (t : List UInt8) (p : CgiPair) :
    CgiAtPair (s.behindPair t p) := ⟨rfl, rfl, rfl, Nat.le_succ _, Nat.le_refl _⟩

section Pairs

variable {mem t k u v rest : List UInt8} {len : Nat} {s : CgiArgs}

theorem CgiAtPair.src_le (hs : CgiAtPair s) (h : CgiWord t k) (hk : k ≠ []) :
    s.src ≤ s.word + t.length := by
  have hpos := List.length_pos_iff.mpr (h.ne_nil hk)
  have hsrc := hs.src
  omega

/-- A key in front of an `=`. -/
theorem reaches_behindKey (hs : CgiAtPair s) (h : CgiWord t k) (hk : k ≠ [])
    (ht : Span mem s.word (t ++ 61 :: rest)) (hlt : s.word + t.length < len) :
    Reaches (httpCgiRound mem len) (httpCgiStopped len) s (s.behindKey t k) := by
  obtain ⟨hget, hreach⟩ := reaches_delim h ht hlt hs.error hs.word (hs.src_le h hk)
  have hlen := PercentCode.length_le h
  have hnode : (s.atEnd t).node.val = none := congrArg HttpKeyval.val hs.node
  rw [httpCgiRound_eq_key hget hs.inVal hnode,
    httpCgiWord_atEnd h ht.append_left (by omega)] at hreach
  have hkey : s.behindKey t k = { s.atEnd t with
      node := ⟨some k, none⟩, inVal := true, src := (s.atEnd t).src + 2
      word := (s.atEnd t).src + 1 } := by
    simp only [CgiArgs.behindKey, CgiArgs.atEnd, hs.error]
  rwa [hkey]

/-- A key in front of an `&`. -/
theorem reaches_behindPair_key (hs : CgiAtPair s) (h : CgiWord t k) (hk : k ≠ [])
    (ht : Span mem s.word (t ++ 38 :: rest)) (hlt : s.word + t.length < len) :
    Reaches (httpCgiRound mem len) (httpCgiStopped len) s (s.behindPair t (k, none)) := by
  obtain ⟨hget, hreach⟩ := reaches_delim h ht hlt hs.error hs.word (hs.src_le h hk)
  have hlen := PercentCode.length_le h
  rw [httpCgiRound_amp hget, httpCgiWord_atEnd h ht.append_left (by omega)] at hreach
  have hnode : ((s.atEnd t).store k).node = cgiNode (k, none) := by
    simp only [CgiArgs.store, CgiArgs.atEnd, hs.inVal, hs.node, Bool.false_eq_true, if_false, cgiNode]
  rw [hnode, show (s.atEnd t).error = false from hs.error] at hreach
  exact hreach

/-- A value in front of an `&`. -/
theorem reaches_behindPair_val (h : CgiWord u v) (hv : v ≠ [])
    (hu : Span mem (s.word + t.length + 1) (u ++ 38 :: rest))
    (hlt : s.word + t.length + 1 + u.length < len) :
    Reaches (httpCgiRound mem len) (httpCgiStopped len) (s.behindKey t k)
      (s.behindPair (t ++ 61 :: u) (k, some v)) := by
  have hpos := List.length_pos_iff.mpr (h.ne_nil hv)
  obtain ⟨hget, hreach⟩ := @reaches_delim mem u v len (s.behindKey t k) h rest 38 hu hlt rfl
    (Nat.le_succ _) (show s.word + t.length + 2 ≤ s.word + t.length + 1 + u.length by omega)
  have hlen := PercentCode.length_le h
  rw [httpCgiRound_amp hget,
    @httpCgiWord_atEnd mem u v len (s.behindKey t k) h hu.append_left (by omega)] at hreach
  have hpair : s.behindPair (t ++ 61 :: u) (k, some v) =
      ⟨s.word + t.length + 1 + u.length + 2, s.word + t.length + 1 + u.length + 1,
        s.first ++ [cgiNode (k, some v)], ⟨none, none⟩, false, false⟩ := by
    simp only [CgiArgs.behindPair, List.length_append, List.length_cons, CgiArgs.mk.injEq, and_true]
    omega
  rw [hpair]
  exact hreach

end Pairs

/-! ### A value that starts with a delimiter -/

/-- The value of pair `i` starts with an `&`, or will. -/
inductive CgiSpoilt (mem : List UInt8) (len i : Nat) (s : CgiArgs) : Prop
  /-- The word that is scanned starts with one. -/
  | word : s.first.length = i → s.inVal = true → s.error = false → 0 < s.word → s.word < s.src →
      s.src ≤ len → mem.getD s.word 0 = 38 → CgiSpoilt mem len i s
  | value (key : Option (List UInt8)) (v : List UInt8) :
      s.first[i]? = some ⟨key, some (38 :: v)⟩ → CgiSpoilt mem len i s
  | error : s.error = true → s.src < len → CgiSpoilt mem len i s

section Spoilt

variable {mem : List UInt8} {len i : Nat} {s : CgiArgs}

/-- A word that starts with an `&` is decoded to one that does. -/
theorem httpCgiWord_amp (hpos : 0 < s.word) (hlt : s.word < s.src) (hle : s.src ≤ len)
    (hget : mem.getD s.word 0 = 38) : ∃ v, httpCgiWord mem len s = 38 :: v := by
  have hin : s.word < mem.length := by
    by_contra hge
    rw [List.getD_eq_getElem?_getD, List.getElem?_eq_none (by omega)] at hget
    exact absurd hget (by decide)
  obtain ⟨n, hn⟩ : ∃ n, s.src - s.word = n + 1 := ⟨s.src - s.word - 1, by omega⟩
  have hamp : mem[s.word] = 38 := by
    rwa [List.getD_eq_getElem?_getD, List.getElem?_eq_getElem hin, Option.getD_some] at hget
  have hroom : ((percentDecode 37 httpCgiHexVal
      (38 :: (mem.drop (s.word + 1)).take n)).length : Int) < len := by
    have hdec := @length_percentDecode_le _ _ 37 httpCgiHexVal (38 :: (mem.drop (s.word + 1)).take n)
    have htake := List.length_take_le n (mem.drop (s.word + 1))
    rw [List.length_cons] at hdec
    omega
  rw [httpCgiWord, List.drop_eq_getElem_cons hin, hn, List.take_succ_cons, hamp, httpCgiDec_eq]
  simp only [if_pos hroom, Int.toNat_natCast, List.take_left]
  exact ⟨_, percentDecode_raw (by decide) _⟩

/-- Once the list is longer than `i`, pair `i` stays as it is. -/
theorem CgiSpoilt.of_first {t : CgiArgs} {key : Option (List UInt8)} {v : List UInt8}
    (h : s.first[i]? = some ⟨key, some (38 :: v)⟩) (hfirst : ∃ more, t.first = s.first ++ more) :
    CgiSpoilt mem len i t := by
  obtain ⟨more, hmore⟩ := hfirst
  refine .value key v ?_
  rw [hmore, List.getElem?_append_left (List.getElem?_eq_some_iff.mp h).1, h]

/-- A round only adds to the list. -/
theorem httpCgiRound_first (mem : List UInt8) (len : Nat) (s : CgiArgs) :
    ∃ more, (httpCgiRound mem len s).first = s.first ++ more := by
  simp only [httpCgiRound]
  split_ifs
  · exact ⟨[], (List.append_nil _).symm⟩
  · exact ⟨_, rfl⟩
  · exact ⟨[], (List.append_nil _).symm⟩
  · exact ⟨[], (List.append_nil _).symm⟩

/-- A round keeps the value spoilt. -/
theorem CgiSpoilt.round (h : CgiSpoilt mem len i s) (hgo : httpCgiStopped len s = false) :
    CgiSpoilt mem len i (httpCgiRound mem len s) := by
  simp only [httpCgiStopped, Bool.or_eq_false_iff, Bool.not_eq_false', decide_eq_true_eq] at hgo
  cases h with
  | value key v hget  => exact .of_first hget (httpCgiRound_first mem len s)
  | error herr        => rw [hgo.1] at herr; exact absurd herr Bool.false_ne_true
  | word hi hval herr hpos hlt hle hamp =>
      by_cases h38 : mem.getD s.src 0 = 38
      · obtain ⟨v, hv⟩ := httpCgiWord_amp hpos hlt hle hamp
        rw [httpCgiRound_amp h38, hv]
        refine .value s.node.key v ?_
        rw [← hi, List.getElem?_concat_length]
        simp only [CgiArgs.store, hval, if_true]
      · by_cases h61 : mem.getD s.src 0 = 61
        · rw [httpCgiRound_eq_val h61 hval]
          exact .error rfl hgo.2
        · rw [httpCgiRound_char h38 h61]
          exact .word hi hval herr hpos (Nat.lt_succ_of_lt hlt) (Nat.succ_le_of_lt hgo.2) hamp

/-- A list with a spoilt value is none that an empty value is in at that place. -/
theorem CgiSpoilt.finish_ne (h : CgiSpoilt mem len i s) (hstop : httpCgiStopped len s = true)
    {args : List HttpKeyval} {key : Option (List UInt8)} (hargs : args[i]? = some ⟨key, some []⟩) :
    httpCgiFinish mem len s ≠ ⟨some args, false⟩ := by
  unfold httpCgiFinish
  cases h with
  | error _ hlt =>
      rw [if_pos hlt]
      simp
  | value key' v hget =>
      -- whatever the last pair is, pair `i` is in front of it
      have hne (node : HttpKeyval) (beyond : Bool) :
          (⟨some (s.first ++ [node]), beyond⟩ : CgiOut) ≠ ⟨some args, false⟩ := by
        intro heq
        obtain rfl : s.first ++ [node] = args := Option.some.inj (congrArg CgiOut.args heq)
        rw [List.getElem?_append_left (List.getElem?_eq_some_iff.mp hget).1, hget] at hargs
        simp at hargs
      split_ifs
      · simp
      · exact hne _ _
      · exact hne _ _
  | word hi hval herr hpos hlt hle hamp =>
      have hend : ¬s.src < len := by simpa [httpCgiStopped, herr] using hstop
      obtain ⟨v, hv⟩ := httpCgiWord_amp hpos hlt hle hamp
      rw [if_neg hend, if_pos hlt, hv]
      intro heq
      obtain rfl := Option.some.inj (congrArg CgiOut.args heq)
      rw [← hi, List.getElem?_concat_length] at hargs
      simp [CgiArgs.store, hval] at hargs

/-- The loop ends in any state. -/
theorem httpCgiArgs_stops (mem : List UInt8) (len : Nat) (s : CgiArgs) :
    httpCgiStopped len (scan (httpCgiRound mem len) (httpCgiStopped len) len s) = true := by
  refine scan_stops (fun s : CgiArgs => if s.error then 0 else len - s.src) (fun s hgo => ?_) (n := len) ?_
  · simp only [httpCgiStopped, Bool.or_eq_false_iff, Bool.not_eq_false', decide_eq_true_eq] at hgo
    obtain ⟨herr, hlt⟩ := hgo
    simp only [httpCgiRound, CgiArgs.store]
    split_ifs <;> simp_all <;> omega
  · split <;> omega

end Spoilt

/-! ### The whole list -/

variable {mem : List UInt8} {len : Nat}

/-- The loop ends in a state from which `P` is made. -/
def CgiEnds (mem : List UInt8) (len : Nat) (s : CgiArgs) (P : CgiOut → Prop) : Prop :=
  ∃ e, Reaches (httpCgiRound mem len) (httpCgiStopped len) s e ∧ httpCgiStopped len e = true ∧
    P (httpCgiFinish mem len e)

theorem CgiEnds.of_reaches {s s' : CgiArgs} {P : CgiOut → Prop} (h : CgiEnds mem len s' P)
    (hreach : Reaches (httpCgiRound mem len) (httpCgiStopped len) s s') : CgiEnds mem len s P := by
  obtain ⟨e, he, hstop, hP⟩ := h
  exact ⟨e, hreach.trans he, hstop, hP⟩

/-- An empty value in front of an `&` spoils the list. -/
theorem cgiEnds_spoilt {s : CgiArgs} {t k rest : List UInt8} {args : List HttpKeyval}
    (hamp : Span mem (s.word + t.length + 1) (38 :: rest))
    (hlt : s.word + t.length + 1 < len)
    (hargs : args[s.first.length]? = some ⟨some k, some []⟩) :
    CgiEnds mem len (s.behindKey t k) (· ≠ ⟨some args, false⟩) := by
  have hstart : CgiSpoilt mem len s.first.length (s.behindKey t k) := by
    refine .word rfl rfl rfl (Nat.succ_pos _) (Nat.lt_succ_self _) hlt ?_
    show mem.getD (s.word + t.length + 1) 0 = 38
    rw [List.getD_eq_getElem?_getD, hamp.head, Option.getD_some]
  have hstop := httpCgiArgs_stops mem len (s.behindKey t k)
  exact ⟨_, ⟨len, rfl⟩, hstop,
    (scan_preserves (fun _ hgo h => h.round hgo) len hstart).finish_ne hstop hargs⟩

/-- An empty value at the end of the text is read from behind it. -/
theorem cgiEnds_over {s : CgiArgs} {t k : List UInt8} {args : List HttpKeyval}
    (hend : s.word + t.length + 1 = len) :
    CgiEnds mem len (s.behindKey t k) (· ≠ ⟨some args, false⟩) := by
  have hover : (httpCgiFinish mem len (s.behindKey t k)).beyond = true :=
    httpCgiFinish_behind (show s.word + t.length + 2 = len + 1 by omega) hend
  refine ⟨_, Reaches.refl _, httpCgiStopped_of_le (show len ≤ s.word + t.length + 2 by omega), ?_⟩
  intro heq
  rw [heq] at hover
  exact Bool.false_ne_true hover

/-- From the start of a list to the end: what was encoded is returned if and only if no value is
empty. -/
theorem CgiList.ends {t : List UInt8} {ps : List CgiPair} (h : CgiList t ps) :
    ∀ {s}, CgiAtPair s → Span mem s.word t → s.word + t.length = len → (∀ p ∈ ps, p.1 ≠ []) →
      (∀ k, ps = [(k, none)] → k.length < len) →
      CgiEnds mem len s fun r =>
        (r = ⟨some (s.first ++ ps.map cgiNode), false⟩ ↔ ∀ p ∈ ps, p.2 ≠ some []) := by
  induction h with
  | @single t p hp =>
      intro s hs ht hend hkeys hroom
      cases hp with
      | @key t k hk =>
          have hne := hkeys (k, none) (by simp)
          refine ⟨_, reaches_atEnd hk ht (Nat.le_of_eq hend) hs.error hs.word
            (s.word + t.length - s.src) (by have := hs.src_le hk hne; omega),
            httpCgiStopped_of_le (Nat.le_of_eq hend.symm), ?_⟩
          rw [httpCgiFinish_atEnd hk ht (hroom k rfl) hend (hk.ne_nil hne)]
          refine iff_of_true ?_ (by simp)
          simp [CgiArgs.store, hs.inVal, hs.node, cgiNode]
      | @keyVal t k u v hk hv =>
          have hne := hkeys (k, some v) (by simp)
          rw [List.length_append, List.length_cons] at hend
          have hu : Span mem (s.word + t.length + 1) u := ht.append_right.tail
          refine CgiEnds.of_reaches ?_ (reaches_behindKey hs hk hne ht (by omega))
          by_cases hnil : v = []
          · -- nothing is left of the text
            subst hnil
            have hu0 := (PercentCode.eq_nil_iff hv).mpr rfl
            subst hu0
            obtain ⟨e, hreach, hstop, hbad⟩ := @cgiEnds_over mem len s t k
              (s.first ++ [(k, some ([] : List UInt8))].map cgiNode) (by simpa [Nat.add_assoc] using hend)
            exact ⟨e, hreach, hstop, iff_of_false hbad (by simp)⟩
          · have hlen := PercentCode.length_le hv
            have hpos := List.length_pos_iff.mpr (hv.ne_nil hnil)
            have hsrc : (s.behindKey t k).src = s.word + t.length + 2 := rfl
            have hword : (s.behindKey t k).word = s.word + t.length + 1 := rfl
            have hreach := @reaches_atEnd mem u v len (s.behindKey t k) hv hu (by omega) rfl
              (Nat.le_succ _) (u.length - 1) (by omega)
            refine ⟨_, hreach, httpCgiStopped_of_le (show len ≤ s.word + t.length + 1 + u.length by omega),
              ?_⟩
            rw [httpCgiFinish_atEnd hv hu (by omega) (by omega) (hv.ne_nil hnil)]
            exact iff_of_true rfl (by simpa using hnil)
  | @cons t rest p ps hp hps ih =>
      intro s hs ht hend hkeys _
      have hkeys' : ∀ q ∈ ps, q.1 ≠ [] := fun q hq => hkeys q (List.mem_cons_of_mem _ hq)
      rw [List.length_append, List.length_cons] at hend
      -- behind this pair the rest of the list is scanned
      have htail (hval : p.2 ≠ some []) :
          CgiEnds mem len (s.behindPair t p) fun r =>
            (r = ⟨some (s.first ++ (p :: ps).map cgiNode), false⟩ ↔
              ∀ q ∈ p :: ps, q.2 ≠ some []) := by
        have hshort (k : List UInt8) (hps' : ps = [(k, none)]) : k.length < len := by
          subst hps'
          cases hps with
          | single hp =>
              cases hp with
              | key hk =>
                  have := PercentCode.length_le hk
                  omega
          | cons _ h => cases h
        obtain ⟨e, hreach, hstop, hiff⟩ := ih (s.behindPair_atPair t p) ht.append_right.tail
          (show s.word + t.length + 1 + rest.length = len by omega) hkeys' hshort
        refine ⟨e, hreach, hstop, ?_⟩
        have hfirst : (s.behindPair t p).first ++ ps.map cgiNode =
            s.first ++ (p :: ps).map cgiNode := by simp [CgiArgs.behindPair]
        rw [hfirst] at hiff
        exact hiff.trans (by simp [hval])
      cases hp with
      | @key t k hk =>
          have hne := hkeys (k, none) (by simp)
          exact (htail (by simp)).of_reaches (reaches_behindPair_key hs hk hne ht (by omega))
      | @keyVal t k u v hk hv =>
          have hne := hkeys (k, some v) (by simp)
          rw [List.length_append, List.length_cons] at hend
          rw [List.append_assoc, List.cons_append] at ht
          have hu : Span mem (s.word + t.length + 1) (u ++ 38 :: rest) := ht.append_right.tail
          refine CgiEnds.of_reaches ?_ (reaches_behindKey hs hk hne ht (by omega))
          by_cases hnil : v = []
          · subst hnil
            have hu0 := (PercentCode.eq_nil_iff hv).mpr rfl
            subst hu0
            obtain ⟨e, hreach, hstop, hbad⟩ := @cgiEnds_spoilt mem len s t k rest
              (s.first ++ ((k, some ([] : List UInt8)) :: ps).map cgiNode) hu
              (by simp only [List.length_nil] at hend; omega) (by simp [cgiNode])
            exact ⟨e, hreach, hstop, iff_of_false hbad (by simp)⟩
          · exact (htail (by simpa using hnil)).of_reaches
              (reaches_behindPair_val hv hnil hu (by omega))

/-- A list of one pair without a value, none of whose characters is escaped. Its key fills the buffer
that it is decoded into, and nothing is copied. -/
def CgiFull (t : List UInt8) (ps : List CgiPair) : Prop := ps = [(t, none)]

/-- The list that was encoded is returned if and only if no value is empty and the buffer is not
filled. -/
theorem CgiList.args_iff {t : List UInt8} {ps : List CgiPair} (h : CgiList t ps)
    (hkeys : ∀ p ∈ ps, p.1 ≠ []) (more : List UInt8) :
    httpCgiArgsLen (t ++ more) t.length = ⟨some (ps.map cgiNode), false⟩ ↔
      (∀ p ∈ ps, p.2 ≠ some []) ∧ ¬CgiFull t ps := by
  have hspan : Span (t ++ more) 0 t := Span.of_drop more rfl
  have hstart : CgiAtPair cgiStart := ⟨rfl, rfl, rfl, Nat.le_refl _, Nat.zero_le _⟩
  have hstop := httpCgiArgs_stops (t ++ more) t.length cgiStart
  by_cases hfull : CgiFull t ps
  · -- the one key is as long as the text
    obtain rfl : ps = [(t, none)] := hfull
    refine iff_of_false ?_ (fun h => h.2 rfl)
    have hk : CgiWord t t := by
      cases h with
      | single hp =>
          cases hp with
          | key hk => exact hk
      | cons _ h => cases h
    have hne := hkeys (t, none) (by simp)
    have hpos := List.length_pos_iff.mpr hne
    have hreach := reaches_atEnd hk hspan (Nat.le_of_eq (Nat.zero_add _)) hstart.error hstart.word
      t.length (Nat.zero_add t.length ▸ rfl)
    rw [httpCgiArgsLen_eq, hreach.scan_eq
      (httpCgiStopped_of_le (show t.length ≤ 0 + t.length by omega)) hstop]
    have hsrc : (cgiStart.atEnd t).src = t.length := Nat.zero_add _
    have hword : (cgiStart.atEnd t).word = 0 := rfl
    have hempty : httpCgiWord (t ++ more) t.length (cgiStart.atEnd t) = [] := by
      have htake : ((t ++ more).drop 0).take t.length = t := List.take_left
      simp only [httpCgiWord, hsrc, hword, Nat.sub_zero, htake, httpCgiDec_eq,
        hk.decode, Int.lt_irrefl, if_false, Int.toNat_zero, List.take_zero]
    rw [httpCgiFinish, if_neg (by omega), if_pos (by rw [hword, hsrc]; exact hpos), hempty]
    intro heq
    have hkey : some ([] : List UInt8) = some t := by
      simpa [CgiArgs.atEnd, CgiArgs.store, cgiStart, cgiNode] using heq
    exact hne (Option.some.inj hkey).symm
  · have hroom : ∀ k, ps = [(k, none)] → k.length < t.length := by
      rintro k rfl
      cases h with
      | cons _ h => cases h
      | single hp =>
          cases hp with
          | key hk =>
              refine Nat.lt_of_le_of_ne (PercentCode.length_le hk) fun hlen => hfull ?_
              rw [CgiFull, PercentCode.eq_of_length hk hlen]
    obtain ⟨e, hreach, hend, hiff⟩ := h.ends hstart hspan (Nat.zero_add _) hkeys hroom
    rw [httpCgiArgsLen_eq, hreach.scan_eq hend hstop]
    exact hiff.trans (and_iff_left hfull).symm

/-- A list whose keys are not empty has a text that is not. -/
theorem CgiList.ne_nil {t : List UInt8} {ps : List CgiPair} (h : CgiList t ps)
    (hkeys : ∀ p ∈ ps, p.1 ≠ []) : t ≠ [] := by
  cases h with
  | cons _ _  => simp
  | single hp =>
      cases hp with
      | key hk      => exact hk.ne_nil (hkeys _ (List.mem_singleton_self _))
      | keyVal _ _  => simp

/-- No character of an encoded list is a NUL. -/
theorem CgiList.nul {t : List UInt8} {ps : List CgiPair} (h : CgiList t ps) : 0 ∉ t := by
  have hword {t w : List UInt8} (h : CgiWord t w) : 0 ∉ t :=
    fun h0 => absurd rfl (httpCgiChar_ne (h.chars 0 h0)).2.2
  have hpair {t : List UInt8} {p : CgiPair} (h : CgiPairText t p) : 0 ∉ t := by
    cases h with
    | key hk       => exact hword hk
    | keyVal hk hv => simp [hword hk, hword hv]
  induction h with
  | single hp       => exact hpair hp
  | cons hp _ ih    => simp [hpair hp, ih]

/-- The call is given the text: by its length, or by a NUL behind it. -/
def CgiGiven (t more : List UInt8) (srcLen : Int) : Prop :=
  srcLen = t.length ∨ srcLen ≤ 0 ∧ more.head? = some 0

/-- The length of a text given with its length, or with a terminator. -/
theorem httpCgiLen_of_given {t more : List UInt8} {srcLen : Int} (hne : t ≠ []) (hnul : 0 ∉ t)
    (hint : t.length < 2 ^ 31) (h : CgiGiven t more srcLen) :
    httpCgiLen (t ++ more) srcLen = t.length := by
  have hpos := List.length_pos_iff.mpr hne
  unfold httpCgiLen
  rcases h with rfl | ⟨hle, hmore⟩
  · exact if_neg (by omega)
  · obtain ⟨r, rfl⟩ : ∃ r, more = 0 :: r := by
      cases more with
      | nil      => exact absurd hmore (by simp)
      | cons c r => exact ⟨r, by rw [Option.some.inj hmore]⟩
    rw [if_pos hle, ← List.singleton_append, cstr_append_nul hnul, natToInt32_eq_self hint]

/-- The length is inside the memory where the one given is. -/
theorem httpCgiLen_le {mem : List UInt8} {srcLen : Int} (h : srcLen ≤ mem.length) :
    httpCgiLen mem srcLen ≤ mem.length := by
  unfold httpCgiLen
  split
  · have hstr : (cstr mem).length ≤ mem.length := (List.takeWhile_sublist _).length_le
    have hint := toInt32_le (Int.natCast_nonneg (cstr mem).length)
    rw [natToInt32_eq]
    omega
  · exact h

/-- For every encoded list, `http_cgi_args` returns the list and stays inside of the text if and only
if no value is empty and the text is not one bare key. For every text at all, it stays inside if and
only if the length fits an `int` and the text does not end in a delimiter that is looked at. -/
theorem httpCgiArgs_iff (mem : List UInt8) (srcLen : Int) :
    (∀ (t more : List UInt8) (ps : List CgiPair), mem = t ++ more → CgiList t ps →
      (∀ p ∈ ps, p.1 ≠ []) → t.length < 2 ^ 31 → CgiGiven t more srcLen →
      (httpCgiArgs mem srcLen = ⟨some (ps.map cgiNode), false⟩ ↔
        (∀ p ∈ ps, p.2 ≠ some []) ∧ ¬CgiFull t ps)) ∧
    (srcLen ≤ mem.length →
      ((httpCgiArgs mem srcLen).beyond = false ↔
        0 ≤ httpCgiLen mem srcLen ∧ ¬CgiTrails false (mem.take (httpCgiLen mem srcLen).toNat))) := by
  constructor
  · rintro t more ps rfl h hkeys hint hgiven
    have hlen := httpCgiLen_of_given (h.ne_nil hkeys) h.nul hint hgiven
    have hpos : ¬(t.length : Int) < 0 := by omega
    simp only [httpCgiArgs, hlen, if_neg hpos, Int.toNat_natCast]
    exact h.args_iff hkeys more
  · intro hmem
    by_cases hneg : httpCgiLen mem srcLen < 0
    · -- without memory for the buffer, the word that is decoded is at a null pointer
      simp only [httpCgiArgs, if_pos hneg]
      exact iff_of_false (by simp) (fun h => by omega)
    · have hle := httpCgiLen_le hmem
      have hiff := httpCgiArgsLen_over_iff (show (httpCgiLen mem srcLen).toNat ≤ mem.length by omega)
      simp only [httpCgiArgs, if_neg hneg]
      rw [← Bool.not_eq_true, hiff, and_iff_right (by omega)]

/-- A pair with an escaped value and a key without a value come back, and nothing behind is read. -/
theorem httpCgiArgs_pairs :
    httpCgiArgs (bytes "a=%26&b" ++ [0]) 0 =
      ⟨some [⟨some (bytes "a"), some (bytes "&")⟩, ⟨some (bytes "b"), none⟩], false⟩ ∧
    (httpCgiArgs (bytes "&&a=b") 5).beyond = false := by
  have hchar {ch : UInt8} (h : httpCgiPlain ch = true) : CgiWord [ch] [ch] := .raw h .nil
  have hamp : CgiWord [37, 50, 54] [38] := .escape (show CgiEsc 50 54 38 by decide) .nil
  have hlist : CgiList (bytes "a=%26&b") [(bytes "a", some (bytes "&")), (bytes "b", none)] :=
    .cons (.keyVal (hchar (by decide)) hamp) (.single (.key (hchar (by decide))))
  constructor
  · have hiff := (httpCgiArgs_iff (bytes "a=%26&b" ++ [0]) 0).1 _ [0] _ rfl hlist (by decide)
      (by decide) (Or.inr (by decide))
    exact hiff.mpr ⟨by decide, by simp [CgiFull]⟩
  · refine ((httpCgiArgs_iff (bytes "&&a=b") 5).2 (by decide)).mpr ⟨by decide, fun h => ?_⟩
    have htext : (bytes "&&a=b").take (httpCgiLen (bytes "&&a=b") 5).toNat =
        [38, 38, 97, 61, 98] := by decide
    rw [htext, cgiTrails_delim_iff (Or.inl rfl), cgiTrails_char_iff (by decide),
      cgiTrails_delim_iff (Or.inr ⟨rfl, show ((38 : UInt8) == 61) = false from rfl⟩)] at h
    exact not_cgiTrails_nil h

/-- One bare key comes back as an empty one, and behind a last `&` a byte is read that is not in the
text. -/
theorem httpCgiArgs_key :
    CgiList (bytes "ab") [(bytes "ab", none)] ∧
    httpCgiArgs (bytes "ab" ++ [0]) 2 = ⟨some [⟨some [], none⟩], false⟩ ∧
    (httpCgiArgs (bytes "a=b&" ++ [0]) 4).beyond = true :=
  ⟨.single (.key (.raw (by decide) (.raw (by decide) .nil))), by decide, by decide⟩

end Bklib
