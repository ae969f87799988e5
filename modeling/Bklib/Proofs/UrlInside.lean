import Bklib.Proofs.UrlParse

/-!
# `Bklib.Proofs.UrlInside`: `url_parse` and the end of its string

`UrlComes s p` says that the grammar comes to the position `p` of the string `s`. As long as it comes to
no escape that is cut off by the end of the string, the loop of `url_parse` ends, without a byte read
behind the terminator and without a byte written outside of its buffer. At such an escape, it reads
behind the terminator: `urlLoop_inside_iff`.
-/

set_option autoImplicit false

namespace Bklib

open Lib

/-- The parser of `s` comes to a position. -/
def UrlComes (s : List UInt8) (p : UrlPos) : Prop := Relation.ReflTransGen UrlStep (urlPosStart s) p

/-! ### Without a cut -/

/-- What is left of the string is its end. -/
theorem UrlStep.suffix {p p' : UrlPos} (h : UrlStep p p') : p'.rest <:+ p.rest := by
  cases h with
  | char           => exact List.suffix_cons _ _
  | escape         => exact ⟨[_, _, _], rfl⟩
  | proto          => exact List.suffix_cons _ _
  | protoHost      => exact ⟨[_, _, _], rfl⟩
  | user           => exact List.suffix_cons _ _
  | hostPort       => exact List.suffix_cons _ _
  | hostPath       => exact List.suffix_refl _
  | port           => exact List.suffix_refl _
  | pathArgs       => exact List.suffix_refl _
  | path           => exact List.suffix_cons _ _

/-- A string without a `%` has no escape that could be cut off. -/
theorem UrlComes.not_cut {s : List UInt8} {p : UrlPos} (h : UrlComes s p) (hs : 37 ∉ s) :
    ¬UrlCut p := by
  have hsuffix : p.rest <:+ s := by
    induction h with
    | refl             => exact List.suffix_refl s
    | tail _ hstep ih => exact hstep.suffix.trans ih
  rintro ⟨-, hrest | ⟨d, hrest, -⟩⟩ <;>
    exact hs (hsuffix.subset (by rw [hrest]; simp))

variable {str more : List UInt8} {n : Nat}

/-- From a position that leads to no cut, the loop ends inside. -/
theorem urlScan_ends (m : Nat) :
    ∀ {p s}, UrlHere str more n p s → (∀ q, Relation.ReflTransGen UrlStep p q → ¬UrlCut q) →
      p.left < m → UrlEnds n (scan (urlRound str) urlStopped m s) := by
  induction m with
  | zero => exact fun _ _ hm => absurd hm (Nat.not_lt_zero _)
  | succ m ih =>
      intro p s h hcut hm
      rw [scan_succ m h.goesOn]
      rcases h.goes_or_ends (hcut p .refl) with ⟨p', hstep⟩ | hends
      · have hleft := hstep.left_lt
        exact ih (h.step hstep) (fun q hq => hcut q (.head hstep hq)) (by omega)
      · rw [scan_of_stopped hends.stop]
        exact hends

/-! ### With a cut -/

/-- The loop gets to every position that the grammar comes to. -/
theorem UrlComes.reaches {s : List UInt8} {p : UrlPos} (h : UrlComes s p) (hnul : 0 ∉ s)
    (more : List UInt8) :
    ∃ t, Reaches (urlRound (s ++ 0 :: more)) urlStopped (urlStart (s ++ 0 :: more)) t ∧
      UrlHere (s ++ 0 :: more) more s.length p t := by
  obtain ⟨k, -, hk⟩ := (urlHere_start hnul more).scan_steps h
  exact ⟨_, ⟨k, rfl⟩, hk⟩

/-- What a buffered character does to position, state and record of reads. -/
theorem urlParseCharBuf_pos (str : List UInt8) (s : UrlParse) :
    (urlParseCharBuf str s).strp = (urlParseChar str s.strp).strp ∧
      (urlParseCharBuf str s).top = max s.top (urlParseChar str s.strp).top := by
  by_cases hfull : urlBufSize - 1 ≤ s.buf.length <;>
    cases herr : (urlParseChar str s.strp).err <;>
    simp only [urlParseCharBuf, UrlParse.read, UrlParse.fail, herr, Bool.false_eq_true, if_true, if_false,
      hfull, and_self]

/-- Every round reads at `strp`, and nothing that was read is forgotten. -/
theorem urlRound_top (str : List UInt8) (s : UrlParse) :
    max s.top s.strp ≤ (urlRound str s).top := by
  by_cases htakes : urlTakes s.state (str.getD s.strp 0) = true
  · -- a character that is buffered
    rw [urlRound_takes htakes, (urlParseCharBuf_pos str (s.read s.strp)).2]
    exact Nat.le_max_left _ _
  · unfold urlRound
    cases hstate : s.state with
    | proto =>
        have hname : ¬urlNameChar (str.getD s.strp 0) = true := by rwa [hstate] at htakes
        simp only [urlParseProto, UrlParse.read, UrlParse.skip, UrlParse.goto, UrlParse.fail, hname,
          Bool.false_eq_true, if_false]
        split_ifs <;> dsimp only <;> omega
    | host =>
        have hname : ¬urlNameChar (str.getD s.strp 0) = true := by rwa [hstate] at htakes
        simp only [urlParseHost, UrlParse.read, UrlParse.skip, UrlParse.goto, UrlParse.fail, hname,
          Bool.false_eq_true, if_false]
        split_ifs <;> dsimp only <;> omega
    | port =>
        have hport : ¬(isdigit (str.getD s.strp 0) || str.getD s.strp 0 == 37) = true := by
          rwa [hstate] at htakes
        by_cases hval : (strtoul (cstr s.buf)).2 = 0 <;>
          simp only [urlParsePort, UrlParse.read, UrlParse.goto, UrlParse.fail, hport, hval,
            Bool.false_eq_true, if_true, if_false] <;>
          split_ifs <;> dsimp only <;> omega
    | pathArgs => exact max_le_max_left _ (Nat.le_add_right _ _)
    | path =>
        -- a path takes all but its two ends
        have hend : str.getD s.strp 0 = 0 ∨ str.getD s.strp 0 = 63 := by
          rw [hstate] at htakes
          simp only [urlTakes, Bool.and_eq_true, bne_iff_ne, ne_eq] at htakes
          tauto
        simp only [urlParsePath, UrlParse.read, UrlParse.skip, UrlParse.goto, if_pos hend]
        split_ifs with h0 h63
        · exact Nat.le_refl _
        · exact Nat.le_refl _
        · exact absurd hend (by tauto)
    | args => exact max_le_max_left _ (Nat.le_add_right _ _)

/-- A position behind the terminator is read, if the loop gets there and has not stopped. -/
theorem urlScan_top {m : Nat} {s t : UrlParse} (hreach : Reaches (urlRound str) urlStopped s t)
    (hstop : urlStopped (scan (urlRound str) urlStopped m s) = true) :
    t.top ≤ (scan (urlRound str) urlStopped m s).top := by
  have hmono (k : Nat) (u : UrlParse) (hu : t.top ≤ u.top) :
      t.top ≤ (scan (urlRound str) urlStopped k u).top :=
    scan_preserves (P := fun u => t.top ≤ u.top)
      (fun v _ hv => Nat.le_trans hv (Nat.le_trans (Nat.le_max_left _ _) (urlRound_top str v))) k hu
  obtain ⟨k, hk⟩ := hreach
  rcases Nat.le_total k m with hkm | hmk
  · obtain ⟨j, rfl⟩ := Nat.exists_eq_add_of_le hkm
    rw [scan_add, hk]
    exact hmono j t (Nat.le_refl _)
  · rw [← scan_of_le hstop hmk, hk]

/-- From a cut, the loop reads behind the terminator. -/
theorem UrlHere.cut_top {p : UrlPos} {s : UrlParse} (h : UrlHere str more n p s) (hcut : UrlCut p) :
    ∃ t, Reaches (urlRound str) urlStopped s t ∧ n < t.top := by
  obtain ⟨rest, st, b, url⟩ := p
  obtain ⟨htakes, hrest⟩ := hcut
  dsimp only at htakes hrest
  have hpos := h.pos
  have hgo := h.goesOn
  rcases hrest with rfl | ⟨d, rfl, hd, hroom⟩
  · -- the second character of the escape is the terminator
    have hround := urlRound_takes (t := str) (by rw [h.state, h.cur]; exact htakes)
    refine ⟨_, (Reaches.refl _).cons hgo, ?_⟩
    have htop : (urlParseChar str s.strp).top = s.strp + 2 := by rw [urlParseChar, if_pos h.cur]
    rw [hround, (urlParseCharBuf_pos str (s.read s.strp)).2]
    refine Nat.lt_of_lt_of_le ?_ (Nat.le_max_right _ _)
    show n < (urlParseChar str s.strp).top
    rw [htop]
    simp only [List.length_singleton] at hpos
    omega
  · -- the third one is, and the next round starts behind it
    have hround := urlRound_takes (t := str) (by rw [h.state, h.cur]; exact htakes)
    have hnum : (strtoul16 (cstr [d])).2 ≠ 0 := fun h0 => by
      rw [strtoul16_digit.mp h0] at hd
      exact Bool.false_ne_true hd
    have hnext : urlStopped (urlRound str s) = false := by
      rw [hround]
      simp only [urlParseCharBuf, UrlParse.read, h.parseChar_cut, beq_eq_false_iff_ne.mpr hnum,
        Bool.and_false, Bool.false_eq_true, if_false, if_neg (h.not_full hroom)]
      exact hgo
    refine ⟨_, ((Reaches.refl _).cons hnext).cons hgo, ?_⟩
    have hstrp : (urlRound str s).strp = s.strp + 3 := by
      rw [hround, (urlParseCharBuf_pos str (s.read s.strp)).1]
      show (urlParseChar str s.strp).strp = s.strp + 3
      rw [h.parseChar_cut]
    have htop := urlRound_top str (urlRound str s)
    simp only [List.length_cons, List.length_nil] at hpos
    omega

/-! ### Every string -/

/-- The loop of `url_parse` ends, reads no byte behind the terminator and writes no byte outside of its
buffer, if and only if the grammar comes to no escape that is cut off. -/
theorem urlLoop_inside_iff {s : List UInt8} (hnul : 0 ∉ s) (more : List UInt8) :
    UrlEnds s.length (urlLoop (s ++ 0 :: more)) ↔ ∀ p, UrlComes s p → ¬UrlCut p := by
  constructor
  · intro hends p hp hcut
    obtain ⟨t, hreach, ht⟩ := hp.reaches hnul more
    obtain ⟨u, hreach', hover⟩ := ht.cut_top hcut
    have htop := urlScan_top (hreach.trans hreach') hends.stop
    have hinside : (urlLoop (s ++ 0 :: more)).top ≤ s.length := hends.top
    rw [urlLoop] at hinside
    omega
  · intro hcut
    have hleft : (urlPosStart s).left < (s ++ 0 :: more).length + 3 := by
      simp only [UrlPos.left, urlPosStart, UrlParseState.rank, List.length_append, List.length_cons]
      omega
    exact urlScan_ends _ (urlHere_start hnul more) hcut hleft

/-- A string without an escape. -/
theorem urlLoop_inside_plain : UrlEnds 14 (urlLoop (bytes "http://a@b:1/c" ++ 0 :: bytes "b")) :=
  (urlLoop_inside_iff (s := bytes "http://a@b:1/c") (by decide) (bytes "b")).mpr
    fun _ hp => hp.not_cut (by decide)

/-- An escape at the end of a host. -/
theorem urlLoop_cut :
    0 ∉ bytes "http://a%4" ∧ (urlLoop (bytes "http://a%4" ++ 0 :: bytes "b")).top = 12 ∧
      ¬UrlEnds 10 (urlLoop (bytes "http://a%4" ++ 0 :: bytes "b")) := by
  have htop : (urlLoop (bytes "http://a%4" ++ 0 :: bytes "b")).top = 12 := by decide +kernel
  refine ⟨by decide, htop, fun h => ?_⟩
  have hle := h.top
  omega

end Bklib
