import Bklib.Proofs.HttpReq
import Bklib.Proofs.HttpText

/-!
# `Bklib.Proofs.HttpStatus`: the status of a reply, read off its text

A reply with status 200 starts with a version and the three digits (`HttpSays200`). The parser takes
the status code by `strtoul`, which takes more than these, and is not told where the word or the header
ends. `httpStatusCode` reads it from the text in the same way without the automaton, and the header
that is accepted has this code (`httpHeaderParse_code`).
-/

set_option autoImplicit false

namespace Bklib

open Bklib.Lib

/-! ## Statement -/

/-- The text of a header from its first word on. -/
def httpFirstWord (buf : List UInt8) : List UInt8 := buf.dropWhile fun c => isGap c || c == 10

/-- The text of a header from its second word on. -/
def httpSecondWord (buf : List UInt8) : List UInt8 :=
  ((httpFirstWord buf).dropWhile (!isBlank ·)).dropWhile isGap

/-- A reply with status 200: its first line has a version and then `200`. -/
structure HttpSays200 (buf : List UInt8) : Prop where
  version : bytes "HTTP/" <+: httpFirstWord buf
  status : (httpSecondWord buf).takeWhile (fun c => !isGap c && c != 10) = bytes "200"

/-- The status code that the parser finds: where the first word is taken for a version, the number
that `strtoul` reads from the second word on. -/
def httpStatusCode (buf : List UInt8) : Int :=
  if (httpStrdup ((httpFirstWord buf).takeWhile (!isBlank ·))).any
      (strncmpEq · (bytes "HTTP/") 5) then
    natToInt32 (strtoul (httpSecondWord buf)).1
  else 0

/-! ## Behind the code -/

/-- Behind the status code, nothing changes it. -/
structure HttpScan.Coded (code : Int) (s : HttpScan) : Prop where
  notInit : s.state ≠ .init
  notOp : s.state ≠ .op
  notCode : s.state ≠ .responseCode
  space : s.state = .space → s.stateNext.follows ∧ s.stateNext ≠ .responseCode
  code : s.http.responseCode = code

/-- Behind the status line a round keeps the code. -/
theorem httpRound_coded (buf : List UInt8) {s : HttpScan} {code : Int} (hs : s.Coded code) :
    (httpRound buf s).Coded code := by
  obtain ⟨l, q, hround⟩ : ∃ l q, httpRound buf s = _ := httpRound_eq_switch rfl
  rw [hround]
  by_cases hfollows : s.state.follows
  · have h : HttpScan.Leads { s with line := l, linePtr := q }
        (httpSwitch buf (isBlank (s.cur buf)) (isNl (s.cur buf))
          { s with line := l, linePtr := q }) := httpSwitch_leads hfollows
    exact ⟨h.init, h.op, fun hcode => hs.notCode (h.code hcode), h.space,
      (h.responseCode hs.notCode).trans hs.code⟩
  · unfold httpSwitch
    cases hst : s.state with
    | init => exact absurd hst hs.notInit
    | op => exact absurd hst hs.notOp
    | space =>
        -- a gap ends in a state that does not look at the code
        have hnext := hs.space hst
        dsimp only [HttpScan.caseSpace]
        split
        · refine ⟨?_, ?_, hnext.2, ?_, hs.code⟩
          all_goals intro h; dsimp only at h; simp [h, HttpState.follows] at hnext
        · exact ⟨by simp, by simp, by simp, fun _ => hnext, hs.code⟩
    | done => exact ⟨by simp, by simp, by simp, by simp, hs.code⟩
    | error => exact ⟨by simp, by simp, by simp, by simp, hs.code⟩
    | _ => exact absurd trivial (by rw [hst] at hfollows; exact hfollows)

section Ends

variable {buf : List UInt8} {s t : HttpScan} {h : HttpHeader} {p w l q : Nat} {next : HttpState}

/-- The code at the end is the one that the scan has now. -/
theorem HttpEnds.coded {code : Int} (hends : HttpEnds buf s t) (hs : s.Coded code) :
    t.http.responseCode = code := by
  obtain ⟨n, hn⟩ := hends.reaches
  rw [← hn, ← httpLoop_eq_scan]
  exact (httpLoop_keeps buf (P := HttpScan.Coded code)
    (fun _ _ _ hs => ⟨hs.notInit, hs.notOp, hs.notCode, hs.space, hs.code⟩)
    (fun _ hs => httpRound_coded buf hs) hs n).code

/-- The word of the code, from its first character on. -/
theorem HttpEnds.codeWord (hends : HttpEnds buf (httpAt h p p .responseCode .responseCode l q) t) :
    t.http.responseCode = natToInt32 (strtoul (buf.drop p)).1 := by
  have hnewline := hends.newline (HttpScan.Sane.of_state (by simp [httpAt]) (by simp [httpAt]))
    (by simp [httpAt])
  obtain ⟨line, rest, htext, hline, -⟩ := splitOn_line hnewline
  rw [show (httpAt h p p .responseCode .responseCode l q).ptr = p from rfl] at htext
  have hsplit := List.takeWhile_append_dropWhile (p := HttpState.responseCode.stays) (l := line)
  obtain ⟨c, r, hcons, hstop, -⟩ := exists_stop (p := HttpState.responseCode.stays) (by decide)
    line rest
  have hword : buf.drop p = line.takeWhile HttpState.responseCode.stays ++ c :: r := by
    rw [htext, ← hcons, ← List.append_assoc, hsplit]
  obtain ⟨l, q, hends⟩ := hends.chain
    (httpRuns_stay rfl rfl hword fun d hd => List.mem_takeWhile_imp hd)
  have hc : c ≠ 13 ∧ (isBlank c = true ∨ isNl c = true) := by
    simpa [HttpState.stays, or_iff_not_imp_left] using hstop
  have hcur := drop_add_length hword
  obtain ⟨⟨n, k⟩, hnumber⟩ : ∃ r, strtoul (buf.drop p) = r := ⟨_, rfl⟩
  rw [hnumber]
  by_cases hk : k = 0
  · -- a code without a digit is an error
    subst hk
    refine (hends.not_error rfl hcur hc.1 fun l q => ?_).elim
    exact ⟨_, httpSwitch_responseCode_error rfl hc.2 hnumber, rfl, Or.inl rfl⟩
  · obtain ⟨l, q, hends⟩ := hends.chain
      (httpRuns_round
        (t := httpAt { h with responseCode := natToInt32 n }
          (p + (line.takeWhile HttpState.responseCode.stays).length) p
          (if isNl c then .header else .space) .responseMessage 0 0)
        rfl hcur hc.1 (fun l q => httpSwitch_responseCode rfl hc.2 hnumber hk) rfl)
    have hlate : ∀ b : Bool, (if b then HttpState.header else .space) ≠ .init ∧
        (if b then HttpState.header else .space) ≠ .op ∧
        (if b then HttpState.header else .space) ≠ .responseCode := by decide
    obtain ⟨hinit, hop, hcode⟩ := hlate (isNl c)
    exact hends.coded ⟨hinit, hop, hcode, fun _ => ⟨trivial, by simp [httpAt]⟩, rfl⟩

/-- A header that ends has the code of its text. -/
theorem HttpEnds.code {http : HttpHeader} (hends : HttpEnds buf (httpStart http) t) :
    t.http.responseCode = httpStatusCode buf := by
  obtain ⟨p, line, rest, l, q, htext, hline, hsplit, hop⟩ := hends.start
  obtain ⟨x, b, v, op, h, l, q, rfl, hx, hblank, hdup, -, hcode, hspace⟩ :=
    hop.firstWord htext hline
  have hb : isNl b = false ∧ b ≠ 13 := not_line_end_of_isBlank hblank
  have hall : ∀ c ∈ x, (!isBlank c) = true := fun c hc => by simpa using hx c hc
  have hfirst : httpFirstWord buf = x ++ b :: (v ++ 10 :: rest) := by
    rw [httpFirstWord, hsplit]
    simp
  have hsecond : httpSecondWord buf = (v ++ 10 :: rest).dropWhile isGap := by
    rw [httpSecondWord, hfirst, List.dropWhile_append_of_pos hall,
      List.dropWhile_cons_of_neg (by simp [hblank]),
      List.dropWhile_cons_of_pos (by simp [isGap, hblank])]
  have hword : (httpFirstWord buf).takeWhile (!isBlank ·) = x := by
    rw [hfirst, List.takeWhile_append_of_pos hall, List.takeWhile_cons_of_neg (by simp [hblank]),
      List.append_nil]
  have hbehind : buf.drop (p + x.length + 1) = v ++ 10 :: rest :=
    drop_add_length (x := [b]) (drop_add_length (by rw [htext]; simp))
  rw [httpStatusCode, hword, hdup, Option.any_some, hsecond]
  cases hres : strncmpEq op (bytes "HTTP/") 5 with
  | false =>
      -- a request has no code
      rw [hres, if_neg (by decide)] at hspace
      rw [if_neg (by decide)]
      exact (hspace.coded ⟨by simp [httpAt], by simp [httpAt], by simp [httpAt],
        fun _ => ⟨trivial, by simp [httpAt]⟩, rfl⟩).trans hcode
  | true =>
      rw [hres, if_pos rfl] at hspace
      rw [if_pos rfl]
      have hgap := List.takeWhile_append_dropWhile (p := isGap) (l := v ++ 10 :: rest)
      obtain ⟨l, q, hends⟩ := hspace.chain (httpRuns_stay rfl rfl (hbehind.trans hgap.symm)
        fun c hc => List.mem_takeWhile_imp hc)
      have hplace := drop_add_length (hbehind.trans hgap.symm)
      -- the newline is no gap, so the word starts somewhere
      cases hdrop : (v ++ 10 :: rest).dropWhile isGap with
      | nil => exact absurd (List.dropWhile_eq_nil_iff.mp hdrop 10 (by simp)) (by decide)
      | cons c r =>
          rw [hdrop] at hplace
          have hline : HttpState.endsLine .responseCode := trivial
          obtain ⟨l, q, hends⟩ := hends.enter (Or.inl hline) hplace (stop_of_dropWhile hdrop)
          rw [hends.codeWord, hplace]

end Ends

/-- The status code of an accepted header is that of its text. -/
theorem httpHeaderParse_code {http h : HttpHeader} {buf : List UInt8} {len : Nat}
    (hparse : httpHeaderParse http buf len = some (h, 1)) : h.responseCode = httpStatusCode buf := by
  obtain ⟨t, hends, hfinish⟩ := httpHeaderParse_ends hparse
  have hstored := (httpFinish_stored hfinish rfl).2.2 (by simp [hends.state])
  rw [hstored.2.2.1]
  exact hends.code

/-! ## Replies -/

/-- The only positive result is 1. -/
theorem httpHeaderParse_pos {http h : HttpHeader} {buf : List UInt8} {len : Nat} {i : Int}
    (hparse : httpHeaderParse http buf len = some (h, i)) (hi : 0 < i) : i = 1 := by
  have hsane : (httpLoop buf len (httpStart http)).Sane :=
    HttpScan.Sane.loop buf (HttpScan.Sane.of_state (by simp [httpStart]) (by simp [httpStart])) len
  rw [httpHeaderParse, httpFinish] at hparse
  split at hparse
  · exact absurd hparse (by simp)
  · split at hparse
    next herror =>
      have hpos := hsane.error herror
      have hcode := congrArg Prod.snd (Option.some.inj hparse)
      dsimp only at hcode
      omega
    · split at hparse
      · have hzero := congrArg Prod.snd (Option.some.inj hparse)
        dsimp only at hzero
        omega
      · simp only [Option.bind_eq_bind, Option.bind_eq_some_iff, Option.some.injEq,
          Prod.mk.injEq] at hparse
        obtain ⟨_, _, _, _, _, hone⟩ := hparse
        exact hone.symm

section Replies

variable {h : HttpHeader} {data buf bs : List UInt8} {rest ps : List (List UInt8)} {len k : Nat}

/-- Behind what was received the memory is as it was. -/
theorem drop_recvBuf (hlen : len ≤ buf.length) (hk : recvLen len bs ≤ k) :
    (recvBuf buf len bs).drop k = buf.drop k := by
  have hfront : (buf.take len ++ bs.take (httpBufSize - len)).length = recvLen len bs := by
    rw [List.length_append, List.length_take, Nat.min_eq_left hlen, recvLen]
  rw [recvBuf, put, pad_of_le hlen, List.drop_append, List.drop_eq_nil_of_le (by omega), hfront,
    List.nil_append, List.drop_drop]
  congr 1
  rw [recvLen] at hk ⊢
  omega

/-- A header that is seen is the one that the parser accepts in all that was received, with the
memory behind it as it was. -/
theorem HttpHeaderSeen.parsed (hseen : HttpHeaderSeen h data rest buf len ps)
    (hlen : len ≤ buf.length) :
    len ≤ data.length ∧
      httpHeaderParse default (data ++ buf.drop data.length) data.length = some (h, 1) := by
  induction hseen with
  | @here buf len bs i _ hverdict hi hdata =>
      have hle := recvLen_le_length buf len bs
      have hsize : data.length = recvLen len bs := by
        rw [hdata, List.length_take, Nat.min_eq_left hle]
      have hmem : data ++ buf.drop data.length = recvBuf buf len bs := by
        rw [hsize, ← drop_recvBuf hlen (Nat.le_refl _), hdata, List.take_append_drop]
      refine ⟨by rw [hsize, recvLen]; omega, ?_⟩
      rw [hmem, hsize]
      obtain rfl := httpHeaderParse_pos hverdict hi
      exact hverdict
  | @more buf len bs ps h' _ _ _ ih =>
      obtain ⟨hdata, hparse⟩ := ih (recvLen_le_length buf len bs)
      rw [drop_recvBuf hlen hdata] at hparse
      exact ⟨Nat.le_trans (Nat.le_add_right _ _) hdata, hparse⟩

/-- The status and the length of a header that is seen are those of its text. -/
theorem HttpHeaderSeen.text (hseen : HttpHeaderSeen h data rest buf 0 ps) :
    h.responseCode = httpStatusCode (data ++ buf.drop data.length) ∧
      h.headerLen = (httpHead (data ++ buf.drop data.length)).length := by
  have hparse := (hseen.parsed (Nat.zero_le _)).2
  exact ⟨httpHeaderParse_code hparse, (httpHeaderParse_text hparse).2⟩

end Replies

end Bklib
