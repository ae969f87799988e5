import Mathlib.Logic.Relation
import Bklib.Model.Url
import Bklib.Proofs.HttpCgi

/-!
# `Bklib.Proofs.UrlParse`: the loop of `url_parse` as a grammar

`UrlPos` is where a parser stands that knows the string only as far as it goes: what is left of it, the
state, the buffered characters, and the components that are known. `UrlStep` says how it goes on. The
loop of `url_parse` makes these steps (`UrlHere.step`), and where there is none it stops, as long as no
escape is cut off by the end of the string (`UrlHere.goes_or_stops`).
-/

set_option autoImplicit false

namespace Bklib

open Lib

/-! ### Positions and steps -/

/-- Where the parser stands. -/
structure UrlPos where
  rest  : List UInt8
  state : UrlParseState
  buf   : List UInt8
  url   : UrlT

/-- The characters that are buffered in a state. -/
def urlTakes : UrlParseState → UInt8 → Bool
  | .proto,    ch => urlNameChar ch
  | .host,     ch => urlNameChar ch
  | .port,     ch => isdigit ch || ch == 37
  | .path,     ch => ch != 0 && ch != 63
  | .pathArgs, _  => false
  | .args,     _  => false

/-- How the parser goes on. -/
inductive UrlStep : UrlPos → UrlPos → Prop
  | char {st : UrlParseState} {ch : UInt8} {r b : List UInt8} {url : UrlT} :
      urlTakes st ch = true → ch ≠ 37 → b.length < urlBufSize - 1 →
      UrlStep ⟨ch :: r, st, b, url⟩ ⟨r, st, b ++ [ch], url⟩
  | escape {st : UrlParseState} {a c : UInt8} {r b : List UInt8} {url : UrlT} :
      urlTakes st 37 = true → (strtoul16 [a, c]).2 ≠ 0 → b.length < urlBufSize - 1 →
      UrlStep ⟨37 :: a :: c :: r, st, b, url⟩ ⟨r, st, b ++ [httpCgiHexVal a c], url⟩
  /-- A protocol without a host. -/
  | proto {r b : List UInt8} {url : UrlT} :
      r.take 2 ≠ [47, 47] →
      UrlStep ⟨58 :: r, .proto, b, url⟩ ⟨r, .pathArgs, [], { url with proto := some (cstr b) }⟩
  /-- A protocol in front of a host. -/
  | protoHost {r b : List UInt8} {url : UrlT} :
      UrlStep ⟨58 :: 47 :: 47 :: r, .proto, b, url⟩ ⟨r, .host, [], { url with proto := some (cstr b) }⟩
  | user {r b : List UInt8} {url : UrlT} :
      UrlStep ⟨64 :: r, .host, b, url⟩ ⟨r, .host, [], { url with user := some (cstr b) }⟩
  | hostPort {r b : List UInt8} {url : UrlT} :
      UrlStep ⟨58 :: r, .host, b, url⟩ ⟨r, .port, [], { url with host := some (cstr b) }⟩
  | hostPath {r b : List UInt8} {url : UrlT} :
      UrlStep ⟨47 :: r, .host, b, url⟩ ⟨47 :: r, .pathArgs, [], { url with host := some (cstr b) }⟩
  | port {r b : List UInt8} {url : UrlT} :
      (strtoul (cstr b)).2 ≠ 0 →
      UrlStep ⟨47 :: r, .port, b, url⟩
        ⟨47 :: r, .pathArgs, [], { url with port := natToInt32 (strtoul (cstr b)).1 }⟩
  | pathArgs {r b : List UInt8} {url : UrlT} :
      UrlStep ⟨r, .pathArgs, b, url⟩ ⟨r, .path, [], { url with pathArgs := some r }⟩
  | path {r b : List UInt8} {url : UrlT} :
      UrlStep ⟨63 :: r, .path, b, url⟩ ⟨r, .args, [], { url with path := some (cstr b) }⟩

/-- The loop is at a position: it goes on there, and has read and written inside so far. `n` is where
the terminator of `str` is, and `more` what is behind it. -/
structure UrlHere (str more : List UInt8) (n : Nat) (p : UrlPos) (s : UrlParse) : Prop where
  text  : str.drop s.strp = p.rest ++ 0 :: more
  nul   : 0 ∉ p.rest
  pos   : s.strp + p.rest.length = n
  state : s.state = p.state
  buf   : s.buf = p.buf
  url   : s.url = p.url
  done  : s.done = false
  ok    : p.url.errCode = .ok
  top   : s.top ≤ n
  wrote : s.wrote ≤ urlBufSize

namespace UrlHere

variable {str more r b : List UInt8} {n : Nat} {st : UrlParseState} {url : UrlT} {s : UrlParse}
  {ch : UInt8} {p : UrlPos}

theorem goesOn (h : UrlHere str more n p s) : urlStopped s = false := by
  simp [urlStopped, h.done, h.url, h.ok]

/-- What stands at an index from `strp` on. -/
theorem get (h : UrlHere str more n p s) (i : Nat) :
    str.getD (s.strp + i) 0 = (p.rest ++ 0 :: more).getD i 0 := by
  rw [List.getD_eq_getElem?_getD, ← List.getElem?_drop, h.text, ← List.getD_eq_getElem?_getD]

theorem cur (h : UrlHere str more n ⟨ch :: r, st, b, url⟩ s) : str.getD s.strp 0 = ch := h.get 0

theorem cur_nil (h : UrlHere str more n ⟨[], st, b, url⟩ s) : str.getD s.strp 0 = 0 := h.get 0

theorem cstr_rest (h : UrlHere str more n p s) : cstr (str.drop s.strp) = p.rest := by
  rw [h.text]
  exact cstr_append_nul h.nul more

theorem drop_add {t : List UInt8} (h : UrlHere str more n ⟨t ++ r, st, b, url⟩ s) :
    str.drop (s.strp + t.length) = r ++ 0 :: more := by
  rw [← List.drop_drop, h.text, List.append_assoc, List.drop_left]

end UrlHere

/-! ### A character -/

theorem urlNameChar_ne {ch : UInt8} :
    urlNameChar ch = true → ch ≠ 0 ∧ ch ≠ 47 ∧ ch ≠ 58 ∧ ch ≠ 64 :=
  forall_byte (P := fun ch => urlNameChar ch = true → ch ≠ 0 ∧ ch ≠ 47 ∧ ch ≠ 58 ∧ ch ≠ 64)
    (by decide +kernel) ch

theorem urlPortChar_ne {ch : UInt8} : (isdigit ch || ch == 37) = true → ch ≠ 0 ∧ ch ≠ 47 :=
  forall_byte (P := fun ch => (isdigit ch || ch == 37) = true → ch ≠ 0 ∧ ch ≠ 47)
    (by decide +kernel) ch

/-- A character that a state buffers. -/
theorem urlRound_takes {t : List UInt8} {s : UrlParse}
    (h : urlTakes s.state (t.getD s.strp 0) = true) :
    urlRound t s = urlParseCharBuf t (s.read s.strp) := by
  unfold urlRound
  cases hst : s.state with
  | proto =>
      rw [hst] at h
      obtain ⟨h0, -, h58, -⟩ := urlNameChar_ne h
      simp only [urlParseProto, h0, h58, or_self, if_false]
      exact if_pos h
  | host =>
      rw [hst] at h
      obtain ⟨h0, h47, h58, h64⟩ := urlNameChar_ne h
      simp only [urlParseHost, h0, h47, h58, h64, or_self, if_false]
      exact if_pos h
  | port =>
      rw [hst] at h
      obtain ⟨h0, h47⟩ := urlPortChar_ne h
      simp only [urlParsePort, h0, h47, or_self, if_false]
      exact if_pos h
  | path =>
      rw [hst] at h
      obtain ⟨h0, h63⟩ : t.getD s.strp 0 ≠ 0 ∧ t.getD s.strp 0 ≠ 63 := by
        simpa [urlTakes] using h
      simp only [urlParsePath, h0, h63, or_self, if_false]
  | pathArgs => rw [hst] at h; exact absurd h Bool.false_ne_true
  | args     => rw [hst] at h; exact absurd h Bool.false_ne_true

namespace UrlHere

variable {str more r b : List UInt8} {n : Nat} {st : UrlParseState} {url : UrlT} {s : UrlParse}
  {ch a c : UInt8} {p : UrlPos}

/-- The character `x` is buffered for the text `t`. -/
theorem put {t : List UInt8} (h : UrlHere str more n ⟨t ++ r, st, b, url⟩ s) (x : UInt8) {i : Nat}
    (hi : i < t.length) (hroom : b.length < urlBufSize - 1) :
    UrlHere str more n ⟨r, st, b ++ [x], url⟩
      { s with
        strp := s.strp + t.length, buf := s.buf ++ [x]
        top := max (max s.top s.strp) (s.strp + i), wrote := max s.wrote (s.buf.length + 2) } := by
  have hpos := h.pos
  have hbuf := h.buf
  have hwrote : s.buf.length + 2 ≤ urlBufSize := by
    rw [hbuf]
    simp only [urlBufSize] at hroom ⊢
    omega
  simp only [List.length_append] at hpos
  exact {
    text  := h.drop_add
    nul   := fun h0 => h.nul (List.mem_append_right t h0)
    pos   := show s.strp + t.length + r.length = n by omega
    state := h.state
    buf   := congrArg (· ++ [x]) hbuf
    url   := h.url
    done  := h.done
    ok    := h.ok
    top   := Nat.max_le.mpr ⟨Nat.max_le.mpr ⟨h.top, by omega⟩, by omega⟩
    wrote := Nat.max_le.mpr ⟨h.wrote, hwrote⟩ }

theorem not_full (h : UrlHere str more n p s) (hroom : p.buf.length < urlBufSize - 1) :
    ¬urlBufSize - 1 ≤ s.buf.length := by
  rw [h.buf]
  exact Nat.not_le.mpr hroom

/-- A character that stands for itself. -/
theorem char (h : UrlHere str more n ⟨ch :: r, st, b, url⟩ s) (htakes : urlTakes st ch = true)
    (hch : ch ≠ 37) (hroom : b.length < urlBufSize - 1) :
    UrlHere str more n ⟨r, st, b ++ [ch], url⟩ (urlRound str s) := by
  have hcur := h.cur
  rw [urlRound_takes (by rw [h.state, hcur]; exact htakes), urlParseCharBuf, urlParseChar]
  simp only [UrlParse.read, hcur, if_neg hch, Bool.false_eq_true, if_false, if_neg (h.not_full hroom)]
  exact h.put (t := [ch]) ch Nat.zero_lt_one hroom

/-- The two characters of an escape are a C string. -/
theorem cstr_pair (h : UrlHere str more n ⟨ch :: a :: c :: r, st, b, url⟩ s) :
    cstr [a, c] = [a, c] := by
  have hnul := h.nul
  refine cstr_eq_self fun h0 => hnul ?_
  simp only [List.mem_cons, List.not_mem_nil, or_false] at h0 ⊢
  tauto

/-- What `url_parse_char` reads for an escape. -/
theorem parseChar (h : UrlHere str more n ⟨37 :: a :: c :: r, st, b, url⟩ s) :
    urlParseChar str s.strp =
      ⟨s.strp + 3, httpCgiHexVal a c, httpCgiHexVal a c == 0 && (strtoul16 [a, c]).2 == 0,
        s.strp + 2⟩ := by
  have ha : str.getD (s.strp + 1) 0 = a := h.get 1
  have hc : str.getD (s.strp + 2) 0 = c := h.get 2
  rw [urlParseChar, if_pos h.cur, ha, hc, httpCgiHexVal, h.cstr_pair]

/-- An escape. -/
theorem escape (h : UrlHere str more n ⟨37 :: a :: c :: r, st, b, url⟩ s)
    (htakes : urlTakes st 37 = true) (hval : (strtoul16 [a, c]).2 ≠ 0)
    (hroom : b.length < urlBufSize - 1) :
    UrlHere str more n ⟨r, st, b ++ [httpCgiHexVal a c], url⟩ (urlRound str s) := by
  rw [urlRound_takes (by rw [h.state, h.cur]; exact htakes), urlParseCharBuf]
  simp only [UrlParse.read, h.parseChar, beq_eq_false_iff_ne.mpr hval, Bool.and_false,
    Bool.false_eq_true, if_false, if_neg (h.not_full hroom)]
  exact h.put (t := [37, a, c]) (httpCgiHexVal a c) (Nat.lt_succ_self 2) hroom

/-! ### A delimiter -/

/-- The text `t` is taken, and another state is gone to. -/
theorem goto {t : List UInt8} (h : UrlHere str more n ⟨t ++ r, st, b, url⟩ s) (st' : UrlParseState)
    (url' : UrlT) {top wrote : Nat} (htop : top ≤ n) (hwrote : wrote ≤ urlBufSize)
    (hok : url'.errCode = .ok) :
    UrlHere str more n ⟨r, st', [], url'⟩
      { s with
        state := st', strp := s.strp + t.length, buf := [], url := url', top := top
        wrote := wrote } := by
  have hpos := h.pos
  simp only [List.length_append] at hpos
  exact {
    text  := h.drop_add
    nul   := fun h0 => h.nul (List.mem_append_right t h0)
    pos   := show s.strp + t.length + r.length = n by omega
    state := rfl
    buf   := rfl
    url   := rfl
    done  := h.done
    ok    := hok
    top   := htop
    wrote := hwrote }

/-- Reading on up to an index inside. -/
theorem top_le (h : UrlHere str more n p s) {i : Nat} (hi : i ≤ p.rest.length) :
    max s.top (s.strp + i) ≤ n := by
  have hpos := h.pos
  exact Nat.max_le.mpr ⟨h.top, by omega⟩

theorem wrote_le (h : UrlHere str more n p s) : max s.wrote 1 ≤ urlBufSize :=
  Nat.max_le.mpr ⟨h.wrote, by decide⟩

/-- Whether two slashes stand behind the colon. -/
theorem slashes (h : UrlHere str more n ⟨58 :: r, st, b, url⟩ s) :
    strncmpEq (cstr (str.drop (s.strp + 1))) (bytes "//") 2 = decide (r.take 2 = [47, 47]) := by
  have hnext : cstr (str.drop (s.strp + 1)) = r := by
    rw [show str.drop (s.strp + 1) = _ from h.drop_add (t := [58])]
    exact cstr_append_nul (fun h0 => h.nul (List.mem_cons_of_mem _ h0)) more
  rw [hnext]
  rfl

/-- How far the look at `//` reads. -/
theorem proto_top (h : UrlHere str more n ⟨58 :: r, st, b, url⟩ s) :
    max (max s.top s.strp) (if str.getD (s.strp + 1) 0 = 47 then s.strp + 1 + 1 else s.strp + 1) ≤
      n := by
  have hpos := h.pos
  simp only [List.length_cons] at hpos
  refine Nat.max_le.mpr ⟨h.top_le (Nat.zero_le _), ?_⟩
  split
  next hslash =>
    -- a slash is no terminator
    cases r with
    | nil      => exact absurd ((show (0 : UInt8) = _ from (h.get 1).symm).trans hslash) (by decide)
    | cons _ _ => rw [List.length_cons] at hpos; omega
  next => omega

/-- A colon without `//` ends the protocol, and a path follows. -/
theorem round_proto (h : UrlHere str more n ⟨58 :: r, .proto, b, url⟩ s) (hr : r.take 2 ≠ [47, 47]) :
    UrlHere str more n ⟨r, .pathArgs, [], { url with proto := some (cstr b) }⟩ (urlRound str s) := by
  have hstate : s.state = .proto := h.state
  have hbuf : s.buf = b := h.buf
  have hurl : s.url = url := h.url
  have hslash := h.slashes
  rw [decide_eq_false hr] at hslash
  have h58 : ¬(58 : UInt8) = 0 := by decide
  simp only [urlRound, hstate, urlParseProto, UrlParse.read, h.cur, UrlParse.skip, UrlParse.goto, hbuf,
    hurl, or_true, if_true, h58, hslash, Bool.false_eq_true, if_false]
  exact h.goto (t := [58]) .pathArgs _ h.proto_top h.wrote_le h.ok

/-- A colon with `//` ends the protocol, and the host follows. -/
theorem round_protoHost (h : UrlHere str more n ⟨58 :: 47 :: 47 :: r, .proto, b, url⟩ s) :
    UrlHere str more n ⟨r, .host, [], { url with proto := some (cstr b) }⟩ (urlRound str s) := by
  have hstate : s.state = .proto := h.state
  have hbuf : s.buf = b := h.buf
  have hurl : s.url = url := h.url
  have hslash := h.slashes
  rw [decide_eq_true (by rfl)] at hslash
  have h58 : ¬(58 : UInt8) = 0 := by decide
  simp only [urlRound, hstate, urlParseProto, UrlParse.read, h.cur, UrlParse.skip, UrlParse.goto, hbuf,
    hurl, or_true, if_true, h58, hslash, if_false]
  exact h.goto (t := [58, 47, 47]) .host _ h.proto_top (Nat.max_le.mpr ⟨h.wrote_le, by decide⟩) h.ok

/-- An `@` makes a user of what was read for a host. -/
theorem round_user (h : UrlHere str more n ⟨64 :: r, .host, b, url⟩ s) :
    UrlHere str more n ⟨r, .host, [], { url with user := some (cstr b) }⟩ (urlRound str s) := by
  have hstate : s.state = .host := h.state
  have hbuf : s.buf = b := h.buf
  have hurl : s.url = url := h.url
  have h0 : ¬(64 : UInt8) = 0 := by decide
  simp only [urlRound, hstate, urlParseHost, UrlParse.read, h.cur, UrlParse.skip, UrlParse.goto, hbuf,
    hurl, h0, if_true, if_false]
  exact h.goto (t := [64]) .host _ (h.top_le (Nat.zero_le _)) h.wrote_le h.ok

/-- A colon ends the host, and the port follows. -/
theorem round_hostPort (h : UrlHere str more n ⟨58 :: r, .host, b, url⟩ s) :
    UrlHere str more n ⟨r, .port, [], { url with host := some (cstr b) }⟩ (urlRound str s) := by
  have hstate : s.state = .host := h.state
  have hbuf : s.buf = b := h.buf
  have hurl : s.url = url := h.url
  have h0 : ¬(58 : UInt8) = 0 := by decide
  have h64 : ¬(58 : UInt8) = 64 := by decide
  have h47 : ¬(58 : UInt8) = 47 := by decide
  simp only [urlRound, hstate, urlParseHost, UrlParse.read, h.cur, UrlParse.skip, UrlParse.goto, hbuf,
    hurl, h0, h64, h47, or_true, true_or, if_true, if_false]
  exact h.goto (t := [58]) .port _ (h.top_le (Nat.zero_le _)) h.wrote_le h.ok

/-- A slash ends the host, and is the first character of the path. -/
theorem round_hostPath (h : UrlHere str more n ⟨47 :: r, .host, b, url⟩ s) :
    UrlHere str more n ⟨47 :: r, .pathArgs, [], { url with host := some (cstr b) }⟩
      (urlRound str s) := by
  have hstate : s.state = .host := h.state
  have hbuf : s.buf = b := h.buf
  have hurl : s.url = url := h.url
  have h0 : ¬(47 : UInt8) = 0 := by decide
  have h64 : ¬(47 : UInt8) = 64 := by decide
  simp only [urlRound, hstate, urlParseHost, UrlParse.read, h.cur, UrlParse.goto, hbuf, hurl, h0, h64,
    or_true, if_true, if_false]
  exact h.goto (t := []) .pathArgs _ (h.top_le (Nat.zero_le _)) h.wrote_le h.ok

/-- A slash ends the port, which has to be a number. -/
theorem round_port (h : UrlHere str more n ⟨47 :: r, .port, b, url⟩ s)
    (hval : (strtoul (cstr b)).2 ≠ 0) :
    UrlHere str more n
      ⟨47 :: r, .pathArgs, [], { url with port := natToInt32 (strtoul (cstr b)).1 }⟩
      (urlRound str s) := by
  have hstate : s.state = .port := h.state
  have hbuf : s.buf = b := h.buf
  have hurl : s.url = url := h.url
  have h0 : ¬(47 : UInt8) = 0 := by decide
  simp only [urlRound, hstate, urlParsePort, UrlParse.read, h.cur, UrlParse.goto, hbuf, hurl, h0, hval,
    or_true, if_true, if_false]
  exact h.goto (t := []) .pathArgs _ (h.top_le (Nat.zero_le _)) h.wrote_le h.ok

/-- The round for the path and its arguments keeps the whole rest, and goes on with the path. -/
theorem round_pathArgs (h : UrlHere str more n ⟨r, .pathArgs, b, url⟩ s) :
    UrlHere str more n ⟨r, .path, [], { url with pathArgs := some r }⟩ (urlRound str s) := by
  have hstate : s.state = .pathArgs := h.state
  have hurl : s.url = url := h.url
  have hrest : cstr (str.drop s.strp) = r := h.cstr_rest
  simp only [urlRound, hstate, urlParsePathArgs, UrlParse.read, UrlParse.goto, hurl, hrest]
  exact h.goto (t := []) .path _ (h.top_le (Nat.le_refl _)) h.wrote_le h.ok

/-- A question mark ends the path. -/
theorem round_path (h : UrlHere str more n ⟨63 :: r, .path, b, url⟩ s) :
    UrlHere str more n ⟨r, .args, [], { url with path := some (cstr b) }⟩ (urlRound str s) := by
  have hstate : s.state = .path := h.state
  have hbuf : s.buf = b := h.buf
  have hurl : s.url = url := h.url
  have h0 : ¬(63 : UInt8) = 0 := by decide
  simp only [urlRound, hstate, urlParsePath, UrlParse.read, h.cur, UrlParse.skip, UrlParse.goto, hbuf,
    hurl, h0, or_true, if_true, if_false]
  exact h.goto (t := [63]) .args _ (h.top_le (Nat.zero_le _)) h.wrote_le h.ok

/-- The loop makes the steps. -/
theorem step {p' : UrlPos} (h : UrlHere str more n p s) (hstep : UrlStep p p') :
    UrlHere str more n p' (urlRound str s) := by
  cases hstep with
  | char htakes hch hroom    => exact h.char htakes hch hroom
  | escape htakes hval hroom => exact h.escape htakes hval hroom
  | proto hr                 => exact h.round_proto hr
  | protoHost                => exact h.round_protoHost
  | user                     => exact h.round_user
  | hostPort                 => exact h.round_hostPort
  | hostPath                 => exact h.round_hostPath
  | port hval                => exact h.round_port hval
  | pathArgs                 => exact h.round_pathArgs
  | path                     => exact h.round_path

end UrlHere

/-! ### The end of the loop -/

/-- The loop has ended, and has read and written inside. -/
structure UrlEnds (n : Nat) (s : UrlParse) : Prop where
  stop  : urlStopped s = true
  top   : s.top ≤ n
  wrote : s.wrote ≤ urlBufSize

/-- An escape is cut off by the end of the string: after the `%`, or after a digit that there is room
for. -/
def UrlCut (p : UrlPos) : Prop :=
  urlTakes p.state 37 = true ∧
    (p.rest = [37] ∨ ∃ d, p.rest = [37, d] ∧ isxdigit d = true ∧ p.buf.length < urlBufSize - 1)

/-- One character is a number if and only if it is a digit. -/
theorem strtoul16_digit {d : UInt8} : (strtoul16 (cstr [d])).2 = 0 ↔ isxdigit d = false :=
  forall_byte (P := fun d => (strtoul16 (cstr [d])).2 = 0 ↔ isxdigit d = false) (by decide +kernel) d

/-- Without a number, the value is 0. -/
theorem strtoul16_none {t : List UInt8} (h : (strtoul16 t).2 = 0) : (strtoul16 t).1 = 0 := by
  simp only [strtoul16] at h ⊢
  generalize List.takeWhile isxdigit _ = ds at h ⊢
  by_cases hds : ds = []
  · rw [if_pos hds]
  · have hpos := List.length_pos_iff.mpr hds
    rw [if_neg hds] at h
    dsimp only at h
    omega

namespace UrlHere

variable {str more r b : List UInt8} {n : Nat} {st : UrlParseState} {url : UrlT} {s : UrlParse}
  {ch a c : UInt8} {p : UrlPos}

/-- A character that cannot be read, or one without room for it. -/
theorem charBuf_ends (h : UrlHere str more n p s)
    (hbad : (urlParseChar str s.strp).err = true ∨ ¬p.buf.length < urlBufSize - 1)
    (htop : (urlParseChar str s.strp).top ≤ n) :
    UrlEnds n (urlParseCharBuf str (s.read s.strp)) := by
  have hwrote := h.wrote
  have htop' : max (max s.top s.strp) (urlParseChar str s.strp).top ≤ n :=
    Nat.max_le.mpr ⟨h.top_le (Nat.zero_le _), htop⟩
  unfold urlParseCharBuf
  by_cases hroom : p.buf.length < urlBufSize - 1
  · -- there is room, so it is the character that is wrong
    have herr : (urlParseChar str s.strp).err = true := hbad.resolve_right (not_not.mpr hroom)
    have hlen : s.buf.length + 2 ≤ urlBufSize := by
      rw [h.buf]
      simp only [urlBufSize] at hroom ⊢
      omega
    simp only [UrlParse.read, herr, if_true, UrlParse.fail, if_neg (h.not_full hroom)]
    exact ⟨by simp [urlStopped], htop', Nat.max_le.mpr ⟨hwrote, hlen⟩⟩
  · -- without room, the overflow takes the place of any other error
    have hfull : urlBufSize - 1 ≤ s.buf.length := by
      rw [h.buf]
      exact Nat.not_lt.mp hroom
    cases herr : (urlParseChar str s.strp).err with
    | true =>
        simp only [UrlParse.read, UrlParse.fail, herr, if_true, if_pos hfull]
        exact ⟨by simp [urlStopped], htop', hwrote⟩
    | false =>
        simp only [UrlParse.read, UrlParse.fail, herr, Bool.false_eq_true, if_false, if_pos hfull]
        exact ⟨by simp [urlStopped], htop', hwrote⟩

/-- What is read for an escape of which only the first digit is there. -/
theorem parseChar_cut {d : UInt8} (h : UrlHere str more n ⟨[37, d], st, b, url⟩ s) :
    urlParseChar str s.strp =
      ⟨s.strp + 3, UInt8.ofNat ((strtoul16 (cstr [d])).1 % 256),
        UInt8.ofNat ((strtoul16 (cstr [d])).1 % 256) == 0 && (strtoul16 (cstr [d])).2 == 0,
        s.strp + 2⟩ := by
  have hd : str.getD (s.strp + 1) 0 = d := h.get 1
  have h0 : str.getD (s.strp + 2) 0 = 0 := h.get 2
  have hcstr : cstr [d, 0] = cstr [d] := by
    unfold cstr
    simp only [List.takeWhile_cons, List.takeWhile_nil]
    rfl
  rw [urlParseChar, if_pos h.cur, hd, h0, hcstr]

/-- A character that the state buffers: the parser goes on, or the loop ends. -/
theorem goes_or_ends_takes (h : UrlHere str more n ⟨ch :: r, st, b, url⟩ s)
    (htakes : urlTakes st ch = true) (hcut : ¬UrlCut ⟨ch :: r, st, b, url⟩) :
    (∃ p', UrlStep ⟨ch :: r, st, b, url⟩ p') ∨ UrlEnds n (urlRound str s) := by
  have hround := urlRound_takes (t := str) (by rw [h.state, h.cur]; exact htakes)
  have hpos := h.pos
  rw [hround]
  by_cases hch : ch = 37
  · subst hch
    match r, h, hcut with
    | [], _, hcut => exact absurd ⟨htakes, Or.inl rfl⟩ hcut
    | [d], h, hcut =>
        refine Or.inr (h.charBuf_ends ?_ ?_)
        · rw [h.parseChar_cut]
          by_cases hd : isxdigit d = true
          · exact Or.inr fun hroom => hcut ⟨htakes, Or.inr ⟨d, rfl, hd, hroom⟩⟩
          · have hnone := strtoul16_digit.mpr (Bool.eq_false_iff.mpr hd)
            simp [hnone, strtoul16_none hnone]
        · rw [h.parseChar_cut]
          simp only [List.length_cons, List.length_nil] at hpos
          exact Nat.le_of_eq hpos
    | a :: c :: r, h, _ =>
        have htop : (urlParseChar str s.strp).top ≤ n := by
          rw [h.parseChar]
          simp only [List.length_cons] at hpos
          show s.strp + 2 ≤ n
          omega
        by_cases hval : (strtoul16 [a, c]).2 = 0
        · -- two characters that are no number
          refine Or.inr (h.charBuf_ends (Or.inl ?_) htop)
          have hcstr : cstr [a, c] = [a, c] := h.cstr_pair
          rw [h.parseChar, httpCgiHexVal, hcstr, strtoul16_none hval, hval]
          rfl
        · by_cases hroom : b.length < urlBufSize - 1
          · exact Or.inl ⟨_, .escape htakes hval hroom⟩
          · exact Or.inr (h.charBuf_ends (Or.inr hroom) htop)
  · by_cases hroom : b.length < urlBufSize - 1
    · exact Or.inl ⟨_, .char htakes hch hroom⟩
    · refine Or.inr (h.charBuf_ends (Or.inr hroom) ?_)
      rw [urlParseChar, if_neg (by rw [h.cur]; exact hch)]
      exact Nat.le_trans (Nat.le_add_right _ _) (Nat.le_of_eq hpos)

/-! ### Each state -/

/-- The end of the string, in any state. -/
theorem nil_ends (h : UrlHere str more n ⟨[], st, b, url⟩ s) (hst : st ≠ .pathArgs) :
    UrlEnds n (urlRound str s) := by
  have htop := h.top_le (Nat.zero_le _)
  cases st with
  | pathArgs => exact absurd rfl hst
  | proto =>
      have hstate : s.state = .proto := h.state
      simp only [urlRound, hstate, urlParseProto, h.cur_nil, UrlParse.read, true_or, if_true]
      exact ⟨rfl, htop, h.wrote⟩
  | host =>
      have hstate : s.state = .host := h.state
      simp only [urlRound, hstate, urlParseHost, h.cur_nil, UrlParse.read, true_or, if_true]
      exact ⟨rfl, htop, h.wrote⟩
  | port =>
      have hstate : s.state = .port := h.state
      simp only [urlRound, hstate, urlParsePort, h.cur_nil, UrlParse.read, true_or, if_true]
      exact ⟨rfl, by split <;> exact htop, by split <;> exact h.wrote⟩
  | path =>
      have hstate : s.state = .path := h.state
      simp only [urlRound, hstate, urlParsePath, h.cur_nil, UrlParse.read, true_or, if_true]
      exact ⟨rfl, htop, h.wrote⟩
  | args =>
      have hstate : s.state = .args := h.state
      have hrest : cstr (str.drop s.strp) = [] := h.cstr_rest
      simp only [urlRound, hstate, urlParseArgs, hrest, UrlParse.read]
      exact ⟨rfl, htop, h.wrote⟩

theorem args_ends (h : UrlHere str more n ⟨r, .args, b, url⟩ s) : UrlEnds n (urlRound str s) := by
  have hstate : s.state = .args := h.state
  have hrest : cstr (str.drop s.strp) = r := h.cstr_rest
  simp only [urlRound, hstate, urlParseArgs, hrest, UrlParse.read]
  exact ⟨rfl, h.top_le (Nat.le_refl _), h.wrote⟩

/-- A character that a protocol does not take is a step of the grammar or an error. -/
theorem goes_or_ends_proto (h : UrlHere str more n ⟨ch :: r, .proto, b, url⟩ s) (h0 : ch ≠ 0)
    (htakes : ¬urlTakes .proto ch = true) :
    (∃ p', UrlStep ⟨ch :: r, .proto, b, url⟩ p') ∨ UrlEnds n (urlRound str s) := by
  by_cases h58 : ch = 58
  · subst h58
    by_cases hr : r.take 2 = [47, 47]
    · match r, hr with
      | [], hr                => exact absurd hr (by simp)
      | [_], hr               => exact absurd hr (by simp)
      | c :: d :: r, hr =>
          obtain ⟨rfl, rfl⟩ : c = 47 ∧ d = 47 := by simpa using hr
          exact Or.inl ⟨_, .protoHost⟩
    · exact Or.inl ⟨_, .proto hr⟩
  · refine Or.inr ?_
    have hstate : s.state = .proto := h.state
    have hname : ¬urlNameChar ch = true := htakes
    simp only [urlRound, hstate, urlParseProto, UrlParse.read, h.cur, h0, h58, hname, or_self, if_false]
    exact ⟨by simp [urlStopped, UrlParse.fail], h.top_le (Nat.zero_le _), h.wrote⟩

/-- The same for a host. -/
theorem goes_or_ends_host (h : UrlHere str more n ⟨ch :: r, .host, b, url⟩ s) (h0 : ch ≠ 0)
    (htakes : ¬urlTakes .host ch = true) :
    (∃ p', UrlStep ⟨ch :: r, .host, b, url⟩ p') ∨ UrlEnds n (urlRound str s) := by
  by_cases h64 : ch = 64
  · subst h64
    exact Or.inl ⟨_, .user⟩
  by_cases h58 : ch = 58
  · subst h58
    exact Or.inl ⟨_, .hostPort⟩
  by_cases h47 : ch = 47
  · subst h47
    exact Or.inl ⟨_, .hostPath⟩
  refine Or.inr ?_
  have hstate : s.state = .host := h.state
  have hname : ¬urlNameChar ch = true := htakes
  simp only [urlRound, hstate, urlParseHost, UrlParse.read, h.cur, h0, h64, h58, h47, hname, or_self,
    if_false]
  exact ⟨by simp [urlStopped, UrlParse.fail], h.top_le (Nat.zero_le _), h.wrote⟩

/-- The same for a port. -/
theorem goes_or_ends_port (h : UrlHere str more n ⟨ch :: r, .port, b, url⟩ s) (h0 : ch ≠ 0)
    (htakes : ¬urlTakes .port ch = true) :
    (∃ p', UrlStep ⟨ch :: r, .port, b, url⟩ p') ∨ UrlEnds n (urlRound str s) := by
  have hstate : s.state = .port := h.state
  have hbuf : s.buf = b := h.buf
  have htop := h.top_le (Nat.zero_le _)
  by_cases h47 : ch = 47
  · subst h47
    by_cases hval : (strtoul (cstr b)).2 = 0
    · -- the error is kept when the state changes
      refine Or.inr ?_
      simp only [urlRound, hstate, urlParsePort, UrlParse.read, h.cur, UrlParse.goto, UrlParse.fail, hbuf,
        hval, h0, or_true, if_true, if_false]
      exact ⟨by simp [urlStopped], htop, h.wrote_le⟩
    · exact Or.inl ⟨_, .port hval⟩
  · refine Or.inr ?_
    have hport : ¬(isdigit ch || ch == 37) = true := htakes
    simp only [urlRound, hstate, urlParsePort, UrlParse.read, h.cur, h0, h47, hport, or_self, if_false]
    exact ⟨by simp [urlStopped, UrlParse.fail], htop, h.wrote⟩

/-- The parser goes on, or the loop ends, as long as no escape is cut off. -/
theorem goes_or_ends (h : UrlHere str more n p s) (hcut : ¬UrlCut p) :
    (∃ p', UrlStep p p') ∨ UrlEnds n (urlRound str s) := by
  obtain ⟨rest, st, b, url⟩ := p
  cases rest with
  | nil =>
      by_cases hst : st = .pathArgs
      · subst hst
        exact Or.inl ⟨_, .pathArgs⟩
      · exact Or.inr (h.nil_ends hst)
  | cons ch r =>
      by_cases htakes : urlTakes st ch = true
      · exact h.goes_or_ends_takes htakes hcut
      · -- a character that is not buffered leads to another state or is an error
        have h0 : ch ≠ 0 := fun h0 => h.nul (by simp [h0])
        cases st with
        | proto    => exact h.goes_or_ends_proto h0 htakes
        | host     => exact h.goes_or_ends_host h0 htakes
        | port     => exact h.goes_or_ends_port h0 htakes
        | pathArgs => exact Or.inl ⟨_, .pathArgs⟩
        | path     =>
            obtain rfl : ch = 63 := by simpa [urlTakes, h0] using htakes
            exact Or.inl ⟨_, .path⟩
        | args     => exact Or.inr h.args_ends

end UrlHere

/-! ### From the start -/

/-- Where the parser of `s` starts. -/
def urlPosStart (s : List UInt8) : UrlPos := ⟨s, .proto, [], { url := some s }⟩

/-- Where the parser starts. -/
theorem urlHere_start {s : List UInt8} (hnul : 0 ∉ s) (more : List UInt8) :
    UrlHere (s ++ 0 :: more) more s.length (urlPosStart s) (urlStart (s ++ 0 :: more)) := by
  have hcstr : cstr (s ++ 0 :: more) = s := cstr_append_nul hnul more
  exact {
    text  := rfl
    nul   := hnul
    pos   := Nat.zero_add _
    state := rfl
    buf   := rfl
    url   := congrArg (fun t => ({ url := some t } : UrlT)) hcstr
    done  := rfl
    ok    := rfl
    top   := Nat.le_of_eq (congrArg List.length hcstr)
    wrote := show 1 ≤ urlBufSize by decide }

/-- How many states can follow without a character taken. -/
def UrlParseState.rank : UrlParseState → Nat
  | .proto    => 2
  | .host     => 2
  | .port     => 2
  | .pathArgs => 1
  | .path     => 0
  | .args     => 0

/-- What is left to do. -/
def UrlPos.left (p : UrlPos) : Nat := p.rest.length + p.state.rank

/-- A step takes a character, or goes to a lower state. -/
theorem UrlStep.left_lt {p p' : UrlPos} (h : UrlStep p p') : p'.left < p.left := by
  cases h <;> simp only [UrlPos.left, UrlParseState.rank, List.length_cons] <;> omega

/-- Where the steps lead from a position, the loop gets to, within as many rounds as there are things
left to do. -/
theorem UrlHere.scan_steps {str more : List UInt8} {n : Nat} {p q : UrlPos} {s : UrlParse}
    (h : UrlHere str more n p s) (hsteps : Relation.ReflTransGen UrlStep p q) :
    ∃ k, k + q.left ≤ p.left ∧ UrlHere str more n q (scan (urlRound str) urlStopped k s) := by
  induction hsteps using Relation.ReflTransGen.head_induction_on generalizing s with
  | refl => exact ⟨0, Nat.le_of_eq (Nat.zero_add _), h⟩
  | head hstep _ ih =>
      have hleft := hstep.left_lt
      obtain ⟨k, hk, hend⟩ := ih (h.step hstep)
      refine ⟨k + 1, by omega, ?_⟩
      rw [scan_succ k h.goesOn]
      exact hend

end Bklib
