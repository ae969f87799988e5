import Bklib.Lib.PercentCode
import Bklib.Proofs.Strtoul
import Bklib.Proofs.UrlParse

/-!
# `Bklib.Proofs.UrlParts`: `url_parse` reads back the parts of a URL

`UrlParts.text` is a URL written from its parts. Where the parts are well formed (`UrlParts.Written`),
the grammar of the parser takes the text apart again, one part after the other: a chunk lemma for the
characters of a part (`urlSteps_chars`, `urlSteps_path`), and a step at each delimiter. The loop of
`url_parse` follows (`UrlHere.scan_steps`): `urlParse_parts`.
-/

set_option autoImplicit false

namespace Bklib

open Lib Relation

/-! ### Parts -/

/-- Letters, digits, `_`, `-` and `.`. -/
def urlPlainChar (ch : UInt8) : Bool := isalnum ch || ch ∈ bytes "_-."

/-- The bytes that stand for themselves in a path. -/
def urlPathRaw (ch : UInt8) : Prop := ch ≠ 0 ∧ ch ≠ 63 ∧ ch ≠ 37

/-- Two digits of base 16 for a byte, which is not the NUL. -/
def urlPathEsc (a b ch : UInt8) : Prop :=
  isxdigit a = true ∧ isxdigit b = true ∧ ch.toNat = 16 * digitVal a + digitVal b ∧ ch ≠ 0

/-- The parts of a URL. The path is what stands behind its `/`, as bytes and as it is written. -/
structure UrlParts where
  proto    : List UInt8
  user     : Option (List UInt8)
  host     : List UInt8
  port     : Option Nat
  path     : List UInt8
  pathText : List UInt8
  args     : Option (List UInt8)

namespace UrlParts

variable (u : UrlParts)

/-- `user@`. -/
def userText : List UInt8 := u.user.elim [] (· ++ [64])

/-- `:port`. -/
def portText : List UInt8 := u.port.elim [] fun n => 58 :: decimal n

/-- `?args`. -/
def argsText : List UInt8 := u.args.elim [] (63 :: ·)

/-- `/path?args`. -/
def pathArgsText : List UInt8 := 47 :: (u.pathText ++ u.argsText)

/-- `proto://user@host:port/path?args`. -/
def text : List UInt8 :=
  u.proto ++ 58 :: 47 :: 47 :: (u.userText ++ (u.host ++ (u.portText ++ u.pathArgsText)))

/-- The parts are as a URL has them. -/
structure Written : Prop where
  proto   : (∀ ch ∈ u.proto, urlPlainChar ch = true) ∧ u.proto.length ≤ 16000
  user    : ∀ t, u.user = some t → (∀ ch ∈ t, urlPlainChar ch = true) ∧ t.length ≤ 16000
  host    : (∀ ch ∈ u.host, urlPlainChar ch = true) ∧ u.host.length ≤ 16000
  port    : ∀ n, u.port = some n → 1 ≤ n ∧ n ≤ 65535
  code    : PercentCode 37 urlPathRaw urlPathEsc u.pathText u.path
  path    : u.path.length ≤ 16000
  args    : ∀ t, u.args = some t → 0 ∉ t

/-- The parts are what `url_parse` found. -/
structure ReadBack (r : UrlT × Int) : Prop where
  ok       : r.2 = 0
  proto    : r.1.proto = some u.proto
  user     : r.1.user = u.user
  host     : r.1.host = some u.host
  path     : r.1.path = some (47 :: u.path)
  pathArgs : r.1.pathArgs = some u.pathArgsText
  argsStr  : r.1.argsStr = u.args
  port     : ∀ n : Nat, u.port = some n → r.1.port = n
  http     : u.port = none → u.proto = bytes "http" → r.1.port = 80
  https    : u.port = none → u.proto = bytes "https" → r.1.port = 443
  ftp      : u.port = none → u.proto = bytes "ftp" → r.1.port = 21

end UrlParts

/-! ### Characters of the parts -/

theorem urlPlainChar_takes {ch : UInt8} :
    urlPlainChar ch = true → urlNameChar ch = true ∧ ch ≠ 37 ∧ ch ≠ 0 :=
  forall_byte (P := fun ch => urlPlainChar ch = true → urlNameChar ch = true ∧ ch ≠ 37 ∧ ch ≠ 0)
    (by decide +kernel) ch

theorem isdigit_ne {ch : UInt8} : isdigit ch = true → ch ≠ 37 ∧ ch ≠ 0 :=
  forall_byte (P := fun ch => isdigit ch = true → ch ≠ 37 ∧ ch ≠ 0) (by decide +kernel) ch

/-- The byte that an escape stands for. -/
theorem httpCgiHexVal_esc {a b ch : UInt8} (h : urlPathEsc a b ch) : httpCgiHexVal a b = ch := by
  obtain ⟨ha, hb, hval, -⟩ := h
  rw [httpCgiHexVal_hex ha hb, ← hval, UInt8.ofNat_toNat]

/-- A number below a power of ten has no more digits than it. -/
theorem length_decimal_le {n k : Nat} (h : n < 10 ^ (k + 1)) : (decimal n).length ≤ k + 1 := by
  unfold decimal
  split
  · exact Nat.succ_le_succ (Nat.zero_le k)
  · rw [List.length_map, List.length_reverse]
    exact Nat.digits_length_le_iff (by decide) n |>.mpr h

/-! ### The parser on a part -/

section Steps

variable {st : UrlParseState} {w b r : List UInt8} {url : UrlT}

/-- Characters that stand for themselves are buffered. -/
theorem urlSteps_chars (hchars : ∀ ch ∈ w, urlTakes st ch = true ∧ ch ≠ 37)
    (hroom : b.length + w.length < urlBufSize) :
    ReflTransGen UrlStep ⟨w ++ r, st, b, url⟩ ⟨r, st, b ++ w, url⟩ := by
  induction w generalizing b with
  | nil =>
      rw [List.append_nil]
      exact .refl
  | cons ch w ih =>
      obtain ⟨htakes, hch⟩ := hchars ch (List.mem_cons_self ..)
      rw [List.length_cons] at hroom
      have hstep : UrlStep ⟨ch :: (w ++ r), st, b, url⟩ ⟨w ++ r, st, b ++ [ch], url⟩ :=
        .char htakes hch (by omega)
      have hrest := ih (b := b ++ [ch]) (fun d hd => hchars d (List.mem_cons_of_mem ch hd))
        (by rw [List.length_append, List.length_singleton]; omega)
      rw [List.append_assoc, List.singleton_append] at hrest
      exact .head hstep hrest

/-- A name at the start of the buffer. -/
theorem urlSteps_name (hst : st = .proto ∨ st = .host)
    (hw : (∀ ch ∈ w, urlPlainChar ch = true) ∧ w.length ≤ 16000) :
    ReflTransGen UrlStep ⟨w ++ r, st, [], url⟩ ⟨r, st, w, url⟩ := by
  refine urlSteps_chars (b := []) (fun ch hch => ?_) ?_
  · obtain ⟨hname, h37, -⟩ := urlPlainChar_takes (hw.1 ch hch)
    rcases hst with rfl | rfl
    · exact ⟨hname, h37⟩
    · exact ⟨hname, h37⟩
  · have hlen := hw.2
    simp only [List.length_nil, urlBufSize]
    omega

/-- A path that is percent coded. -/
theorem urlSteps_path {t path : List UInt8} (h : PercentCode 37 urlPathRaw urlPathEsc t path)
    (hroom : b.length + path.length < urlBufSize) :
    ReflTransGen UrlStep ⟨t ++ r, .path, b, url⟩ ⟨r, .path, b ++ path, url⟩ := by
  induction h generalizing b with
  | nil =>
      rw [List.append_nil]
      exact .refl
  | @raw ch t path hraw _ ih =>
      obtain ⟨h0, h63, h37⟩ := hraw
      rw [List.length_cons] at hroom
      have hstep : UrlStep ⟨ch :: (t ++ r), .path, b, url⟩ ⟨t ++ r, .path, b ++ [ch], url⟩ :=
        .char (by simp [urlTakes, h0, h63]) h37 (by omega)
      have hrest := ih (b := b ++ [ch]) (by rw [List.length_append, List.length_singleton]; omega)
      rw [List.append_assoc, List.singleton_append] at hrest
      exact .head hstep hrest
  | @escape a c ch t path hesc _ ih =>
      rw [List.length_cons] at hroom
      have hstep : UrlStep ⟨37 :: a :: c :: (t ++ r), .path, b, url⟩
          ⟨t ++ r, .path, b ++ [httpCgiHexVal a c], url⟩ :=
        .escape rfl (by rw [strtoul16_hex hesc.1 hesc.2.1]; exact Nat.succ_ne_zero 1) (by omega)
      have hrest := ih (b := b ++ [ch]) (by rw [List.length_append, List.length_singleton]; omega)
      -- what is buffered is the character that the digits stand for
      rw [httpCgiHexVal_esc hesc] at hstep
      rw [List.append_assoc, List.singleton_append] at hrest
      exact .head hstep hrest

end Steps

/-! ### The last round -/

namespace UrlHere

variable {str more r b : List UInt8} {n : Nat} {url : UrlT} {s : UrlParse}

/-- The round at the end of a path stores it and stops. -/
theorem round_pathEnd (h : UrlHere str more n ⟨[], .path, b, url⟩ s) :
    urlStopped (urlRound str s) = true ∧
      (urlRound str s).url = { url with path := some (cstr b) } := by
  have hstate : s.state = .path := h.state
  have hbuf : s.buf = b := h.buf
  have hurl : s.url = url := h.url
  simp only [urlRound, hstate, urlParsePath, h.cur_nil, UrlParse.read, true_or, if_true, hbuf, hurl]
  exact ⟨rfl, trivial⟩

/-- The arguments go to the end of the text. -/
theorem round_argsEnd (h : UrlHere str more n ⟨r, .args, b, url⟩ s) :
    urlStopped (urlRound str s) = true ∧
      (urlRound str s).url =
        { url with
          argsStr := some r, args := (httpCgiArgs (r ++ [0]) (natToInt32 r.length)).args } := by
  have hstate : s.state = .args := h.state
  have hurl : s.url = url := h.url
  have hrest : cstr (str.drop s.strp) = r := h.cstr_rest
  simp only [urlRound, hstate, urlParseArgs, hrest, UrlParse.read, hurl]
  exact ⟨rfl, trivial⟩

end UrlHere

/-- The default port is no error. -/
theorem urlParse_code (str : List UInt8) :
    (urlParse str).2 = (urlLoop str).url.errCode.code := by
  unfold urlParse
  dsimp only
  split <;> rfl

/-- A round that ends the loop where the steps lead to is the last one. -/
theorem urlLoop_of_steps {s more : List UInt8} {q : UrlPos} {url : UrlT} (hnul : 0 ∉ s)
    (hsteps : ReflTransGen UrlStep (urlPosStart s) q)
    (hlast : ∀ t, UrlHere (s ++ 0 :: more) more s.length q t →
      urlStopped (urlRound (s ++ 0 :: more) t) = true ∧ (urlRound (s ++ 0 :: more) t).url = url) :
    (urlLoop (s ++ 0 :: more)).url = url := by
  obtain ⟨k, hk, hhere⟩ := (urlHere_start hnul more).scan_steps hsteps
  obtain ⟨hstop, hurl⟩ := hlast _ hhere
  have hnext : scan (urlRound (s ++ 0 :: more)) urlStopped (k + 1) (urlStart (s ++ 0 :: more)) =
      urlRound (s ++ 0 :: more)
        (scan (urlRound (s ++ 0 :: more)) urlStopped k (urlStart (s ++ 0 :: more))) := by
    rw [scan_add, scan_succ 0 hhere.goesOn]
    rfl
  have hleft : k + 1 ≤ (s ++ 0 :: more).length + 3 := by
    simp only [UrlPos.left, urlPosStart, UrlParseState.rank] at hk
    simp only [List.length_append, List.length_cons]
    omega
  rw [urlLoop, scan_of_le (by rw [hnext]; exact hstop) hleft, hnext]
  exact hurl

/-! ### The parts, one after the other -/

namespace UrlParts

variable (u : UrlParts)

/-- What is known of the URL when its path begins. -/
def urlAtPath : UrlT :=
  { url := some u.text, proto := some u.proto, user := u.user, host := some u.host
    port := (u.port.getD 0 : Nat), pathArgs := some u.pathArgsText }

variable {u}

/-- No part has a NUL, so the text has none. -/
theorem nul_not_mem_text (h : u.Written) : 0 ∉ u.text := by
  have hname {t : List UInt8} (ht : ∀ ch ∈ t, urlPlainChar ch = true) : 0 ∉ t :=
    fun h0 => (urlPlainChar_takes (ht 0 h0)).2.2 rfl
  have huser : 0 ∉ u.userText := by
    unfold userText
    cases huser : u.user with
    | none   => exact List.not_mem_nil
    | some t => simpa using hname (h.user t huser).1
  have hport : 0 ∉ u.portText := by
    unfold portText
    cases u.port with
    | none   => exact List.not_mem_nil
    | some n =>
        intro h0
        rcases List.mem_cons.mp h0 with h0 | h0
        · exact absurd h0 (by decide)
        · exact (isdigit_ne (isdigit_of_mem_decimal h0)).2 rfl
  -- an escape is written with digits, and nothing else is a NUL
  have hpath : 0 ∉ u.pathText := fun h0 =>
    h.code.forall_mem (P := fun ch => ch ≠ 0) (by decide) (fun _ hc => hc.1)
      (fun _ _ _ hc => ⟨(isxdigit_char hc.1).2.2.1, (isxdigit_char hc.2.1).2.2.1⟩) 0 h0 rfl
  have hargs : 0 ∉ u.argsText := by
    unfold argsText
    cases hargs : u.args with
    | none   => exact List.not_mem_nil
    | some t => simpa using h.args t hargs
  simp [text, pathArgsText, hname h.proto.1, huser, hname h.host.1, hport, hpath, hargs]

/-- Up to the host. -/
theorem steps_host (h : u.Written) :
    ReflTransGen UrlStep (urlPosStart u.text)
      ⟨u.host ++ (u.portText ++ u.pathArgsText), .host, [],
        { url := some u.text, proto := some u.proto, user := u.user }⟩ := by
  have hcstr : cstr u.proto = u.proto :=
    cstr_eq_self fun h0 => (urlPlainChar_takes (h.proto.1 0 h0)).2.2 rfl
  have hproto : ReflTransGen UrlStep (urlPosStart u.text)
      ⟨u.userText ++ (u.host ++ (u.portText ++ u.pathArgsText)), .host, [],
        { url := some u.text, proto := some u.proto }⟩ := by
    have hstep : UrlStep
        ⟨58 :: 47 :: 47 :: (u.userText ++ (u.host ++ (u.portText ++ u.pathArgsText))), .proto, u.proto,
          { url := some u.text }⟩ _ := .protoHost
    rw [hcstr] at hstep
    exact (urlSteps_name (Or.inl rfl) h.proto).tail hstep
  -- the state is `URL_PARSE_HOST` with a user and without one
  refine hproto.trans ?_
  unfold userText
  cases huser : u.user with
  | none   => exact .refl
  | some t =>
      have ht := h.user t huser
      have htstr : cstr t = t := cstr_eq_self fun h0 => (urlPlainChar_takes (ht.1 0 h0)).2.2 rfl
      have hstep : UrlStep ⟨64 :: (u.host ++ (u.portText ++ u.pathArgsText)), .host, t,
          { url := some u.text, proto := some u.proto }⟩ _ := .user
      rw [htstr] at hstep
      simpa using (urlSteps_name (Or.inr rfl) ht).tail hstep

/-- From the host to the path. -/
theorem steps_path (h : u.Written) :
    ReflTransGen UrlStep
      ⟨u.host ++ (u.portText ++ u.pathArgsText), .host, [],
        { url := some u.text, proto := some u.proto, user := u.user }⟩
      ⟨u.pathArgsText, .path, [], u.urlAtPath⟩ := by
  have hcstr : cstr u.host = u.host :=
    cstr_eq_self fun h0 => (urlPlainChar_takes (h.host.1 0 h0)).2.2 rfl
  refine (urlSteps_name (Or.inr rfl) h.host).trans ?_
  unfold portText urlAtPath
  cases hport : u.port with
  | none   =>
      have hstep : UrlStep ⟨u.pathArgsText, .host, u.host,
          { url := some u.text, proto := some u.proto, user := u.user }⟩ _ := .hostPath
      rw [hcstr] at hstep
      exact (ReflTransGen.single hstep).tail .pathArgs
  | some n =>
      obtain ⟨hpos, hmax⟩ := h.port n hport
      have hdigits : cstr (decimal n) = decimal n :=
        cstr_eq_self fun h0 => (isdigit_ne (isdigit_of_mem_decimal h0)).2 rfl
      -- the digits of a port are read back, and they fit the buffer
      have hval : strtoul (cstr (decimal n)) = (n, (decimal n).length) := by
        rw [hdigits, strtoul_decimal, Nat.min_eq_left (by unfold ulongMax; omega)]
      have hcolon : UrlStep ⟨58 :: (decimal n ++ u.pathArgsText), .host, u.host,
          { url := some u.text, proto := some u.proto, user := u.user }⟩ _ := .hostPort
      have hroom : ([] : List UInt8).length + (decimal n).length < urlBufSize := by
        have hlen : (decimal n).length ≤ 4 + 1 := length_decimal_le (by omega)
        simp only [List.length_nil, urlBufSize]
        omega
      have hchars : ReflTransGen UrlStep
          ⟨decimal n ++ u.pathArgsText, .port, [],
            { url := some u.text, proto := some u.proto, user := u.user, host := some u.host }⟩
          ⟨u.pathArgsText, .port, decimal n,
            { url := some u.text, proto := some u.proto, user := u.user, host := some u.host }⟩ :=
        urlSteps_chars (fun ch hch => ⟨by simp [urlTakes, isdigit_of_mem_decimal hch],
          (isdigit_ne (isdigit_of_mem_decimal hch)).1⟩) hroom
      have hslash : UrlStep ⟨u.pathArgsText, .port, decimal n,
          { url := some u.text, proto := some u.proto, user := u.user, host := some u.host }⟩ _ :=
        .port (by rw [hval]; exact Nat.pos_iff_ne_zero.mp (List.length_pos_iff.mpr (decimal_ne_nil n)))
      rw [hcstr] at hcolon
      rw [hval, natToInt32_eq_self (by omega)] at hslash
      exact (((ReflTransGen.single hcolon).trans hchars).tail hslash).tail .pathArgs

/-- The path, up to the arguments. -/
theorem steps_args (h : u.Written) :
    ReflTransGen UrlStep ⟨u.pathArgsText, .path, [], u.urlAtPath⟩
      ⟨u.argsText, .path, 47 :: u.path, u.urlAtPath⟩ := by
  have hlen := h.path
  have hslash : UrlStep ⟨u.pathArgsText, .path, [], u.urlAtPath⟩
      ⟨u.pathText ++ u.argsText, .path, [47], u.urlAtPath⟩ :=
    .char (by decide) (by decide) (by decide)
  exact .head hslash (urlSteps_path (b := [47]) h.code (by
    simp only [List.length_singleton, urlBufSize]
    omega))

/-- What the loop of `url_parse` leaves. -/
theorem loop_url (h : u.Written) (more : List UInt8) :
    ∃ args, (urlLoop (u.text ++ 0 :: more)).url =
      { u.urlAtPath with path := some (47 :: u.path), argsStr := u.args, args := args } := by
  have hsteps := ((steps_host h).trans (steps_path h)).trans (steps_args h)
  have hpath : cstr (47 :: u.path) = 47 :: u.path := cstr_eq_self fun h0 => by
    rcases List.mem_cons.mp h0 with h0 | h0
    · exact absurd h0 (by decide)
    · exact h.code.forall_mem_written (P := fun ch => ch ≠ 0) (fun _ hc => hc.1)
        (fun _ _ _ hc => hc.2.2.2) 0 h0 rfl
  -- the path ends with the string, or at the `?` in front of the arguments
  unfold argsText at hsteps
  cases hargs : u.args with
  | none   =>
      rw [hargs] at hsteps
      refine ⟨none, urlLoop_of_steps (nul_not_mem_text h) hsteps fun t ht => ?_⟩
      rw [← hpath]
      exact ht.round_pathEnd
  | some t =>
      rw [hargs] at hsteps
      refine ⟨(httpCgiArgs (t ++ [0]) (natToInt32 t.length)).args,
        urlLoop_of_steps (nul_not_mem_text h) (hsteps.tail .path) fun s hs => ?_⟩
      rw [← hpath]
      exact hs.round_argsEnd

end UrlParts

/-- `url_parse` reads back the parts of a URL. -/
theorem urlParse_parts {u : UrlParts} (h : u.Written) (more : List UInt8) :
    u.ReadBack (urlParse (u.text ++ 0 :: more)) := by
  obtain ⟨args, hloop⟩ := UrlParts.loop_url h more
  have hok : (urlLoop (u.text ++ 0 :: more)).url.errCode = .ok := by
    rw [hloop]
    rfl
  -- the default port is taken when there is none, and it is the only thing that changes
  have hport (n : Nat) (hn : u.port = some n) : (urlLoop (u.text ++ 0 :: more)).url.port = n := by
    rw [hloop]
    simp [UrlParts.urlAtPath, hn]
  have hzero (hn : u.port = none) : (urlLoop (u.text ++ 0 :: more)).url.port = 0 := by
    rw [hloop]
    simp [UrlParts.urlAtPath, hn]
  have hproto : (urlLoop (u.text ++ 0 :: more)).url.proto = some u.proto := by
    rw [hloop]
    rfl
  have hdefault (hn : u.port = none) :
      (urlParse (u.text ++ 0 :: more)).1.port = urlDefaultPort (some u.proto) 0 := by
    simp only [urlParse, hok, hzero hn, hproto, and_self, if_true]
  have hparts : ∃ port, (urlParse (u.text ++ 0 :: more)).1 =
      { (urlLoop (u.text ++ 0 :: more)).url with port := port } := by
    unfold urlParse
    dsimp only
    split
    · exact ⟨_, rfl⟩
    · exact ⟨_, rfl⟩
  obtain ⟨port, hparts⟩ := hparts
  rw [hloop] at hparts
  exact {
    ok       := by rw [urlParse_code, hok]; rfl
    proto    := by rw [hparts]; rfl
    user     := by rw [hparts]; rfl
    host     := by rw [hparts]; rfl
    path     := by rw [hparts]
    pathArgs := by rw [hparts]; rfl
    argsStr  := by rw [hparts]
    port     := fun n hn => by
      have hpos := (h.port n hn).1
      have hne : ¬(n : Int) = 0 := by omega
      simp only [urlParse, hport n hn, hne, and_false, if_false]
    http     := fun hn hp => by rw [hdefault hn, hp]; decide
    https    := fun hn hp => by rw [hdefault hn, hp]; decide
    ftp      := fun hn hp => by rw [hdefault hn, hp]; decide }

/-- A URL with all of its parts, and an escape in its path. -/
def urlPartsAll : UrlParts :=
  { proto := bytes "http", user := some (bytes "a_b"), host := bytes "www.c-d.e", port := some 8080
    path := bytes "x?y", pathText := bytes "x%3fy", args := some (bytes "k=v") }

theorem urlParse_partsAll :
    urlPartsAll.Written ∧ urlPartsAll.ReadBack (urlParse (urlPartsAll.text ++ [0])) := by
  have hcode : PercentCode 37 urlPathRaw urlPathEsc (bytes "x%3fy") (bytes "x?y") :=
    .raw (c := 120) ⟨by decide, by decide, by decide⟩
      (.escape (a := 51) (b := 102) (c := 63) ⟨by decide, by decide, by decide, by decide⟩
        (.raw (c := 121) ⟨by decide, by decide, by decide⟩ .nil))
  have h : urlPartsAll.Written := {
    proto := ⟨by decide +kernel, by decide⟩
    user  := fun t ht => by
      obtain rfl : bytes "a_b" = t := Option.some.inj ht
      exact ⟨by decide +kernel, by decide⟩
    host  := ⟨by decide +kernel, by decide⟩
    port  := fun n hn => by
      obtain rfl : 8080 = n := Option.some.inj hn
      exact ⟨by decide, by decide⟩
    code  := hcode
    path  := by decide
    args  := fun t ht => by
      obtain rfl : bytes "k=v" = t := Option.some.inj ht
      decide }
  exact ⟨h, urlParse_parts h []⟩

end Bklib
