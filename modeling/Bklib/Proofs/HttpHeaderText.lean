import Bklib.Model.HttpServerNet
import Bklib.Proofs.HttpDelivery
import Bklib.Proofs.UrlParts

/-!
# `Bklib.Proofs.HttpHeaderText`: the headers that `http_server` writes, read by `http_get`

The two headers of the server are headers in the sense of their reader (`HttpHeaderText`), the one of a
file (`httpServerHead_text`) and the one in front of a page for an error (`httpServerPageHead_text`).
So a stream that starts with one of them is seen by `http_get` the same way however it is cut.
-/

set_option autoImplicit false

namespace Bklib

open Lib

/-! ## Numbers -/

theorem toNat_digitChar {d : Nat} (h : d < 10) :
    (Nat.digitChar d).toNat.toUInt8 = UInt8.ofNat (d + 48) := by
  interval_cases d <;> rfl

/-- The digits that are printed are those that are read. The induction takes off the last one. -/
theorem map_toDigits (n : Nat) :
    (Nat.toDigits 10 n).map (fun c => c.toNat.toUInt8) = decimal n := by
  induction n using Nat.strongRecOn with
  | ind n ih =>
      rw [Nat.toDigits_eq_if (by decide)]
      by_cases hn : n < 10
      · rw [if_pos hn, List.map_singleton, toNat_digitChar hn, decimal]
        by_cases hzero : n = 0
        · rw [if_pos hzero, hzero]
          rfl
        · rw [if_neg hzero, Nat.digits_of_lt 10 n hzero hn]
          rfl
      · have hdigits : Nat.digits 10 n = n % 10 :: Nat.digits 10 (n / 10) :=
          Nat.digits_def' (by decide) (by omega)
        rw [if_neg hn, List.map_append, ih (n / 10) (by omega), List.map_singleton,
          toNat_digitChar (Nat.mod_lt n (by decide)), decimal, decimal, if_neg (by omega),
          if_neg (by omega), hdigits, List.reverse_cons, List.map_append, List.map_singleton]

theorem bytes_toString (n : Nat) : bytes (toString n) = decimal n := by
  rw [bytes, Nat.toString_eq_ofList_toDigits, String.toList_ofList, map_toDigits]

theorem fmtLu_eq (n : Nat) : fmtLu n = decimal n := bytes_toString n

theorem fmtD_eq {n : Nat} (h : n < 2 ^ 31) : fmtD n = decimal n := by
  rw [fmtD, toInt32_eq_self (by omega) (by omega), ← bytes_toString]
  rfl

/-! ## The header of a file -/

/-- A number is one line. -/
theorem line_of_decimal (n : Nat) : ∀ c ∈ 32 :: decimal n, c ≠ 13 ∧ c ≠ 10 := by
  intro c hc
  rcases List.mem_cons.mp hc with rfl | hc
  · decide
  · have hspace := isspace_digit (isdigit_of_mem_decimal hc)
    constructor <;> rintro rfl <;> exact absurd hspace (by decide)

/-- A line with a name that is fixed. -/
def HttpLine.named (name text : List UInt8)
    (hname : name ≠ [] ∧ ∀ c ∈ name, isalnum c = true ∨ c = 45)
    (htext : ∀ c ∈ text, c ≠ 13 ∧ c ≠ 10) : HttpLine :=
  ⟨name, hname.1, hname.2, text, htext⟩

theorem serverMinor_digit : ∀ c ∈ bytes "0", isdigit c = true := by decide +kernel

theorem serverReason_line : ∀ c ∈ bytes "Ok", c ≠ 13 ∧ c ≠ 10 := by decide +kernel

/-- The header of `httpServerHead`, as a reply. -/
def serverReply (size : Nat) : HttpReply where
  minor := bytes "0"
  minor_ok := serverMinor_digit
  reason := bytes "Ok"
  reason_ok := serverReason_line
  lines :=
    [ .named (bytes "Pragma") (bytes " no-cache") (by decide +kernel) (by decide +kernel),
      .named (bytes "Cache-Control") (bytes " no-cache") (by decide +kernel) (by decide +kernel),
      .named (bytes "Connection") (bytes " keep-alive") (by decide +kernel) (by decide +kernel),
      .named (bytes "Content-Length") (32 :: decimal size) (by decide +kernel) (line_of_decimal size),
      .named (bytes "Content-Type") (bytes " text/plain") (by decide +kernel) (by decide +kernel) ]

theorem serverReply_render (size : Nat) : (serverReply size).render = httpServerHead size := by
  have hcode : decimal 200 = [50, 48, 48] := by simp [decimal]
  simp [HttpReply.render, HttpReply.start, HttpStartLine.render, HttpReply.version, serverReply,
    HttpLine.render, HttpLine.named, httpServerHead, fmtLu_eq, hcode, bytes, crlf]

/-- A size that fits into an `off_t` makes a short header. -/
theorem httpServerHead_length {size : Nat} (h : size < 2 ^ 63) :
    (httpServerHead size).length < 150 := by
  have hdigits : (decimal size).length ≤ 19 := length_decimal_le (k := 18) (by omega)
  simp [httpServerHead, fmtLu_eq, bytes]
  omega

theorem httpServerHead_text {size : Nat} (h : size < 2 ^ 63) :
    HttpHeaderText (httpServerHead size) 200 := by
  have hlen := httpServerHead_length h
  rw [← serverReply_render] at hlen ⊢
  exact (serverReply size).headerText (by omega)

/-! ## The header of a page -/

/-- `HTTP/1.0`. -/
def serverVersion : HttpWord := (serverReply 0).version

/-- The line behind the status. -/
def pageLine : HttpLine :=
  .named (bytes "Content-Type") (bytes " text/html; charset=iso-8859-1") (by decide +kernel)
    (by decide +kernel)

/-- The header of `httpServerErrorPage`. -/
def httpServerPageHead (code : Nat) : List UInt8 :=
  serverVersion.text ++ 32 :: (decimal code ++ 13 :: 10 :: (pageLine.render ++ crlf))

/-- The rest of `httpServerErrorPage`. -/
def httpServerPageBody (code : Nat) (uri : Option (List UInt8)) : List UInt8 :=
  bytes "<HTML><HEAD>\r\n" ++ (bytes "<TITLE>HTTP Error " ++ decimal code ++ bytes "</TITLE>\r\n") ++
    bytes "</HEAD><BODY>\r\n" ++ (bytes "<H1>HTTP Error " ++ decimal code ++ bytes "</H1>\r\n") ++
    (uri.getD (bytes "(null)") ++ bytes "<br>\r\n") ++ bytes "<HR>\r\n" ++ bytes "</BODY></HTML>\r\n"

theorem httpServerErrorPage_eq {code : Nat} (h : code < 2 ^ 31) (uri : Option (List UInt8)) :
    httpServerErrorPage code uri = httpServerPageHead code ++ httpServerPageBody code uri := by
  simp [httpServerErrorPage, httpServerPageHead, httpServerPageBody, fmtD_eq h, serverVersion,
    serverReply, HttpReply.version, pageLine, HttpLine.named, HttpLine.render, bytes, crlf]

/-- A status line without a reason: the number ends at the end of the line. -/
theorem httpServerPageHead_runs {code : Nat} (hcode : code < 2 ^ 31) :
    HttpRunsThrough (httpServerPageHead code) code := by
  intro behind
  obtain ⟨buf, hbuf⟩ : ∃ buf, buf = httpServerPageHead code ++ behind := ⟨_, rfl⟩
  rw [← hbuf]
  have hkept : httpStrdup serverVersion.text = some serverVersion.text :=
    (httpStrdup_eq_some_iff serverVersion.ne).mpr ((serverReply 0).version_kept (by decide))
  have htext : buf = serverVersion.text ++ 32 :: ((decimal code ++ [13]) ++ 10 ::
      (pageLine.render ++ (crlf ++ behind))) := by
    rw [hbuf, httpServerPageHead]
    simp
  have hversion := httpRuns_version default serverVersion htext hkept (serverReply 0).version_isHttp
  have hdigits : buf.drop (0 + serverVersion.text.length + 1)
      = (decimal code ++ [13]) ++ 10 :: (pageLine.render ++ (crlf ++ behind)) :=
    drop_add_length (x := [32]) (drop_add_length (by rw [htext]; rfl))
  have hdigit : ∀ c ∈ decimal code, isspace c = false := fun c hc =>
    isspace_digit (isdigit_of_mem_decimal hc)
  have hnum : strtoul (buf.drop (0 + serverVersion.text.length + 1))
      = (min code ulongMax, (decimal code).length) := by
    obtain ⟨c, hc⟩ := List.exists_mem_of_ne_nil _ (decimal_ne_nil code)
    rw [hdigits, List.append_assoc, List.singleton_append,
      strtoul_append_space ⟨c, hc, hdigit c hc⟩ (by decide), strtoul_decimal]
  have hpos : (decimal code).length ≠ 0 := by simpa using decimal_ne_nil code
  have hstay : ∀ c ∈ decimal code ++ [13], isBlank c = false ∧ isNl c = false := by
    intro c hc
    rcases List.mem_append.mp hc with hc | hc
    · exact ⟨(isBlank_isspace (hdigit c hc)).1, (isBlank_isspace (hdigit c hc)).2.1⟩
    · rw [List.mem_singleton.mp hc]
      decide
  have hnumber : ∀ l q, HttpRuns buf
      (httpAt { httpHeaderClear default with
          httpVersion := some serverVersion.text, opCode := .response }
        (0 + serverVersion.text.length + 1) 0 .space .responseCode l q)
      ((decimal code ++ [13]).length + 1)
      (httpAt { httpHeaderClear default with
          httpVersion := some serverVersion.text, opCode := .response
          responseCode := natToInt32 (min code ulongMax) }
        (0 + serverVersion.text.length + 1 + (decimal code ++ [13]).length + 1)
        (0 + serverVersion.text.length + 1) .header .responseMessage 0 0) := fun l q =>
    httpRuns_plain _ (c := 10) (Or.inr ⟨l, q, rfl, rfl⟩) (by simp)
      (fun d h h' => stays_op.mpr ⟨h, h'⟩) hdigits (by simp)
      (fun d hd => hdigit d (List.mem_of_mem_head? (by
        rwa [List.head?_append_of_ne_nil _ (decimal_ne_nil code)] at hd)))
      hstay (by decide) (fun l q _ => httpSwitch_responseCode rfl (Or.inr rfl) hnum hpos)
  have hlines : buf.drop (0 + serverVersion.text.length + 1 + (decimal code ++ [13]).length + 1)
      = [pageLine].flatMap HttpLine.render ++ (crlf ++ behind) := by
    have hrest := drop_add_length (x := [10]) (drop_add_length hdigits)
    rw [List.flatMap_singleton]
    exact hrest
  obtain ⟨l, q, hstart⟩ := (hversion.chain hnumber).exists_line
  obtain ⟨h, w, next, hsame, hrest⟩ := HttpReply.runs_lines [pageLine]
    (h := { httpHeaderClear default with
      httpVersion := some serverVersion.text, opCode := .response
      responseCode := natToInt32 (min code ulongMax) })
    (w := 0 + serverVersion.text.length + 1) .responseMessage l q hlines
  obtain ⟨l', q', hend⟩ := hrest.exists_line
  refine ⟨h, w, next, l', q', ?_, ?_⟩
  · rw [hsame]
    exact (natToInt32_eq_code_iff code).mpr hcode
  · have hlen : (httpServerPageHead code).length = serverVersion.text.length + 1 +
        ((decimal code ++ [13]).length + 1) + ([pageLine].flatMap HttpLine.render ++ crlf).length := by
      simp [httpServerPageHead]
      omega
    rw [hlen, httpLoop_add]
    refine (congrArg (httpLoop _ _) hstart).trans (hend.trans ?_)
    rw [Nat.zero_add]
    rfl

/-- The head of the page is short. -/
theorem httpServerPageHead_length {code : Nat} (h : code < 2 ^ 31) :
    (httpServerPageHead code).length < 100 := by
  have hdigits : (decimal code).length ≤ 10 := length_decimal_le (k := 9) (by omega)
  simp [httpServerPageHead, serverVersion, serverReply, HttpReply.version, pageLine,
    HttpLine.named, HttpLine.render, bytes, crlf]
  omega

/-- The head of the server's page is a header of its code. -/
theorem httpServerPageHead_text {code : Nat} (h : code < 2 ^ 31) :
    HttpHeaderText (httpServerPageHead code) code := by
  have hlen := httpServerPageHead_length h
  have hblank : ¬HttpBlankCode (httpServerPageHead code) := by
    obtain ⟨d, ds, hdigits⟩ := List.exists_cons_of_ne_nil (decimal_ne_nil code)
    have hd : isdigit d = true := isdigit_of_mem_decimal (n := code) (by rw [hdigits]; simp)
    rw [httpServerPageHead, hdigits]
    exact not_blankCode_of_code serverVersion (isspace_digit hd) _
  exact headerText_of_runs hblank (by omega) (by simp [httpServerPageHead])
    (httpServerPageHead_runs h)

end Bklib
