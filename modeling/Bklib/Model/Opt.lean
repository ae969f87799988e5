import Bklib.Lib.Scan
import Bklib.Model.CInt
import Bklib.Model.Libc

/-!
# `Bklib.Model.Opt`: quoted argument lines

`optCat` writes the arguments of a command on one line and quotes those that need it;
`optStr2argv` splits a line again. The encoder writes into memory that its arguments are not in, so
it is modelled by the bytes written. The decoder works in the buffer that holds the line: it reads
at `src`, writes at `dst`, and both are positions of one list. That list is the whole storage, with
the terminator in it; an access outside sets `fault`.
-/

set_option autoImplicit false

namespace Bklib

open Lib (scan)

/-- `WHITESPACE`. -/
def optWhitespace : List UInt8 := bytes " \t\r\n"

/-- `OPT_QUOTED_CHARS`. -/
def optQuotedChars : List UInt8 := bytes " \n\r\t\\\""

/-! ## Encoding -/

/-- `opt_needs_quote`, of a pointer that may be null. -/
def optNeedsQuote : Option (List UInt8) → Bool
  | none     => true
  | some str => str.any (· ∈ optQuotedChars)

/-- `opt_quoted_enc_style_t`. -/
inductive OptQuotedEncStyle
  | c
  | perl
  deriving DecidableEq

/-- The quote of a style. -/
def optQuote : OptQuotedEncStyle → UInt8
  | .c    => 34
  | .perl => 39

/-- What `opt_quoted_enc_style` writes for one character. -/
def optEncChar (style : OptQuotedEncStyle) (ch : UInt8) : List UInt8 :=
  if ch = 10 then bytes "\\n"
  else if ch = 13 then bytes "\\r"
  else if ch = 9 then bytes "\\t"
  else if ch = 92 then bytes "\\\\"
  else if ch = 0 then bytes "\\0"
  else if ch = optQuote style then [92, ch]
  else [ch]

/-- The loop of `opt_quoted_enc_style`: `out` is what lies between `dst_in` and `dst`, and `stop` is
`end - dst_in`. An escape that `snprintf` cuts short still counts in full, and brings `dst` to the
end. -/
def optEncLoop (style : OptQuotedEncStyle) (stop : Int) :
    List UInt8 → List UInt8 → List UInt8
  | out, []        => out
  | out, ch :: src =>
      if (out.length : Int) < stop then optEncLoop style stop (out ++ optEncChar style ch) src
      else out

/-- `opt_quoted_enc_style`: the bytes written before the terminator, or the error code. -/
def optQuotedEncStyle (src : Option (List UInt8)) (srclen dstlen : Int) (style : OptQuotedEncStyle) :
    Except Int (List UInt8) :=
  let stop := dstlen - 3
  let mem := src.getD []
  let srclen := if src = none then 0 else srclen
  let srclen := if srclen < 0 then natToInt32 (cstr mem).length else srclen
  let out := optEncLoop style stop [optQuote style] (mem.take srclen.toNat)
  if (out.length : Int) < stop then .ok (out ++ [optQuote style]) else .error (-1)

/-- `opt_quoted_enc`. -/
def optQuotedEnc (src : Option (List UInt8)) (srclen dstlen : Int) : Except Int (List UInt8) :=
  optQuotedEncStyle src srclen dstlen .c

/-- An argument of `opt_cat`; `OPT_CAT_INT` comes with the number that follows it. -/
inductive OptArg
  | null
  | int (i : Int)
  | str (s : List UInt8)

/-- What `opt_cat` writes for one argument. -/
def optCatArg (nout : Int) : OptArg → Except Int (List UInt8)
  | .null  => .ok []
  | .int i => .ok (bytes (toString i))
  | .str s =>
      if optNeedsQuote (some (cstr s)) then optQuotedEnc (some s) (-1) nout
      else .ok ((cstr s).take nout.toNat)

/-- The loop of `opt_cat`: `out` is what lies between `buf` and `pout`. -/
def optCatLoop : List OptArg → List UInt8 → Int → Option (List UInt8 × Int)
  | [],            out, nout => some (out, nout)
  | .null :: args, out, nout => optCatLoop args out nout
  | arg :: args,   out, nout =>
      if nout < 2 then none
      else
        let blank := if out = [] then [] else [32]
        match optCatArg (nout - blank.length) arg with
        | .error _ => none
        | .ok w    => optCatLoop args (out ++ blank ++ w) (nout - blank.length - w.length)

/-- `opt_cat`: the line before the terminator, or `none` for the result `-1`. -/
def optCat (len : Int) (args : List OptArg) : Option (List UInt8) :=
  match optCatLoop args [] len with
  | none             => none
  | some (out, nout) => if nout < 2 then none else some (out ++ [10])

/-! ## Decoding -/

/-- `opt_quoted_dec` at work. -/
structure OptDec where
  buf   : List UInt8
  src   : Nat
  dst   : Nat
  /-- Inside a quoted string. -/
  instr : Bool
  done  : Bool
  fault : Bool
  deriving DecidableEq

namespace OptDec

variable (s : OptDec)

/-- `*src`. -/
def cur : UInt8 := s.buf.getD s.src 0

/-- `src += n`. Wherever `src` moves, `*src` is what is read next. -/
def skip (n : Nat) : OptDec :=
  { s with src := s.src + n, fault := s.fault || decide (s.buf.length ≤ s.src + n) }

/-- `*dst = ch`. -/
def store (ch : UInt8) : OptDec :=
  { s with buf := s.buf.set s.dst ch, fault := s.fault || decide (s.buf.length ≤ s.dst) }

/-- `*dst++ = ch`. -/
def put (ch : UInt8) : OptDec := { s.store ch with dst := s.dst + 1 }

/-- `strspn (src, WHITESPACE)`. -/
def spn : Nat := ((s.buf.drop s.src).takeWhile (· ∈ optWhitespace)).length

end OptDec

/-- The character that a backslash and `ch` stand for. -/
def optUnescape (ch : UInt8) : UInt8 :=
  if ch = 110 then 10
  else if ch = 114 then 13
  else if ch = 116 then 9
  else ch

/-- A round of the loop inside a quoted string. -/
def optDecInstr (noslash : Bool) (s : OptDec) : OptDec :=
  if s.cur = 34 then { s with instr := false }.skip 1
  else if s.cur = 92 && !noslash then
    let s := s.skip 1
    (s.put (optUnescape s.cur)).skip 1
  else (s.put s.cur).skip 1

/-- A round of the loop outside of quoted strings. -/
def optDecPlain (s : OptDec) : OptDec :=
  if s.cur ∈ optWhitespace then { s.skip s.spn with done := true }
  else if s.cur = 34 then { s with instr := true }.skip 1
  else (s.put s.cur).skip 1

/-- A round of `opt_quoted_dec`. The loop inside a string ends where the outer one does, except at
the closing quote, so `instr` tells the two apart. -/
def optDecRound (noslash : Bool) (s : OptDec) : OptDec :=
  if s.instr then optDecInstr noslash s else optDecPlain s

/-- Where the loops of `opt_quoted_dec` end. -/
def optDecStopped (stop : Int) (s : OptDec) : Bool :=
  s.cur == 0 || !decide ((s.dst : Int) < stop) || (s.done && !s.instr)

/-- `opt_quoted_dec` before its first round. -/
def optDecStart (buf : List UInt8) (src dst : Nat) : OptDec :=
  let s : OptDec := ⟨buf, src, dst, false, false, decide (buf.length ≤ src)⟩
  s.skip s.spn

/-- `opt_quoted_dec` with `*psrc` and `dst` in the buffer: how it leaves the buffer and `*psrc`, and
its result. -/
def optQuotedDec (buf : List UInt8) (src dst : Nat) (len : Int) (noslash : Bool) : OptDec × Int :=
  let stop := dst + len - 1
  let s := scan (optDecRound noslash) (optDecStopped stop) buf.length (optDecStart buf src dst)
  if (s.dst : Int) ≤ stop then (s.store 0, s.dst - dst) else (s, -1)

/-- `opt_str2argv` at work: the entries of `argv` are positions in the buffer. -/
structure OptArgv where
  buf   : List UInt8
  str   : Nat
  dst   : Nat
  argv  : List Nat
  fault : Bool
  deriving DecidableEq

/-- A round of `opt_str2argv`. Nothing compares `argc` with `argn`. -/
def optArgvRound (argn stop : Nat) (s : OptArgv) : OptArgv :=
  let r := optQuotedDec s.buf s.str s.dst (natToInt32 (stop - s.str)) false
  { buf := r.1.buf, str := r.1.src, dst := (s.dst + r.2 + 1).toNat, argv := s.argv ++ [s.dst]
    fault := s.fault || decide (argn ≤ s.argv.length) || r.1.fault }

/-- Where the loop of `opt_str2argv` ends. -/
def optArgvStopped (stop : Nat) (s : OptArgv) : Bool :=
  s.buf.getD s.str 0 == 0 || !decide (s.str < stop)

/-- `opt_str2argv` of the string at the start of the buffer. -/
def optStr2argv (buf : List UInt8) (argn : Nat) : OptArgv :=
  let stop := (cstr buf).length + 1
  let s := scan (optArgvRound argn stop) (optArgvStopped stop) buf.length ⟨buf, 0, 0, [], buf == []⟩
  { s with buf := s.buf.set s.dst 0, fault := s.fault || decide (s.buf.length ≤ s.dst) }

/-- The strings that `argv` points to, unless an access was outside of its object. -/
def OptArgv.strings (r : OptArgv) : Option (List (List UInt8)) :=
  if r.fault then none else some (r.argv.map fun p => cstr (r.buf.drop p))

end Bklib
