import Bklib.Lib.Scan
import Bklib.Model.CInt
import Bklib.Model.Http

/-!
# `Bklib.Model.HttpCgi`: percent code and argument lists of `http.c`

`httpCgiEnc` and `httpCgiDec` write into memory that their source is not in, so they are modelled by
the bytes they write from `dst` on. `httpCgiArgs` reads from memory that goes on behind the range its
caller names; `beyond` says that it read there.
-/

set_option autoImplicit false

namespace Bklib

open Lib (scan)

/-! ## Percent code -/

/-- The character that two digits stand for. `hex` is NUL-terminated behind them. -/
def httpCgiHexVal (a b : UInt8) : UInt8 := UInt8.ofNat ((strtoul16 (cstr [a, b])).1 % 256)

/-- The loop of `http_cgi_dec`: `out` is what lies between `dst_orig` and `dst`. An escape without its
two digits is an `assertb` that ends the loop. -/
def httpCgiDecLoop (dstLen : Int) : List UInt8 → List UInt8 → List UInt8
  | out, []        => out
  | out, ch :: src =>
      if (out.length : Int) < dstLen then
        if ch = 37 then
          match src with
          | a :: b :: src => httpCgiDecLoop dstLen (out ++ [httpCgiHexVal a b]) src
          -- fewer than two characters behind the `%`
          | _             => out
        else httpCgiDecLoop dstLen (out ++ [ch]) src
      else out

/-- `http_cgi_dec`: the bytes written, and the result. -/
def httpCgiDec (src : List UInt8) (dstLen : Int) : List UInt8 × Int :=
  let out := httpCgiDecLoop dstLen [] src
  if dstLen ≤ out.length then (out, 0) else (out ++ [0], out.length)

/-- The letters, digits, `-` and `_`, which stand for themselves. -/
def httpCgiPlain (ch : UInt8) : Bool := isalnum ch || ch == 45 || ch == 95

/-- What `snprintf (.., "%%%02x", (int) *src)` would write with room for it. `*src` is signed. -/
def httpCgiEscape (ch : UInt8) : List UInt8 :=
  let ds := (Nat.toDigits 16 (charToInt ch % 2 ^ 32).toNat).map fun c => c.toNat.toUInt8
  37 :: (List.replicate (2 - ds.length) 48 ++ ds)

/-- The loop of `http_cgi_enc`, which runs while `dst > dst_end`. An escape is cut to two characters
and a NUL, and `dst` goes three on. -/
def httpCgiEncLoop (dstLen : Int) : List UInt8 → List UInt8 → List UInt8
  | out, []        => out
  | out, ch :: src =>
      -- `dst > dst_end`, the other way round
      if dstLen < out.length then
        if httpCgiPlain ch then httpCgiEncLoop dstLen (out ++ [ch]) src
        else if 3 ≤ dstLen - out.length then
          httpCgiEncLoop dstLen (out ++ ((httpCgiEscape ch).take 2 ++ [0])) src
        else out
      else out

/-- `http_cgi_enc`: the bytes written, and whether it returns `dst`. -/
def httpCgiEnc (src : List UInt8) (dstLen : Int) : List UInt8 × Bool :=
  let out := httpCgiEncLoop dstLen [] src
  (out, decide ((out.length : Int) < dstLen))

/-! ## Argument lists -/

/-- `http_cgi_args` at work. `node` is the last of the list, and `inVal` says that `pkv` points to its
value. -/
structure CgiArgs where
  src   : Nat
  word  : Nat
  first : List HttpKeyval
  node  : HttpKeyval
  inVal : Bool
  /-- An `assertb` failed. -/
  error : Bool
  deriving DecidableEq

/-- `*pkv = str`. -/
def CgiArgs.store (s : CgiArgs) (str : List UInt8) : CgiArgs :=
  { s with node := if s.inVal then { s.node with val := some str } else { s.node with key := some str } }

/-- A word, decoded. `buf` has room for `len` bytes, and what is copied is as long as the result. -/
def httpCgiWord (mem : List UInt8) (len : Nat) (s : CgiArgs) : List UInt8 :=
  let r := httpCgiDec ((mem.drop s.word).take (s.src - s.word)) len
  r.1.take r.2.toNat

/-- A round of the loop. At a delimiter `src` moves on twice. -/
def httpCgiRound (mem : List UInt8) (len : Nat) (s : CgiArgs) : CgiArgs :=
  let ch := mem.getD s.src 0
  if ch ≠ 38 ∧ ch ≠ 61 then { s with src := s.src + 1 }
  else
    let s := s.store (httpCgiWord mem len s)
    if ch = 38 then
      { s with
        first := s.first ++ [s.node], node := ⟨none, none⟩, inVal := false
        src := s.src + 2, word := s.src + 1 }
    else if s.node.val = none then
      -- the first `=` of an argument; at the second one the `assertb` fails
      { s with inVal := true, src := s.src + 2, word := s.src + 1 }
    else { s with error := true }

/-- Where the loop ends. -/
def httpCgiStopped (len : Nat) (s : CgiArgs) : Bool := s.error || !decide (s.src < len)

/-- What `http_cgi_args` leaves. -/
structure CgiOut where
  /-- The list, unless the result is null. -/
  args : Option (List HttpKeyval)
  /-- A byte was read outside of `src[0..src_len)`. -/
  beyond : Bool
  deriving DecidableEq

/-- `http_cgi_args` with `len` as `src_len` from then on. -/
def httpCgiArgsLen (mem : List UInt8) (len : Nat) : CgiOut :=
  let s := scan (httpCgiRound mem len) (httpCgiStopped len) len ⟨0, 0, [], ⟨none, none⟩, false, false⟩
  -- left by the `assertb`
  if s.src < len then ⟨none, false⟩
  -- a word is left, which may lie behind the text by one character
  else if s.word < s.src then
    ⟨some (s.first ++ [(s.store (httpCgiWord mem len s)).node]), decide (len < s.src)⟩
  else ⟨some (s.first ++ [s.node]), false⟩

/-- `src_len` from the first statement on. The length of a string is brought into an `int`. -/
def httpCgiLen (mem : List UInt8) (srcLen : Int) : Int :=
  if srcLen ≤ 0 then natToInt32 (cstr mem).length else srcLen

/-- `http_cgi_args`. A length below 0 is one that `pool_malloc` fails for, and then the word that is
decoded in the end is at a null pointer. -/
def httpCgiArgs (mem : List UInt8) (srcLen : Int) : CgiOut :=
  let len := httpCgiLen mem srcLen
  if len < 0 then ⟨none, true⟩ else httpCgiArgsLen mem len.toNat

end Bklib
