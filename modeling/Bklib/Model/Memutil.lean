import Bklib.Model.Snprintf

/-!
# `Bklib.Model.Memutil`: `memfind` and `memdump` of `memutil.c`

The haystack and the needle are their bytes. A pointer into the haystack is an offset, and a read is
logged as the offset and the length of the range that may be read.

`memdump` reads its source, which is the list of its bytes, and appends texts to its buffer.
-/

set_option autoImplicit false

namespace Bklib

/-- `memchr (p, c, n)` on the `n` bytes at `p`, as `q - p`. -/
def memchr (mem : List UInt8) (c : UInt8) : Option Nat := mem.findIdx? (· = c)

theorem memchr_lt {mem : List UInt8} {c : UInt8} {i : Nat} (h : memchr mem c = some i) :
    i < mem.length :=
  (List.findIdx?_eq_some_iff_getElem.mp h).1

/-- The loop of `memfind`, with `len` bytes left at `p`: the result, and the reads. -/
def memfindLoop (hay needle : List UInt8) (p len : Nat) : Option Nat × List (Nat × Nat) :=
  if len < needle.length then (none, [])
  else
    -- `memchr` may read all that is left
    match _hq : memchr ((hay.drop p).take len) (needle.headD 0) with
    | none   => (none, [(p, len)])
    | some i =>
        if len - i < needle.length then (none, [(p, len)])
        else if memcmp ((hay.drop (p + i)).take needle.length) needle = 0 then
          (some (p + i), [(p, len), (p + i, needle.length)])
        else
          let r := memfindLoop hay needle (p + i + 1) (len - i - 1)
          (r.1, (p, len) :: (p + i, needle.length) :: r.2)
termination_by len
decreasing_by
  have hi := memchr_lt _hq
  rw [List.length_take] at hi
  omega

/-- `memfind`. -/
def memfind (hay needle : List UInt8) : Option Nat × List (Nat × Nat) :=
  memfindLoop hay needle 0 hay.length

/-! ## Dumps -/

/-- `isprint`. -/
def isprint (c : UInt8) : Bool := 32 ≤ c ∧ c ≤ 126

/-- `memdump_row`, with `x` bytes of the source behind the pointer `p`. It moves its own `buf` and
`len`, and its result is how far it has moved them, which its caller moves them by. -/
def memdumpRow (b : SnBuf) (src : List UInt8) (x : Nat) : SnBuf :=
  let r := if x % 16 = 0 then 16 else x % 16
  -- the columns without a byte
  let b := (List.range' r (16 - r)).foldl (fun b j =>
    let b := if j % 2 = 0 then b.add (bytes " ") else b
    b.add (bytes "  ")) b
  let b := b.add (bytes "  ")
  ((src.drop (x - r)).take r).foldl
    (fun b q => b.add [if isprint q ∧ ¬isspace q then q else 46]) b

/-- The loop of `memdump`, behind `x` bytes of the source. -/
def memdumpLoop (src : List UInt8) : Nat → List UInt8 → SnBuf → SnBuf
  | _, [],     b => b
  | x, c :: p, b =>
      let b :=
        if 0 < x ∧ x % 16 = 0 then (memdumpRow b src x).add (10 :: fmt4d x ++ bytes ":") else b
      let b := if x % 2 = 0 then b.add (bytes " ") else b
      memdumpLoop src (x + 1) p (b.add (fmt02x c))

/-- `memdump`: the buffer behind the dump. No result is negative, so no `BUF_ADD` leaves the loop,
and `memdump` returns the start of the buffer. -/
def memdump (b : SnBuf) (src : List UInt8) : SnBuf :=
  if src = [] then b
  else
    let b := b.add (fmt4d 0 ++ bytes ":")
    let b := memdumpLoop src 0 src b
    (memdumpRow b src src.length).add (bytes "\n")

end Bklib
