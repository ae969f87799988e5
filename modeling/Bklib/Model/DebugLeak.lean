import Bklib.Model.Hash
import Bklib.Model.Libc

/-!
# `Bklib.Model.DebugLeak`: the leak accounting of `debug_leak.c`

A hash table holds a `debug_leak_rec_t` for each live pointer. The pointer is the key itself
(`m_key_sz` is 0) and the record is embedded in the table, its stack of locations being an array of
its own.

The static table starts as zero bytes, without a hash function, and `debug_leak_init_done` says
whether `hash_init` has run on it. Both are the option `hash`: `none` is the zeroed table. A call
that needs the hash function of the zeroed table jumps through a null pointer and has no result.

A `file` is the C string behind the caller's `char*`, which stays alive and unchanged. What
`debug_hdr` and `debugf` print is left out.
-/

set_option autoImplicit false

namespace Bklib

/-- `debug_leak_stack_rec_t`. -/
structure LeakLoc where
  file : List UInt8
  line : Int32
  deriving DecidableEq

/-- The zeroed element of `array_add`, with a null `file`. -/
def LeakLoc.zero : LeakLoc := ⟨[], 0⟩

/-- `debug_leak_rec_t`. -/
structure LeakRec where
  ptr : UInt64
  counter : Int
  mStack : ArrayT LeakLoc

/-- The static variables: `debug_leak_hash` with `debug_leak_init_done`, and
`debug_leak_counter`. -/
structure DebugLeak where
  hash : Option (HashT UInt64 LeakRec)
  counter : Int

/-- The static variables at the start of the program. -/
def DebugLeak.static : DebugLeak := ⟨none, 0⟩

/-- `sizeof(debug_leak_rec_t)`. -/
def leakRecSize : Nat := 56

/-- `debug_leak_rec_init`: the record, and the counter, which is an `int`. -/
def debugLeakRecInit (counter : Int) (ptr : UInt64) : LeakRec × Int :=
  let counter := toInt32 (counter + 1)
  (⟨ptr, counter, arrayInit 1⟩, counter)

/-- `debug_leak_rec_free`. -/
def debugLeakRecFree (rec : LeakRec) : LeakRec := { rec with mStack := arrayClear rec.mStack }

/-- `debug_leak_init_f`. -/
def debugLeakInitF (self : DebugLeak) : DebugLeak :=
  match self.hash with
  | some _ => self
  | none   => { self with hash := some (hashInit hashHashInt hashCmpInt 0 leakRecSize 0) }

/-- `debug_leak_stack_f`. No pointer into a stack is kept, so the address of its block does not
matter. -/
def debugLeakStackF (self : DebugLeak) (ptr : UInt64) (file : List UInt8) (line : Int32) :
    Option DebugLeak :=
  self.hash.bind fun hash =>
    match hashGet hash ptr with
    | (hash, none)     => some { self with hash := some hash }  -- a warning: unknown pointer
    | (hash, some ref) =>
        (hash.readVal ref).map fun rec =>
          let stack := (arrayAppend LeakLoc.zero 1 rec.mStack ⟨file, line⟩).1
          { self with hash := some (hash.writeVal ref { rec with mStack := stack }) }

/-- The node of a pointer, when it has one, is freed with its record. `debug_leak_create_f` (after a
warning: allocated twice) and `debug_leak_delete_f` do this. -/
def debugLeakRecDrop (hash : HashT UInt64 LeakRec) (ptr : UInt64) :
    Option (HashT UInt64 LeakRec) :=
  match hashGet hash ptr with
  | (hash, none)     => some hash
  | (hash, some ref) =>
      (hash.readVal ref).map fun rec =>
        hashFree (hash.writeVal ref (debugLeakRecFree rec)) (some ref)

/-- `debug_leak_create_f`. -/
def debugLeakCreateF (addrOf : Nat → Nat) (self : DebugLeak) (ptr : UInt64) (file : List UInt8)
    (line : Int32) : Option DebugLeak :=
  let self := debugLeakInitF self
  self.hash.bind fun hash =>
    (debugLeakRecDrop hash ptr).bind fun hash =>
      match hashPut addrOf hash ptr none with
      | (_, none)        => none  -- `hash_put` always has a node
      | (hash, some ref) =>
          let (rec, counter) := debugLeakRecInit self.counter ptr
          debugLeakStackF ⟨some (hash.writeVal ref rec), counter⟩ ptr file line

/-- `debug_leak_delete_f`. Only the warning about an unknown pointer reads the location. -/
def debugLeakDeleteF (self : DebugLeak) (ptr : UInt64) (_file : List UInt8) (_line : Int32) :
    Option DebugLeak :=
  self.hash.bind fun hash =>
    (debugLeakRecDrop hash ptr).map fun hash => { self with hash := some hash }

/-! ### Counting by line -/

/-- `debug_leak_by_line_t`. -/
structure LeakByLine where
  file : List UInt8
  line : Int32
  count : Int
  deriving DecidableEq

/-- `sizeof(debug_leak_by_line_t)`. -/
def leakByLineSize : Nat := 16

/-- `(void*)(intptr_t)line`. -/
def linePtr (line : Int32) : UInt64 := line.toInt64.toUInt64

/-- `debug_leak_by_line_hash_hash`. -/
def debugLeakByLineHashHash (a : LeakByLine) : UInt64 :=
  hashHashStr a.file + hashHashInt (linePtr a.line)

/-- `debug_leak_by_line_hash_cmp`. -/
def debugLeakByLineHashCmp (a b : LeakByLine) : Int :=
  let i := strcmp a.file b.file
  if i = 0 then hashCmpInt (linePtr a.line) (linePtr b.line) else i

/-- The table that `debug_leak_by_line_f` collects into, as `hash_init` leaves it. -/
def leakByLineInit : HashT LeakByLine LeakByLine :=
  hashInit debugLeakByLineHashHash debugLeakByLineHashCmp leakByLineSize leakByLineSize 0

/-- The body of `debug_leak_by_line_foreach_hash` from the record of a location on. The record is
the key and, for a new node, the value as well. The count is an `int`. -/
def leakByLineCount (addrOf : Nat → Nat) (byLine : HashT LeakByLine LeakByLine) (loc : LeakLoc) :
    HashT LeakByLine LeakByLine :=
  let byLineRec : LeakByLine := ⟨loc.file, loc.line, 0⟩
  let (byLine, node) :=
    match hashGet byLine byLineRec with
    | (byLine, some node) => (byLine, some node)
    | (byLine, none)      => hashPut addrOf byLine byLineRec (some byLineRec)
  match node with
  | none     => byLine
  | some ref =>
      match byLine.readVal ref with
      | none           => byLine  -- a stale pointer: never the case
      | some byLinePtr =>
          byLine.writeVal ref { byLinePtr with count := toInt32 (byLinePtr.count + 1) }

/-- `debug_leak_by_line_foreach_hash`. A record without a location is left out by `assertb`. -/
def debugLeakByLineForeachHash (addrOf : Nat → Nat) (hash : HashT UInt64 LeakRec) (node : NodeRef)
    (byLine : HashT LeakByLine LeakByLine) :
    HashT UInt64 LeakRec × HashT LeakByLine LeakByLine × Int :=
  match (hash.readVal node).bind fun rec => arrayElt rec.mStack 0 with
  | none     => (hash, byLine, 0)
  | some loc => (hash, leakByLineCount addrOf byLine loc, 0)

/-- The table of counts that `debug_leak_by_line_f` collects. The zeroed table has no buckets, so
`hash_foreach` makes no call. -/
def debugLeakByLineF (addrOf : Nat → Nat) (self : DebugLeak) : HashT LeakByLine LeakByLine :=
  match self.hash with
  | none      => leakByLineInit
  | some hash => (hashForeach (debugLeakByLineForeachHash addrOf) hash leakByLineInit).2.1

end Bklib
