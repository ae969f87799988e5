import Bklib.Model.Array
import Bklib.Model.CInt

/-!
# `Bklib.Model.Hash`: the hash table of `hash.c`

The nodes of a table live inline in one `ArrayT` per bucket. A node holds a key pointer and a
value pointer. With `m_key_sz` (`m_val_sz`) zero the pointer is the caller's; otherwise the key
(value) bytes follow the node header and the pointer points there. Such a pointer goes stale
when the block of the bucket moves or when the nodes shift, and `hash_get` and `hash_foreach`
store it anew before they use it.

`NodePtr.read` models this: a pointer into a node reads the bytes of that node only when it
points at the place where the node is now. A stale pointer reads nothing.

Keys and values are seen as the objects behind the pointers. `addrOf n` is the address of the
`n`-th block that the table allocates; it is arbitrary, so a block may stay where it is or move.
`hash_set_free` has no caller, so no free function is modelled. The allocations succeed, and the number of
nodes does not leave the range of an `int`.
-/

set_option autoImplicit false

namespace Bklib

/-- A key or value pointer of a node. -/
inductive NodePtr (α : Type) where
  | null
  /-- The caller's pointer, seen as the object behind it. -/
  | caller (x : α)
  /-- The bytes behind the header of the node at `idx` of the block at address `block`. -/
  | inNode (block idx : Nat)
  deriving DecidableEq

/-- What a pointer of the node at `idx` of `block` reads, `mem` being the node's own bytes. -/
def NodePtr.read {α : Type} (block idx : Nat) (mem : Option α) : NodePtr α → Option α
  | .null         => none
  | .caller x     => some x
  | .inNode b i => if b = block ∧ i = idx then mem else none

/-- `hash_node_t`, with the bytes that follow it: `none` stands for zero bytes. -/
structure HashNode (κ ν : Type) where
  nodeKey : NodePtr κ
  nodeVal : NodePtr ν
  nodeHash : UInt64
  keyMem : Option κ
  valMem : Option ν
  deriving DecidableEq

/-- A node as `array_add` leaves it. -/
def HashNode.zero {κ ν : Type} : HashNode κ ν := ⟨.null, .null, 0, none, none⟩

/-- A `hash_node_t*`: the node at `idx` of the bucket `bucket`. -/
structure NodeRef where
  bucket : Nat
  idx : Nat
  deriving DecidableEq

/-- The fields of `hash_t` that `hash_init` sets for good. -/
structure HashConf (κ : Type) where
  mCmp : κ → κ → Int
  mHash : κ → UInt64
  mKeySz : Nat
  mValSz : Nat

/-- `hash_t`. `mAllocs` counts the blocks allocated so far. -/
structure HashT (κ ν : Type) extends HashConf κ where
  mBucket : List (ArrayT (HashNode κ ν))
  mNodeCount : Int
  mAllocs : Nat

/-- `HASH_DEFAULT_BUCKETS`. -/
def hashDefaultBuckets : Nat := 17

variable {κ ν σ : Type}

/-- An embedded key: the key pointer is stored anew. -/
def HashConf.patchKey (c : HashConf κ) (block idx : Nat) (node : HashNode κ ν) : HashNode κ ν :=
  if c.mKeySz ≠ 0 then { node with nodeKey := .inNode block idx } else node

/-- An embedded value: the value pointer is stored anew. -/
def HashConf.patchVal (c : HashConf κ) (block idx : Nat) (node : HashNode κ ν) : HashNode κ ν :=
  if c.mValSz ≠ 0 then { node with nodeVal := .inNode block idx } else node

namespace HashT

/-- `m_bucket_count`. -/
def mBucketCount (self : HashT κ ν) : Nat := self.mBucket.length

/-- The bucket of a hash value. -/
def slot (self : HashT κ ν) (h : UInt64) : Nat := h.toNat % self.mBucketCount

/-- The node behind a `hash_node_t*`. -/
def nodeAt (self : HashT κ ν) (ref : NodeRef) : Option (HashNode κ ν) :=
  self.mBucket[ref.bucket]?.bind fun arr => arr.elts[ref.idx]?

/-- What `node->node_key` reads. -/
def readKey (self : HashT κ ν) (ref : NodeRef) : Option κ :=
  self.mBucket[ref.bucket]?.bind fun arr =>
    arr.elts[ref.idx]?.bind fun n => n.nodeKey.read arr.mArray ref.idx n.keyMem

/-- What `node->node_val` reads. -/
def readVal (self : HashT κ ν) (ref : NodeRef) : Option ν :=
  self.mBucket[ref.bucket]?.bind fun arr =>
    arr.elts[ref.idx]?.bind fun n => n.nodeVal.read arr.mArray ref.idx n.valMem

end HashT

/-- `hash_count`. -/
def hashCount (self : HashT κ ν) : Int := self.mNodeCount

/-- The loop of `hash_get`, from element `i - 1` of the bucket down. -/
def hashGetScan (self : HashT κ ν) (key : κ) (h : UInt64) :
    ArrayT (HashNode κ ν) → Nat → ArrayT (HashNode κ ν) × Option Nat
  | arr, 0     => (arr, none)
  | arr, i + 1 =>
      match arr.elts[i]? with
      | none      => (arr, none)
      | some node =>
          if h ≠ node.nodeHash then hashGetScan self key h arr i
          else
            let node := self.patchKey arr.mArray i node
            let arr := { arr with elts := arr.elts.set i node }
            match node.nodeKey.read arr.mArray i node.keyMem with
            | none   => hashGetScan self key h arr i  -- a stale pointer: never the case
            | some k =>
                if self.mCmp key k = 0 then
                  ({ arr with elts := arr.elts.set i (self.patchVal arr.mArray i node) }, some i)
                else hashGetScan self key h arr i

/-- `hash_get`. -/
def hashGet (self : HashT κ ν) (key : κ) : HashT κ ν × Option NodeRef :=
  let h := self.mHash key
  match self.mBucket[self.slot h]? with
  | none     => (self, none)
  | some arr =>
      let (arr, i) := hashGetScan self key h arr (arrayCount arr)
      ({ self with mBucket := self.mBucket.set (self.slot h) arr }, i.map (NodeRef.mk (self.slot h)))

/-- `hash_free`. The node is removed from the bucket that its hash names. -/
def hashFree (self : HashT κ ν) (node : Option NodeRef) : HashT κ ν :=
  match node with
  | none     => self
  | some ref =>
      match self.nodeAt ref with
      | none      => self
      | some node =>
          { self with
            mBucket := self.mBucket.modify (self.slot node.nodeHash) (arrayRemoveIdx · ref.idx 1)
            mNodeCount := self.mNodeCount - 1 }

/-- `hash_remove`. -/
def hashRemove (self : HashT κ ν) (key : κ) : HashT κ ν :=
  let (self, node) := hashGet self key
  hashFree self node

/-- `array_add` on the bucket of `node`'s hash, and the node copied into the new place. -/
def hashAppendNode (addrOf : Nat → Nat) (self : HashT κ ν) (node : HashNode κ ν) : HashT κ ν :=
  { self with
    mBucket := self.mBucket.modify (self.slot node.nodeHash) fun arr =>
      (arrayAppend HashNode.zero (addrOf self.mAllocs) arr node).1
    mAllocs := self.mAllocs + 1 }

/-- `hash_resize`: every node moves to its bucket in a new table of `buckets` buckets, from the
last node of each old bucket to the first. -/
def hashResize (addrOf : Nat → Nat) (self : HashT κ ν) (buckets : Nat) : HashT κ ν :=
  (self.mBucket.flatMap fun arr => arr.elts.reverse).foldl (hashAppendNode addrOf)
    { self with mBucket := List.replicate buckets (arrayInit 1) }

/-- The loop of `hash_resize_next`. The shift is on a 32-bit `int`, so `i` passes through
`-2 ^ 31` to `0` when no larger power of two is left. -/
def hashResizeNextLoop (buckets : Int) : Nat → Int → Int
  | 0,        i => i
  | fuel + 1, i =>
      if i ≠ 0 ∧ i ≤ buckets then hashResizeNextLoop buckets fuel (toInt32 (2 * i)) else i

/-- `hash_resize_next`: the next bigger `2 ^ n + 1`. -/
def hashResizeNext (buckets : Int) : Int :=
  let i := hashResizeNextLoop buckets 33 1
  (if i = 0 then buckets else i) + 1

/-- `hash_init`. -/
def hashInit (hash : κ → UInt64) (cmp : κ → κ → Int) (keySz valSz : Nat) (buckets : Int) :
    HashT κ ν where
  mBucket := List.replicate (if buckets ≤ 0 then hashDefaultBuckets else buckets.toNat) (arrayInit 1)
  mCmp := cmp
  mHash := hash
  mNodeCount := 0
  mKeySz := keySz
  mValSz := valSz
  mAllocs := 0

/-- The growth step of `hash_put`. The product is on a 32-bit `int`. -/
def hashGrow (addrOf : Nat → Nat) (self : HashT κ ν) : HashT κ ν :=
  if self.mNodeCount > toInt32 (3 * self.mBucketCount) then
    hashResize addrOf self (hashResizeNext self.mBucketCount).toNat
  else self

/-- The node that `hash_put` fills in: the pointers of the caller, or the caller's bytes behind
the header of the node at `ref`. A null value leaves the embedded value bytes zero. -/
def hashNewNode (self : HashT κ ν) (block idx : Nat) (key : κ) (val : Option ν) :
    HashNode κ ν where
  nodeKey := if self.mKeySz ≠ 0 then .inNode block idx else .caller key
  nodeVal :=
    if self.mValSz ≠ 0 then .inNode block idx
    else match val with
      | none   => .null
      | some v => .caller v
  nodeHash := self.mHash key
  keyMem := if self.mKeySz ≠ 0 then some key else none
  valMem := if self.mValSz ≠ 0 then val else none

/-- `hash_put`. The result is the table and the new node. -/
def hashPut (addrOf : Nat → Nat) (self : HashT κ ν) (key : κ) (val : Option ν) :
    HashT κ ν × Option NodeRef :=
  let self := hashGrow addrOf (hashRemove self key)
  let i := self.slot (self.mHash key)
  match self.mBucket[i]? with
  | none     => (self, none)
  | some arr =>
      let (arr, p) := arrayAdd HashNode.zero (addrOf self.mAllocs) arr 1
      match p with
      | none   => (self, none)
      | some p =>
          let arr := { arr with elts := arr.elts.set p (hashNewNode self arr.mArray p key val) }
          ({ self with
              mBucket := self.mBucket.set i arr
              mNodeCount := self.mNodeCount + 1
              mAllocs := self.mAllocs + 1 }, some ⟨i, p⟩)

/-- Store the key and value pointers of the node at `ref` anew, as `hash_foreach` does. -/
def HashT.patchAt (self : HashT κ ν) (ref : NodeRef) : HashT κ ν :=
  { self with
    mBucket := self.mBucket.modify ref.bucket fun arr =>
      { arr with
        elts := arr.elts.modify ref.idx fun n =>
          self.patchVal arr.mArray ref.idx (self.patchKey arr.mArray ref.idx n) } }

/-- The pointer points at the place where the node is now. -/
def NodePtr.inPlace {α : Type} (block idx : Nat) : NodePtr α → Bool
  | .inNode b i => b = block && i = idx
  | _           => false

/-- A write of the embedded value through `node->node_val`. -/
def HashT.writeVal (self : HashT κ ν) (ref : NodeRef) (val : ν) : HashT κ ν :=
  { self with
    mBucket := self.mBucket.modify ref.bucket fun arr =>
      { arr with
        elts := arr.elts.modify ref.idx fun n =>
          if n.nodeVal.inPlace arr.mArray ref.idx then { n with valMem := some val } else n } }

/-- The inner loop of `hash_foreach` on bucket `b`, from node `j - 1` down. The callback gets the
table, the node and its argument, and gives them back with its result. -/
def hashForeachBucket (func : HashT κ ν → NodeRef → σ → HashT κ ν × σ × Int) (b : Nat) :
    Nat → HashT κ ν → σ → HashT κ ν × σ × Int
  | 0,     self, arg => (self, arg, 0)
  | j + 1, self, arg =>
      let (self, arg, n) := func (self.patchAt ⟨b, j⟩) ⟨b, j⟩ arg
      if n ≠ 0 then (self, arg, n) else hashForeachBucket func b j self arg

/-- The outer loop of `hash_foreach` over `n` buckets from bucket `b` on. -/
def hashForeachFrom (func : HashT κ ν → NodeRef → σ → HashT κ ν × σ × Int) :
    Nat → Nat → HashT κ ν → σ → HashT κ ν × σ × Int
  | _, 0,     self, arg => (self, arg, 0)
  | b, n + 1, self, arg =>
      let count := (self.mBucket[b]?.map arrayCount).getD 0
      let (self, arg, r) := hashForeachBucket func b count self arg
      if r ≠ 0 then (self, arg, r) else hashForeachFrom func (b + 1) n self arg

/-- `hash_foreach`. The callback may free its node; it does not resize the table. -/
def hashForeach (func : HashT κ ν → NodeRef → σ → HashT κ ν × σ × Int) (self : HashT κ ν)
    (arg : σ) : HashT κ ν × σ × Int :=
  hashForeachFrom func 0 self.mBucketCount self arg

/-- `hash_hash_int`. -/
def hashHashInt (key : UInt64) : UInt64 := key

/-- `hash_cmp_int`: the difference of two pointers, cut to an `int`. -/
def hashCmpInt (key1 key2 : UInt64) : Int := natToInt32 (key1 - key2).toNat

/-- One round of the loop of `hash_str_elf`. -/
def hashStrElfStep (h : UInt64) (c : UInt8) : UInt64 :=
  let h := (h <<< 4) + c.toUInt64
  let g := h &&& 0xF0000000
  let h := if g ≠ 0 then h ^^^ (g >>> 24) else h
  h &&& ~~~g

/-- `hash_str_elf`, which is `hash_str_elf_nocase` without folding. -/
def hashStrElf (q : List UInt8) (h : UInt64) : UInt64 := q.foldl hashStrElfStep h

/-- `hash_hash_str`. The comparison that goes with it, `hash_cmp_str`, is `strcmp`. -/
def hashHashStr (key : List UInt8) : UInt64 := hashStrElf key 0

end Bklib
