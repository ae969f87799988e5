import Bklib.Model.Hash

/-!
# `Bklib.Model.Pool`: the pointer pool of `pool.c`

A pool is a hash table from pointers to `pool_node_t`. The pointer is the key itself
(`m_key_sz` is 0) and the node is embedded in the table (`m_val_sz` is its size), so `pool_find`
yields a place in the table and every field is read and written there.

A release function is an opaque name of type `φ`. What runs is recorded in `released`, oldest
first; the functions do not call back into the pool. `calloc` and `strdup` are inputs: the pointer
that they return, null when they fail.
-/

set_option autoImplicit false

namespace Bklib

variable {φ : Type}

/-- `pool_node_t`. -/
structure PoolNode (φ : Type) where
  ptr : UInt64
  refcount : Int
  /-- The release function, `none` for a null pointer. -/
  free : Option φ
  arg : UInt64
  deriving DecidableEq

/-- A call that releases a pointer. -/
inductive Release (φ : Type) where
  /-- `(*p->free)(p->ptr, p->arg)`. -/
  | call (func : φ) (ptr arg : UInt64)
  /-- `free(p->ptr)`. -/
  | free (ptr : UInt64)
  deriving DecidableEq

/-- The pointer that a call releases. -/
def Release.ptr : Release φ → UInt64
  | call _ ptr _ => ptr
  | free ptr     => ptr

/-- How a node is released: by its function, or by `free`. -/
def PoolNode.release (p : PoolNode φ) : Release φ :=
  match p.free with
  | some func => .call func p.ptr p.arg
  | none      => .free p.ptr

/-- `pool_t`, with the releases so far. -/
structure PoolT (φ : Type) where
  hash : HashT UInt64 (PoolNode φ)
  released : List (Release φ)

/-- `sizeof(pool_node_t)`. -/
def poolNodeSize : Nat := 32

/-- `pool_new`. -/
def poolNew : PoolT φ where
  hash := hashInit hashHashInt hashCmpInt 0 poolNodeSize 0
  released := []

/-- `pool_foreach_free`. -/
def poolForeachFree (hash : HashT UInt64 (PoolNode φ)) (node : NodeRef)
    (released : List (Release φ)) : HashT UInt64 (PoolNode φ) × List (Release φ) × Int :=
  match hash.readVal node with
  | none   => (hash, released, 0)
  | some p => (hash, released ++ [p.release], 0)

/-- `pool_delete`: all the calls that released a pointer, up to the end of the pool. -/
def poolDelete (pool : PoolT φ) : List (Release φ) :=
  (hashForeach poolForeachFree pool.hash pool.released).2.1

/-- `pool_clear`. The blocks of the new table are allocated after those of the old one. -/
def poolClear (pool : PoolT φ) : PoolT φ where
  hash := { (poolNew : PoolT φ).hash with mAllocs := pool.hash.mAllocs }
  released := (hashForeach poolForeachFree pool.hash pool.released).2.1

/-- `pool_find`: where the node is and what it holds. -/
def poolFind (pool : PoolT φ) (ptr : UInt64) : PoolT φ × Option (NodeRef × PoolNode φ) :=
  let (hash, node) := hashGet pool.hash ptr
  ({ pool with hash := hash }, node.bind fun ref => (hash.readVal ref).map (ref, ·))

/-- `pool_remove`. -/
def poolRemove (pool : PoolT φ) (ptr : UInt64) : PoolT φ :=
  { pool with hash := hashRemove pool.hash ptr }

/-- The node at `ref` with another reference count. The count is a 32-bit `int`. -/
def PoolT.setRefcount (pool : PoolT φ) (ref : NodeRef) (p : PoolNode φ) (refcount : Int) :
    PoolT φ × PoolNode φ :=
  let p := { p with refcount := toInt32 refcount }
  ({ pool with hash := pool.hash.writeVal ref p }, p)

/-- `pool_addref`. -/
def poolAddref (pool : PoolT φ) (ptr : UInt64) : PoolT φ × Int :=
  if ptr = 0 then (pool, 0)
  else
    match poolFind pool ptr with
    | (pool, none)          => (pool, 0)
    | (pool, some (ref, p)) =>
        let (pool, p) := pool.setRefcount ref p (p.refcount + 1)
        (pool, p.refcount)

/-- `pool_free`. -/
def poolFree (pool : PoolT φ) (ptr : UInt64) : PoolT φ :=
  if ptr = 0 then pool
  else
    match poolFind pool ptr with
    | (pool, none)          => pool
    | (pool, some (ref, p)) =>
        let (pool, p) := pool.setRefcount ref p (p.refcount - 1)
        if p.refcount ≤ 0 then
          poolRemove { pool with released := pool.released ++ [p.release] } ptr
        else pool

/-- `pool_add`. The table gets a node with zeroed value bytes, which are then filled in. -/
def poolAdd (addrOf : Nat → Nat) (pool : PoolT φ) (ptr : UInt64) (free : Option φ)
    (arg : UInt64) : PoolT φ × UInt64 :=
  let pool := poolFree pool ptr
  match hashPut addrOf pool.hash ptr none with
  | (hash, none)     => ({ pool with hash := hash }, ptr)  -- `hash_put` always has a node
  | (hash, some ref) => ({ pool with hash := hash.writeVal ref ⟨ptr, 1, free, arg⟩ }, ptr)

/-- `pool_malloc`, `block` being what `calloc` returns. -/
def poolMalloc (addrOf : Nat → Nat) (pool : PoolT φ) (block : UInt64) : PoolT φ × UInt64 :=
  poolAdd addrOf pool block none 0

/-- `pool_strdup`, `copy` being what `strdup` returns. -/
def poolStrdup (addrOf : Nat → Nat) (pool : PoolT φ) (str copy : UInt64) : PoolT φ × UInt64 :=
  if str = 0 then (pool, 0) else poolAdd addrOf pool copy none 0

/-- `pool_realloc`, `block` being what `realloc` returns. -/
def poolRealloc (addrOf : Nat → Nat) (pool : PoolT φ) (ptr block : UInt64) : PoolT φ × UInt64 :=
  poolAdd addrOf (poolRemove pool ptr) block none 0

end Bklib
