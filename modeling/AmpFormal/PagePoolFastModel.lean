import AmpFormal.LinkedStack
import Mathlib.Data.List.FinRange

/-!
# The sharded page pool, one call at a time

A transcription of `PagePoolFast`: page metadata, the per-shard head cells and
the `next_` links. A head or link of `-1` is `none`. Each call runs to
completion, so a compare-exchange succeeds with the value just read; the same
memory under interleaved threads is the subject of `PagePoolFastThreads`. A
reading of `now_us()` is an argument. A negative `n` is left out, on which
`alloc` throws in `reserve`; device pointers are not modelled.
-/

namespace AmpFormal.PagePoolFastModel

open AmpFormal.LinkedStack

set_option autoImplicit false

/-- The shared memory of a pool of `pages` pages in `shards` shards. A page
with `touchUs = 0` is freed. -/
structure PagePoolFast (pages shards : Nat) where
  touchUs : Fin pages → UInt64
  shard : Fin pages → Fin shards
  head : Fin shards → Option (Fin pages)
  next : Fin pages → Option (Fin pages)
  allocCnt : UInt64
  freeCnt : UInt64

scoped instance defaultShards : NeZero 16 := ⟨by decide⟩

scoped instance lawfulPages {pages : Nat} : LawfulBEq (Fin pages) := inferInstance

structure PoolStats where
  total : Nat
  inUse : Nat
  allocCnt : UInt64
  freeCnt : UInt64
  deriving DecidableEq, Repr

namespace PagePoolFast

variable {pages shards : Nat}

/-- One successful pop: the head moves to the link of its top page, whose
timestamp is set. -/
def pop (pool : PagePoolFast pages shards) (shard : Fin shards) (top : Fin pages)
    (ts : UInt64) : PagePoolFast pages shards :=
  { pool with
    head := Function.update pool.head shard (pool.next top)
    touchUs := Function.update pool.touchUs top ts }

/-- One iteration of `free_pages`: the timestamp is cleared and the page is
linked on top of its own shard. -/
def push (pool : PagePoolFast pages shards) (id : Fin pages) : PagePoolFast pages shards :=
  { pool with
    touchUs := Function.update pool.touchUs id 0
    next := Function.update pool.next id (pool.head (pool.shard id))
    head := Function.update pool.head (pool.shard id) (some id) }

def create (pages shards : Nat) [NeZero shards] : PagePoolFast pages shards :=
  (List.finRange pages).foldl push
    { touchUs := fun _ => 0
      shard := fun id => Fin.ofNat shards id.val
      head := fun _ => none
      next := fun _ => none
      allocCnt := 0
      freeCnt := 0 }

/-- The inner loop of `alloc`: pops from one shard until `missing` further
pages are taken or the shard is empty. -/
def popLoop (ts : UInt64) (shard : Fin shards) :
    Nat → PagePoolFast pages shards → List (Fin pages) →
      PagePoolFast pages shards × List (Fin pages)
  | 0, pool, out => (pool, out)
  | missing + 1, pool, out =>
      match pool.head shard with
      | none => (pool, out)
      | some top => popLoop ts shard missing (pool.pop shard top ts) (out ++ [top])

/-- The outer loop of `alloc`: at most `tries` shards, in cyclic order. -/
def shardLoop [NeZero shards] (n : Nat) (ts : UInt64) :
    Nat → Fin shards → PagePoolFast pages shards → List (Fin pages) →
      PagePoolFast pages shards × List (Fin pages)
  | 0, _, pool, out => (pool, out)
  | tries + 1, shard, pool, out =>
      if out.length < n then
        let (pool, out) := popLoop ts shard (n - out.length) pool out
        shardLoop n ts tries (shard + 1) pool out
      else (pool, out)

def freePages (pool : PagePoolFast pages shards) (ids : List (Fin pages)) :
    PagePoolFast pages shards :=
  let pool := ids.foldl push pool
  { pool with freeCnt := pool.freeCnt + UInt64.ofNat ids.length }

/-- The shard an `alloc` starts at: `((unsigned)thread_hash) % n_shards_`. -/
def firstShard (shards : Nat) [NeZero shards] (threadHash : Int) : Fin shards :=
  Fin.ofNat shards (threadHash % 2 ^ 32).toNat

/-- `PagePoolFast::alloc`. A partial result is handed back by `free_pages`. -/
def alloc [NeZero shards] (pool : PagePoolFast pages shards) (n : Nat) (threadHash : Int)
    (ts : UInt64) : PagePoolFast pages shards × List (Fin pages) :=
  let (pool, out) := shardLoop n ts shards (firstShard shards threadHash) pool []
  if out.length < n then (pool.freePages out, [])
  else ({ pool with allocCnt := pool.allocCnt + UInt64.ofNat n }, out)

def touch (pool : PagePoolFast pages shards) (ids : List (Fin pages)) (ts : UInt64) :
    PagePoolFast pages shards :=
  { pool with touchUs := ids.foldl (fun touchUs id => Function.update touchUs id ts) pool.touchUs }

/-- The test `leak_scan` makes on one page, in 64-bit unsigned arithmetic. -/
def isStale (pool : PagePoolFast pages shards) (ttlMs : Int) (now : UInt64) (id : Fin pages) :
    Bool :=
  pool.touchUs id != 0 && now - pool.touchUs id > UInt64.ofInt ttlMs * 1000

def orphans (pool : PagePoolFast pages shards) (ttlMs : Int) (now : UInt64) : List (Fin pages) :=
  (List.finRange pages).filter (pool.isStale ttlMs now)

def leakScan (pool : PagePoolFast pages shards) (ttlMs : Int) (now : UInt64) :
    PagePoolFast pages shards × Nat :=
  let orphan := pool.orphans ttlMs now
  (pool.freePages orphan, orphan.length)

def stats (pool : PagePoolFast pages shards) : PoolStats where
  total := pages
  inUse := (List.finRange pages).countP fun id => pool.touchUs id != 0
  allocCnt := pool.allocCnt
  freeCnt := pool.freeCnt

/-- A page is on a free stack when some shard head reaches it. -/
def OnFreeStack (pool : PagePoolFast pages shards) (id : Fin pages) : Prop :=
  ∃ shard, Reachable pool.next (pool.head shard) id

end PagePoolFast

end AmpFormal.PagePoolFastModel
