import Mathlib.Data.List.FinRange
import Mathlib.Logic.Function.Basic

/-!
# The page pool behind one mutex

A transcription of `PagePool`. Each call holds `mtx_` to its end, so it is one
function. Page ids are in range and the clock is read once a call; its readings
are in nanoseconds and are arguments. A negative `n` is left out, on which `alloc`
throws in `reserve`; device pointers and page sizes are not modelled.
-/

namespace AmpFormal.PagePoolModel

set_option autoImplicit false

structure Page where
  refcount : Int
  owner : String
  allocTs : Int
  touchTs : Int
  freed : Bool
  deriving DecidableEq, Repr

structure PagePool (pages : Nat) where
  page : Fin pages → Page
  freeList : List (Fin pages)
  allocCnt : UInt64
  freeCnt : UInt64

structure PoolStats where
  total : Nat
  inUse : Nat
  free : Nat
  allocCnt : UInt64
  freeCnt : UInt64
  deriving DecidableEq, Repr

inductive Call (pages : Nat) where
  | alloc (traceId : String) (n : Nat) (now : Int)
  | freePages (ids : List (Fin pages))
  | touch (ids : List (Fin pages)) (now : Int)
  | leakScan (ttlMs : Int) (now : Int)
  deriving DecidableEq, Repr

namespace PagePool

variable {pages : Nat}

/-- The constructor: every page is freed and listed. -/
def create (pages : Nat) : PagePool pages where
  page := fun _ => { refcount := 0, owner := "", allocTs := 0, touchTs := 0, freed := true }
  freeList := List.finRange pages
  allocCnt := 0
  freeCnt := 0

def setPage (pool : PagePool pages) (id : Fin pages) (page : Page) : PagePool pages :=
  { pool with page := Function.update pool.page id page }

/-- The loop of `alloc`: takes pages from the back of the free list. -/
def takeLoop (traceId : String) (now : Int) :
    Nat → PagePool pages → List (Fin pages) → PagePool pages × List (Fin pages)
  | 0, pool, out => (pool, out)
  | missing + 1, pool, out =>
      match pool.freeList.getLast? with
      | none => (pool, out)
      | some id =>
          let pool := { pool with freeList := pool.freeList.dropLast }
          let page : Page :=
            { refcount := 1, owner := traceId, allocTs := now, touchTs := now, freed := false }
          takeLoop traceId now missing (pool.setPage id page) (out ++ [id])

def alloc (pool : PagePool pages) (traceId : String) (n : Nat) (now : Int) :
    PagePool pages × List (Fin pages) :=
  if pool.freeList.length < n then (pool, [])
  else
    let (pool, out) := takeLoop traceId now n pool []
    ({ pool with allocCnt := pool.allocCnt + UInt64.ofNat n }, out)

def release (pool : PagePool pages) (id : Fin pages) : PagePool pages :=
  { pool.setPage id { pool.page id with refcount := 0, owner := "", freed := true } with
    freeList := pool.freeList ++ [id]
    freeCnt := pool.freeCnt + 1 }

/-- One iteration of `free_pages`: a page that is freed already is skipped. -/
def freePage (pool : PagePool pages) (id : Fin pages) : PagePool pages :=
  if (pool.page id).freed then pool else pool.release id

def freePages (pool : PagePool pages) (ids : List (Fin pages)) : PagePool pages :=
  ids.foldl freePage pool

def touch (pool : PagePool pages) (ids : List (Fin pages)) (now : Int) : PagePool pages :=
  ids.foldl (fun pool id => pool.setPage id { pool.page id with touchTs := now }) pool

/-- The pages `leak_scan` collects: the age is truncated to milliseconds. -/
def orphans (pool : PagePool pages) (ttlMs now : Int) : List (Fin pages) :=
  (List.finRange pages).filter fun id =>
    !(pool.page id).freed && (now - (pool.page id).touchTs).tdiv 1000000 > ttlMs

/-- `PagePool::leak_scan`, with the number of pages it reclaimed. -/
def leakScan (pool : PagePool pages) (ttlMs now : Int) : PagePool pages × Nat :=
  let orphan := pool.orphans ttlMs now
  (orphan.foldl release pool, orphan.length)

def stats (pool : PagePool pages) : PoolStats where
  total := pages
  inUse := (List.finRange pages).countP fun id => !(pool.page id).freed
  free := pool.freeList.length
  allocCnt := pool.allocCnt
  freeCnt := pool.freeCnt

def step (pool : PagePool pages) : Call pages → PagePool pages
  | .alloc traceId n now => (pool.alloc traceId n now).1
  | .freePages ids => pool.freePages ids
  | .touch ids now => pool.touch ids now
  | .leakScan ttlMs now => (pool.leakScan ttlMs now).1

def run (pool : PagePool pages) (calls : List (Call pages)) : PagePool pages :=
  calls.foldl step pool

end PagePool

end AmpFormal.PagePoolModel
