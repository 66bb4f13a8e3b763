import AmpFormal.CacheFastModel
import AmpFormal.TransitionRuns

/-!
# The two-tier cache with its index

`CacheStoreFast` with `clock_pos_`, the index from keys to nodes of `clock_order_`
that `CacheFastModel` leaves out. A node of the list is a key with an identity of
its own, as its iterator is. The keys evicted so far are recorded in a field that
no operation reads. Without the index and the record the operations are those of
`CacheFastModel`.
-/

namespace AmpFormal.CacheFastIndexModel

open AmpFormal.FileDirectory AmpFormal.CacheFastModel AmpFormal.TransitionRuns

set_option autoImplicit false

structure Node where
  id : Nat
  key : String
  deriving DecidableEq, Repr

structure IndexedCache where
  disk : Directory String
  l1 : String → Option Entry
  clockOrder : List Node
  clockPos : String → Option Nat
  /-- The identity of the next node. -/
  fresh : Nat
  l1Bytes : UInt64
  maxL1Bytes : UInt64
  l1Hits : UInt64
  l2Hits : UInt64
  misses : UInt64
  evictions : UInt64
  /-- The keys evicted so far, in order. -/
  evicted : List String

namespace IndexedCache

def create (disk : Directory String) (maxL1Bytes : UInt64) : IndexedCache where
  disk := disk
  l1 := fun _ => none
  clockOrder := []
  clockPos := fun _ => none
  fresh := 0
  l1Bytes := 0
  maxL1Bytes := maxL1Bytes
  l1Hits := 0
  l2Hits := 0
  misses := 0
  evictions := 0
  evicted := []

def setEntry (cache : IndexedCache) (key : String) (entry : Option Entry) : IndexedCache :=
  { cache with l1 := Function.update cache.l1 key entry }

def evict (cache : IndexedCache) (key : String) (entry : Entry) : IndexedCache :=
  { cache.setEntry key none with
    l1Bytes := cache.l1Bytes - size entry.data
    clockPos := Function.update cache.clockPos key none
    evictions := cache.evictions + 1
    evicted := cache.evicted ++ [key] }

/-- One pass of the clock over the rest of `clock_order_`, with the running byte
count `current`: what is left of the list, the cache and the byte count. -/
def clockScan (needed : UInt64) :
    List Node → IndexedCache → UInt64 → List Node × IndexedCache × UInt64
  | [], cache, current => ([], cache, current)
  | node :: rest, cache, current =>
      if current + needed > cache.maxL1Bytes then
        match cache.l1 node.key with
        | none => clockScan needed rest cache current
        | some entry =>
            if entry.recentlyUsed then
              -- first chance: clear the bit, skip
              let (order, after, current) := clockScan needed rest
                (cache.setEntry node.key (some { entry with recentlyUsed := false })) current
              (node :: order, after, current)
            else
              clockScan needed rest (cache.evict node.key entry) (current - size entry.data)
      else (node :: rest, cache, current)

def clockPasses (needed : UInt64) : Nat → IndexedCache → UInt64 → IndexedCache
  | 0, cache, _ => cache
  | passes + 1, cache, current =>
      if current + needed > cache.maxL1Bytes then
        let (order, after, current) := clockScan needed cache.clockOrder cache current
        clockPasses needed passes { after with clockOrder := order } current
      else cache

def evictToFit (cache : IndexedCache) (needed : UInt64) : IndexedCache :=
  if cache.maxL1Bytes = 0 then cache
  else if cache.l1Bytes + needed ≤ cache.maxL1Bytes then cache
  else clockPasses needed 2 cache cache.l1Bytes

def l1PutLocked (cache : IndexedCache) (key : String) (bin : Bytes) : IndexedCache :=
  let cache := cache.evictToFit (size bin)
  { cache.setEntry key (some { data := bin, recentlyUsed := true }) with
    clockOrder := cache.clockOrder ++ [{ id := cache.fresh, key }]
    clockPos := Function.update cache.clockPos key (some cache.fresh)
    fresh := cache.fresh + 1
    l1Bytes := cache.l1Bytes + size bin }

def hit (cache : IndexedCache) (key : String) (entry : Entry) : IndexedCache :=
  { cache.setEntry key (some { entry with recentlyUsed := true }) with
    l1Hits := cache.l1Hits + 1 }

/-- The section of `get` that promotes a payload read from disk. -/
def promote (cache : IndexedCache) (key : String) (bin : Bytes) : IndexedCache :=
  match cache.l1 key with
  | some _ => cache
  | none => cache.l1PutLocked key bin

def store (cache : IndexedCache) (key : String) (bin : Bytes) : IndexedCache :=
  match cache.l1 key with
  | some entry =>
      { cache.setEntry key (some { data := bin, recentlyUsed := true }) with
        l1Bytes := cache.l1Bytes - size entry.data + size bin }
  | none => cache.l1PutLocked key bin

def get (cache : IndexedCache) (key : String) : IndexedCache × Option Bytes :=
  match cache.l1 key with
  | some entry => (cache.hit key entry, some entry.data)
  | none =>
      match CacheStoreModel.get cache.disk key with
      | none => ({ cache with misses := cache.misses + 1 }, none)
      | some bin => ({ cache.promote key bin with l2Hits := cache.l2Hits + 1 }, some bin)

def put (cache : IndexedCache) (key : String) (bin : Bytes) : Option IndexedCache :=
  (CacheStoreModel.put cache.disk key bin).map fun disk => { cache with disk }.store key bin

def call (cache : IndexedCache) : Call → Option (IndexedCache × Option Bytes)
  | .get key => some (cache.get key)
  | .put key bin => (cache.put key bin).map fun after => (after, none)

def step (cache : IndexedCache) (next : Call) : Option IndexedCache :=
  (cache.call next).map Prod.fst

/-! ## Without the index -/

/-- Drops the index, the identities of the nodes and the record. -/
def forget (cache : IndexedCache) : CacheStoreFast where
  disk := cache.disk
  l1 := cache.l1
  clockOrder := cache.clockOrder.map Node.key
  l1Bytes := cache.l1Bytes
  maxL1Bytes := cache.maxL1Bytes
  l1Hits := cache.l1Hits
  l2Hits := cache.l2Hits
  misses := cache.misses
  evictions := cache.evictions

theorem clock_scan_forget (needed : UInt64) (nodes : List Node) (cache : IndexedCache)
    (current : UInt64) :
    CacheStoreFast.clockScan needed (nodes.map Node.key) cache.forget current =
      ((clockScan needed nodes cache current).1.map Node.key,
        (clockScan needed nodes cache current).2.1.forget,
        (clockScan needed nodes cache current).2.2) := by
  induction nodes generalizing cache current with
  | nil => rfl
  | cons node rest ih =>
      have limit : cache.forget.maxL1Bytes = cache.maxL1Bytes := rfl
      have entries : cache.forget.l1 = cache.l1 := rfl
      rw [List.map_cons, CacheStoreFast.clockScan, clockScan, limit, entries]
      by_cases full : current + needed > cache.maxL1Bytes
      · rw [if_pos full, if_pos full]
        cases cache.l1 node.key with
        | none => exact ih cache current
        | some entry =>
            dsimp only
            by_cases used : entry.recentlyUsed = true
            · rw [if_pos used, if_pos used]
              have tail := ih (cache.setEntry node.key (some { entry with recentlyUsed := false }))
                current
              exact congrArg (fun result => (node.key :: result.1, result.2.1, result.2.2)) tail
            · rw [if_neg used, if_neg used]
              exact ih (cache.evict node.key entry) (current - size entry.data)
      · rw [if_neg full, if_neg full]
        rfl

theorem clock_passes_forget (needed : UInt64) (passes : Nat) (cache : IndexedCache)
    (current : UInt64) :
    CacheStoreFast.clockPasses needed passes cache.forget current =
      (clockPasses needed passes cache current).forget := by
  induction passes generalizing cache current with
  | zero => rfl
  | succ passes ih =>
      have limit : cache.forget.maxL1Bytes = cache.maxL1Bytes := rfl
      have order : cache.forget.clockOrder = cache.clockOrder.map Node.key := rfl
      rw [CacheStoreFast.clockPasses, clockPasses, limit, order, clock_scan_forget]
      split
      case isFalse => rfl
      case isTrue =>
        exact ih { (clockScan needed cache.clockOrder cache current).2.1 with
          clockOrder := (clockScan needed cache.clockOrder cache current).1 } _

theorem evict_to_fit_forget (cache : IndexedCache) (needed : UInt64) :
    cache.forget.evictToFit needed = (cache.evictToFit needed).forget := by
  unfold CacheStoreFast.evictToFit evictToFit
  rw [apply_ite forget, apply_ite forget, ← clock_passes_forget]
  rfl

theorem l1_put_locked_forget (cache : IndexedCache) (key : String) (bin : Bytes) :
    cache.forget.l1PutLocked key bin = (cache.l1PutLocked key bin).forget := by
  rw [CacheStoreFast.l1PutLocked, evict_to_fit_forget, l1PutLocked]
  simp [forget, setEntry, CacheStoreFast.setEntry]

theorem promote_forget (cache : IndexedCache) (key : String) (bin : Bytes) :
    cache.forget.promote key bin = (cache.promote key bin).forget := by
  have entries : cache.forget.l1 = cache.l1 := rfl
  rw [CacheStoreFast.promote, promote, entries]
  cases cache.l1 key with
  | some entry => rfl
  | none => exact l1_put_locked_forget cache key bin

theorem store_forget (cache : IndexedCache) (key : String) (bin : Bytes) :
    cache.forget.store key bin = (cache.store key bin).forget := by
  have entries : cache.forget.l1 = cache.l1 := rfl
  rw [CacheStoreFast.store, store, entries]
  cases cache.l1 key with
  | some entry => rfl
  | none => exact l1_put_locked_forget cache key bin

theorem get_forget (cache : IndexedCache) (key : String) :
    cache.forget.get key = ((cache.get key).1.forget, (cache.get key).2) := by
  have entries : cache.forget.l1 = cache.l1 := rfl
  have files : cache.forget.disk = cache.disk := rfl
  rw [CacheStoreFast.get, get, entries, files]
  cases cache.l1 key with
  | some entry => rfl
  | none =>
      cases CacheStoreModel.get cache.disk key with
      | none => rfl
      | some bin =>
          dsimp only
          rw [promote_forget]
          rfl

theorem put_forget (cache : IndexedCache) (key : String) (bin : Bytes) :
    cache.forget.put key bin = (cache.put key bin).map forget := by
  have files : cache.forget.disk = cache.disk := rfl
  rw [CacheStoreFast.put, put, files, Option.map_map]
  congr 1
  funext disk
  exact store_forget { cache with disk } key bin

/-- Every call does without the index what it does with it. -/
theorem call_forget (cache : IndexedCache) (next : Call) :
    cache.forget.call next =
      (cache.call next).map fun result => (result.1.forget, result.2) := by
  cases next with
  | get key =>
      rw [CacheStoreFast.call, get_forget]
      rfl
  | put key bin =>
      rw [CacheStoreFast.call, put_forget, call, Option.map_map, Option.map_map]
      rfl

end IndexedCache

end AmpFormal.CacheFastIndexModel
