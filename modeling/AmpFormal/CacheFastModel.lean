import AmpFormal.CacheStoreModel

/-!
# The two-tier cache

A transcription of `CacheStoreFast` over the files of `CacheStore`, one call at a
time and cut into the sections that run under `smtx_`: the lookup, the promotion
and the update of L1 by `put`. `CacheFastThreads` runs the same sections under
threads. Byte counts are 64-bit unsigned. The index `clock_pos_` is never read
and is left out.
-/

namespace AmpFormal.CacheFastModel

open AmpFormal.FileDirectory

set_option autoImplicit false

structure Entry where
  data : Bytes
  recentlyUsed : Bool
  deriving DecidableEq, Repr

structure CacheStoreFast where
  disk : Directory String
  l1 : String → Option Entry
  clockOrder : List String
  l1Bytes : UInt64
  maxL1Bytes : UInt64
  l1Hits : UInt64
  l2Hits : UInt64
  misses : UInt64
  evictions : UInt64

def size (data : Bytes) : UInt64 := UInt64.ofNat data.length

inductive Call where
  | get (key : String)
  | put (key : String) (bin : Bytes)
  deriving DecidableEq, Repr

namespace CacheStoreFast

def create (disk : Directory String) (maxL1Bytes : UInt64) : CacheStoreFast where
  disk := disk
  l1 := fun _ => none
  clockOrder := []
  l1Bytes := 0
  maxL1Bytes := maxL1Bytes
  l1Hits := 0
  l2Hits := 0
  misses := 0
  evictions := 0

def setEntry (cache : CacheStoreFast) (key : String) (entry : Option Entry) : CacheStoreFast :=
  { cache with l1 := Function.update cache.l1 key entry }

def evict (cache : CacheStoreFast) (key : String) (entry : Entry) : CacheStoreFast :=
  { cache.setEntry key none with
    l1Bytes := cache.l1Bytes - size entry.data
    evictions := cache.evictions + 1 }

/-- One pass of the clock over the rest of `clock_order_`, with the running byte
count `current`: what is left of the list, the cache and the byte count. -/
def clockScan (needed : UInt64) :
    List String → CacheStoreFast → UInt64 → List String × CacheStoreFast × UInt64
  | [], cache, current => ([], cache, current)
  | key :: rest, cache, current =>
      if current + needed > cache.maxL1Bytes then
        match cache.l1 key with
        | none => clockScan needed rest cache current
        | some entry =>
            if entry.recentlyUsed then
              -- first chance: clear the bit, skip
              let (order, after, current) := clockScan needed rest
                (cache.setEntry key (some { entry with recentlyUsed := false })) current
              (key :: order, after, current)
            else
              clockScan needed rest (cache.evict key entry) (current - size entry.data)
      else (key :: rest, cache, current)

def clockPasses (needed : UInt64) : Nat → CacheStoreFast → UInt64 → CacheStoreFast
  | 0, cache, _ => cache
  | passes + 1, cache, current =>
      if current + needed > cache.maxL1Bytes then
        let (order, after, current) := clockScan needed cache.clockOrder cache current
        clockPasses needed passes { after with clockOrder := order } current
      else cache

def evictToFit (cache : CacheStoreFast) (needed : UInt64) : CacheStoreFast :=
  if cache.maxL1Bytes = 0 then cache
  else if cache.l1Bytes + needed ≤ cache.maxL1Bytes then cache
  else clockPasses needed 2 cache cache.l1Bytes

def l1PutLocked (cache : CacheStoreFast) (key : String) (bin : Bytes) : CacheStoreFast :=
  let cache := cache.evictToFit (size bin)
  { cache.setEntry key (some { data := bin, recentlyUsed := true }) with
    clockOrder := cache.clockOrder ++ [key]
    l1Bytes := cache.l1Bytes + size bin }

def hit (cache : CacheStoreFast) (key : String) (entry : Entry) : CacheStoreFast :=
  { cache.setEntry key (some { entry with recentlyUsed := true }) with
    l1Hits := cache.l1Hits + 1 }

/-- The section of `get` that promotes a payload read from disk. -/
def promote (cache : CacheStoreFast) (key : String) (bin : Bytes) : CacheStoreFast :=
  match cache.l1 key with
  | some _ => cache
  | none => cache.l1PutLocked key bin

def store (cache : CacheStoreFast) (key : String) (bin : Bytes) : CacheStoreFast :=
  match cache.l1 key with
  | some entry =>
      { cache.setEntry key (some { data := bin, recentlyUsed := true }) with
        l1Bytes := cache.l1Bytes - size entry.data + size bin }
  | none => cache.l1PutLocked key bin

def get (cache : CacheStoreFast) (key : String) : CacheStoreFast × Option Bytes :=
  match cache.l1 key with
  | some entry => (cache.hit key entry, some entry.data)
  | none =>
      match CacheStoreModel.get cache.disk key with
      | none => ({ cache with misses := cache.misses + 1 }, none)
      | some bin => ({ cache.promote key bin with l2Hits := cache.l2Hits + 1 }, some bin)

def put (cache : CacheStoreFast) (key : String) (bin : Bytes) : Option CacheStoreFast :=
  (CacheStoreModel.put cache.disk key bin).map fun disk => { cache with disk }.store key bin

def call (cache : CacheStoreFast) : Call → Option (CacheStoreFast × Option Bytes)
  | .get key => some (cache.get key)
  | .put key bin => (cache.put key bin).map fun after => (after, none)

/-! ## What the clock leaves -/

/-- The same disk and limit, and no entry that was not there. -/
structure Shrinks (cache after : CacheStoreFast) : Prop where
  disk : after.disk = cache.disk
  limit : after.maxL1Bytes = cache.maxL1Bytes
  entries : ∀ key entry, after.l1 key = some entry →
    ∃ older, cache.l1 key = some older ∧ older.data = entry.data

theorem shrinks_refl (cache : CacheStoreFast) : Shrinks cache cache :=
  ⟨rfl, rfl, fun _ entry present => ⟨entry, present, rfl⟩⟩

theorem shrinks_trans {first second third : CacheStoreFast} (left : Shrinks first second)
    (right : Shrinks second third) : Shrinks first third := by
  refine ⟨right.disk.trans left.disk, right.limit.trans left.limit, fun key entry present => ?_⟩
  obtain ⟨middle, between, sameRight⟩ := right.entries key entry present
  obtain ⟨older, before, sameLeft⟩ := left.entries key middle between
  exact ⟨older, before, sameLeft.trans sameRight⟩

theorem set_entry_shrinks {cache : CacheStoreFast} {key : String} {entry : Entry}
    (present : cache.l1 key = some entry) {replacement : Option Entry}
    (same : ∀ kept, replacement = some kept → kept.data = entry.data) :
    Shrinks cache (cache.setEntry key replacement) := by
  refine ⟨rfl, rfl, fun other kept found => ?_⟩
  by_cases here : other = key
  · subst here
    simp only [setEntry, Function.update_self] at found
    exact ⟨entry, present, (same kept found).symm⟩
  · simp only [setEntry, Function.update_of_ne here] at found
    exact ⟨kept, found, rfl⟩

theorem clock_scan_shrinks (needed : UInt64) (order : List String) (cache : CacheStoreFast)
    (current : UInt64) : Shrinks cache (clockScan needed order cache current).2.1 := by
  induction order generalizing cache current with
  | nil => exact shrinks_refl cache
  | cons key rest ih =>
      rw [clockScan]
      split
      case isFalse => exact shrinks_refl cache
      case isTrue =>
        split
        case h_1 => exact ih cache current
        case h_2 entry present =>
          split
          case isTrue => exact shrinks_trans (set_entry_shrinks present (by simp)) (ih _ _)
          case isFalse =>
            have dropped : Shrinks cache (cache.setEntry key none) :=
              set_entry_shrinks present (by simp)
            have evicted : Shrinks cache (cache.evict key entry) :=
              ⟨rfl, rfl, dropped.entries⟩
            exact shrinks_trans evicted (ih _ _)

theorem clock_passes_shrinks (needed : UInt64) (passes : Nat) (cache : CacheStoreFast)
    (current : UInt64) : Shrinks cache (clockPasses needed passes cache current) := by
  induction passes generalizing cache current with
  | zero => exact shrinks_refl cache
  | succ passes ih =>
      rw [clockPasses]
      split
      case isTrue =>
        have scanned := clock_scan_shrinks needed cache.clockOrder cache current
        generalize clockScan needed cache.clockOrder cache current = result at scanned
        obtain ⟨order, after, now⟩ := result
        have trimmed : Shrinks cache { after with clockOrder := order } :=
          ⟨scanned.disk, scanned.limit, scanned.entries⟩
        exact shrinks_trans trimmed (ih _ _)
      case isFalse => exact shrinks_refl cache

theorem evict_to_fit_shrinks (cache : CacheStoreFast) (needed : UInt64) :
    Shrinks cache (cache.evictToFit needed) := by
  unfold evictToFit
  split
  case isTrue => exact shrinks_refl cache
  case isFalse =>
    split
    case isTrue => exact shrinks_refl cache
    case isFalse => exact clock_passes_shrinks _ _ _ _

/-! ## What the locked sections leave in L1 -/

/-- The same disk and limit, and no entry that was not there but one of `key` with
the payload `bin`. -/
structure Writes (cache after : CacheStoreFast) (key : String) (bin : Bytes) : Prop where
  disk : after.disk = cache.disk
  limit : after.maxL1Bytes = cache.maxL1Bytes
  written : ∃ entry, after.l1 key = some entry ∧ entry.data = bin
  others : ∀ other entry, other ≠ key → after.l1 other = some entry →
    ∃ older, cache.l1 other = some older ∧ older.data = entry.data

theorem l1_put_locked_writes (cache : CacheStoreFast) (key : String) (bin : Bytes) :
    Writes cache (cache.l1PutLocked key bin) key bin := by
  have evicted := evict_to_fit_shrinks cache (size bin)
  refine ⟨evicted.disk, evicted.limit, ⟨_, Function.update_self _ _ _, rfl⟩, ?_⟩
  intro other entry different present
  simp only [l1PutLocked, setEntry, Function.update_of_ne different] at present
  exact evicted.entries other entry present

theorem store_writes (cache : CacheStoreFast) (key : String) (bin : Bytes) :
    Writes cache (cache.store key bin) key bin := by
  unfold store
  split
  case h_1 entry present =>
    refine ⟨rfl, rfl, ⟨_, Function.update_self _ _ _, rfl⟩, fun other kept different found => ?_⟩
    simp only [setEntry, Function.update_of_ne different] at found
    exact ⟨kept, found, rfl⟩
  case h_2 => exact l1_put_locked_writes cache key bin

theorem promote_writes {cache : CacheStoreFast} {key : String} (absent : cache.l1 key = none)
    (bin : Bytes) : Writes cache (cache.promote key bin) key bin := by
  unfold promote
  split
  case h_1 entry present =>
    rw [absent] at present
    cases present
  case h_2 => exact l1_put_locked_writes cache key bin

theorem hit_shrinks {cache : CacheStoreFast} {key : String} {entry : Entry}
    (present : cache.l1 key = some entry) : Shrinks cache (cache.hit key entry) := by
  have marked : Shrinks cache (cache.setEntry key (some { entry with recentlyUsed := true })) :=
    set_entry_shrinks present (by simp)
  exact ⟨rfl, rfl, marked.entries⟩

end CacheStoreFast

end AmpFormal.CacheFastModel
