import AmpFormal.CacheFastRepresentation

/-!
# The contract of the clock

What `evict_to_fit` may drop from a cache whose structures agree: nothing when the
payload fits already, otherwise just enough, unused entries before used ones, and
in the order of the list among those with the same bit. All of it is what two
sweeps of the second-chance queue do, read on the sizes as numbers.
-/

namespace AmpFormal.CacheFastEviction

open AmpFormal.FileDirectory AmpFormal.CacheFastModel AmpFormal.CacheFastIndexModel
open AmpFormal.CacheFastIndexModel.IndexedCache AmpFormal.CacheFastLimit AmpFormal.CacheFastClock
open AmpFormal.CacheFastRepresentation AmpFormal.SecondChance AmpFormal.TransitionRuns

set_option autoImplicit false

/-- What making room for `needed` bytes by evicting `victims`, in this order, must do. -/
structure ClockContract (cache : IndexedCache) (needed : UInt64) (after : IndexedCache)
    (victims : List String) : Prop where
  recorded : after.evicted = cache.evicted ++ victims
  once : victims.Nodup
  dropped : ∀ key, key ∈ victims ↔ (cache.l1 key).isSome = true ∧ after.l1 key = none
  spared : ∀ key, key ∉ victims → (after.l1 key).map (·.data) = (cache.l1 key).map (·.data)
  /-- The payload fits, or L1 is empty. -/
  room : after.l1Bytes.toNat + needed.toNat ≤ cache.maxL1Bytes.toNat ∨ ∀ key, after.l1 key = none
  /-- Nothing is evicted when it fits already. -/
  idle : cache.l1Bytes.toNat + needed.toNat ≤ cache.maxL1Bytes.toNat → victims = [] ∧ after = cache
  /-- With the last evicted entry it would not fit. -/
  least : ∀ earlier last entry, victims = earlier ++ [last] → cache.l1 last = some entry →
    cache.maxL1Bytes.toNat < after.l1Bytes.toNat + entry.data.length + needed.toNat
  /-- Used entries are evicted only after all the unused ones. -/
  unusedFirst : ∀ key ∈ victims, bits cache key = true →
    ∀ other entry, cache.l1 other = some entry → entry.recentlyUsed = false → other ∈ victims
  /-- Entries with the same bit are evicted in the order of the list. -/
  inOrder : ∀ bit,
    victims.filter (bits cache · == bit) <+: (keys cache).filter (bits cache · == bit)
  represented : Represented after

def weights (cache : IndexedCache) (key : String) : UInt64 := entrySize (cache.l1 key)

section Evict

variable {cache : IndexedCache} {needed : UInt64}

theorem evicts (represented : Represented cache) (limited : 0 < cache.maxL1Bytes) :
    cache.evictToFit needed = trim (weights cache) cache (clockOutcome cache needed) :=
  evict_to_fit_trims (represented_accounted represented) (UInt64.pos_iff_ne_zero.mp limited) needed

theorem outcome_perm (cache : IndexedCache) (needed : UInt64) :
    ((clockOutcome cache needed).kept ++ (clockOutcome cache needed).victims).Perm (keys cache) :=
  sweeps_perm _ _ _ _ _ _

theorem victims_listed {key : String} (victim : key ∈ (clockOutcome cache needed).victims) :
    key ∈ keys cache :=
  (outcome_perm cache needed).subset (List.mem_append_right _ victim)

theorem trim_count :
    (trim (weights cache) cache (clockOutcome cache needed)).l1Bytes =
      (clockOutcome cache needed).load :=
  (sweeps_load _ _ _ _ _ _).symm

theorem trim_keys (represented : Represented cache) (needed : UInt64) :
    keys (trim (weights cache) cache (clockOutcome cache needed)) =
      (clockOutcome cache needed).kept := by
  have kept : (clockOutcome cache needed).kept =
      (keys cache).removeAll (clockOutcome cache needed).victims :=
    sweeps_kept _ _ 2 represented.order.nodup _
  rw [kept]
  exact survivors_keys _ _

theorem trim_entry (weight : String → UInt64) (cache : IndexedCache)
    {outcome : Outcome String UInt64} {key : String} (spared : key ∉ outcome.victims) :
    ((trim weight cache outcome).l1 key).map (·.data) = (cache.l1 key).map (·.data) := by
  simp only [trim, settle, entriesAfter, spared, if_false, Option.map_map]
  rfl

theorem trim_victim {weight : String → UInt64} {outcome : Outcome String UInt64} {key : String}
    (victim : key ∈ outcome.victims) : (trim weight cache outcome).l1 key = none := by
  simp [trim, settle, entriesAfter, victim]

theorem evicted_bytes (represented : Represented cache) (needed : UInt64) :
    dataBytes (trim (weights cache) cache (clockOutcome cache needed)).l1
        (keys (trim (weights cache) cache (clockOutcome cache needed))) +
      dataBytes cache.l1 (clockOutcome cache needed).victims = dataBytes cache.l1 (keys cache) := by
  have parts := outcome_perm cache needed
  have distinct := (List.nodup_append.mp ((parts.nodup_iff).mpr represented.order.nodup)).2.2
  have same : dataBytes (trim (weights cache) cache (clockOutcome cache needed)).l1
      (clockOutcome cache needed).kept =
        dataBytes cache.l1 (clockOutcome cache needed).kept := by
    apply congrArg List.sum
    apply List.map_congr_left
    intro key member
    have spared : key ∉ (clockOutcome cache needed).victims :=
      fun victim => distinct key member key victim rfl
    exact entry_length_congr (trim_entry _ cache spared)
  rw [trim_keys represented needed, same, ← data_bytes_append, data_bytes_perm parts]

theorem evict_count (represented : Represented cache) (limited : 0 < cache.maxL1Bytes)
    (needed : UInt64) (fits : dataBytes cache.l1 (keys cache) < 2 ^ 64) :
    (cache.evictToFit needed).l1Bytes.toNat +
        dataBytes cache.l1 (clockOutcome cache needed).victims =
      dataBytes cache.l1 (keys cache) := by
  have total := evicted_bytes represented needed
  have after := evict_to_fit_represented represented needed
  rw [evicts represented limited] at after ⊢
  have exact_count : (trim (weights cache) cache (clockOutcome cache needed)).l1Bytes.toNat =
      dataBytes (trim (weights cache) cache (clockOutcome cache needed)).l1
        (keys (trim (weights cache) cache (clockOutcome cache needed))) := by
    rw [after.bytes, UInt64.toNat_ofNat_of_lt' (Nat.lt_of_le_of_lt _ fits)]
    rw [← total]
    exact Nat.le_add_right _ _
  rw [exact_count, total]

/-- Without overflow, the load exceeds the limit as numbers do. -/
theorem exceeds_iff {limit load : UInt64} (fits : load.toNat + needed.toNat < 2 ^ 64) :
    Exceeds limit needed load ↔ limit.toNat < load.toNat + needed.toNat := by
  have sum : (load + needed).toNat = load.toNat + needed.toNat := by
    rw [UInt64.toNat_add, Nat.mod_eq_of_lt fits]
  rw [Exceeds, gt_iff_lt, UInt64.lt_iff_toNat_lt, sum]

theorem evict_idle (represented : Represented cache) (limited : 0 < cache.maxL1Bytes)
    (fits : dataBytes cache.l1 (keys cache) + needed.toNat < 2 ^ 64)
    (within : cache.l1Bytes.toNat + needed.toNat ≤ cache.maxL1Bytes.toNat) :
    (clockOutcome cache needed).victims = [] ∧ cache.evictToFit needed = cache := by
  have total : dataBytes cache.l1 (keys cache) < 2 ^ 64 := by omega
  have count := (represented_exact represented represented.order total).1
  have spacious : ¬Exceeds cache.maxL1Bytes needed cache.l1Bytes := by
    rw [exceeds_iff (by omega)]
    omega
  constructor
  · rw [clockOutcome, sweeps_within spacious]
    rfl
  · rw [evictToFit, if_neg (UInt64.pos_iff_ne_zero.mp limited), if_pos (UInt64.not_lt.mp spacious)]

/-- Two sweeps make room or leave nothing. -/
theorem evict_room (represented : Represented cache) (limited : 0 < cache.maxL1Bytes)
    (fits : dataBytes cache.l1 (keys cache) + needed.toNat < 2 ^ 64) :
    (cache.evictToFit needed).l1Bytes.toNat + needed.toNat ≤ cache.maxL1Bytes.toNat ∨
      ∀ key, (cache.evictToFit needed).l1 key = none := by
  have count := evict_count represented limited needed
    (Nat.lt_of_le_of_lt (Nat.le_add_right _ _) fits)
  have after := evict_to_fit_represented represented needed
  rw [evicts represented limited] at count after ⊢
  by_cases full : Exceeds cache.maxL1Bytes needed (clockOutcome cache needed).load
  · right
    have nothing : (clockOutcome cache needed).kept = [] :=
      sweeps_two_room represented.order.nodup full
    intro key
    rw [← Option.not_isSome_iff_eq_none, ← after.order.listed, trim_keys represented needed,
      nothing]
    exact List.not_mem_nil
  · left
    rw [← trim_count, exceeds_iff (by omega)] at full
    omega

theorem evict_least (represented : Represented cache) (limited : 0 < cache.maxL1Bytes)
    (fits : dataBytes cache.l1 (keys cache) + needed.toNat < 2 ^ 64) {earlier : List String}
    {last : String} {entry : Entry}
    (split : (clockOutcome cache needed).victims = earlier ++ [last])
    (found : cache.l1 last = some entry) :
    cache.maxL1Bytes.toNat <
      (cache.evictToFit needed).l1Bytes.toNat + entry.data.length + needed.toNat := by
  have count := evict_count represented limited needed
    (Nat.lt_of_le_of_lt (Nat.le_add_right _ _) fits)
  have exceeded : Exceeds cache.maxL1Bytes needed
      (earlier.foldl (release (weights cache)) cache.l1Bytes) :=
    sweeps_two_least represented.order.nodup split
  have restored : earlier.foldl (release (weights cache)) cache.l1Bytes =
      (cache.evictToFit needed).l1Bytes + size entry.data := by
    have spent : (cache.evictToFit needed).l1Bytes =
        earlier.foldl (release (weights cache)) cache.l1Bytes - size entry.data := by
      rw [evicts represented limited]
      simp only [trim, settle, split, List.foldl_append, List.foldl_cons, List.foldl_nil, release,
        weights, found, entrySize]
    rw [spent]
    grind
  have share : entry.data.length ≤ dataBytes cache.l1 (clockOutcome cache needed).victims := by
    have part : entryLength (cache.l1 last) ≤
        dataBytes cache.l1 (clockOutcome cache needed).victims := by
      apply entry_length_le
      rw [split]
      exact List.mem_append_right _ (List.mem_singleton_self last)
    rw [found] at part
    exact part
  have small : (size entry.data).toNat = entry.data.length := by
    rw [size, UInt64.toNat_ofNat', Nat.mod_eq_of_lt (by omega)]
  have sum : ((cache.evictToFit needed).l1Bytes + size entry.data).toNat =
      (cache.evictToFit needed).l1Bytes.toNat + entry.data.length := by
    rw [UInt64.toNat_add, small, Nat.mod_eq_of_lt (by omega)]
  rw [restored, exceeds_iff (by omega), sum] at exceeded
  exact exceeded

end Evict

/-- On every cache whose structures agree, with any use bits, any limit and any number
of bytes that does not overflow with what is cached, `evict_to_fit` meets its contract. -/
theorem evict_to_fit_contract {cache : IndexedCache} (represented : Represented cache)
    (limited : 0 < cache.maxL1Bytes) {needed : UInt64}
    (fits : dataBytes cache.l1 (keys cache) + needed.toNat < 2 ^ 64) :
    ∃ victims, ClockContract cache needed (cache.evictToFit needed) victims := by
  have distinct : (keys cache).Nodup := represented.order.nodup
  refine ⟨(clockOutcome cache needed).victims, ?_⟩
  constructor
  case recorded =>
    rw [evicts represented limited]
    rfl
  case once =>
    have parts := (outcome_perm cache needed).nodup_iff.mpr distinct
    exact (List.nodup_append.mp parts).2.1
  case dropped =>
    intro key
    rw [evicts represented limited]
    constructor
    · intro victim
      exact ⟨(represented.order.listed key).mp (victims_listed victim), trim_victim victim⟩
    · rintro ⟨present, gone⟩
      by_contra spared
      have same := trim_entry (weights cache) cache spared
      rw [gone] at same
      rw [Option.map_eq_none_iff.mp same.symm] at present
      cases present
  case spared =>
    intro key spared
    rw [evicts represented limited]
    exact trim_entry _ cache spared
  case room => exact evict_room represented limited fits
  case idle =>
    intro within
    exact evict_idle represented limited fits within
  case least =>
    intro earlier last entry split found
    exact evict_least represented limited fits split found
  case unusedFirst =>
    intro key victim used other entry found unused
    have member : other ∈ keys cache := (represented.order.listed other).mpr (by rw [found]; rfl)
    have clear : bits cache other = false := by simp [bits, found, unused]
    exact sweeps_two_unused_first distinct victim used member clear
  case inOrder =>
    intro bit
    exact sweeps_two_in_order (bits cache) distinct _ bit
  case represented => exact evict_to_fit_represented represented needed

/-- An eviction that clears the bits before, and a get of one of the entries. -/
def mixedBits : List Call :=
  [.put "a" [1], .put "b" [2], .put "c" [3], .put "d" [4], .get "c"]

/-- The unused entry goes first, then the first of the used ones. -/
theorem evict_to_fit_contract_mixed_bits :
    ∃ victims, ClockContract
      ((runCalls step (fun _ _ => True) (create (Directory.empty String) 3) mixedBits).get
        (by decide +kernel)) 2
      (((runCalls step (fun _ _ => True) (create (Directory.empty String) 3) mixedBits).get
        (by decide +kernel)).evictToFit 2) victims :=
  evict_to_fit_contract (reached_represented (reaches_of_run_get mixedBits (by decide +kernel)))
    (by decide +kernel) (by decide +kernel)

end AmpFormal.CacheFastEviction
