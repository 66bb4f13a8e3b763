import Mathlib.Algebra.Order.Group.Nat
import Mathlib.Algebra.Order.BigOperators.Group.List
import AmpFormal.CacheFastClock
import Mathlib.Algebra.GroupWithZero.Nat

/-!
# The representation of L1

Four structures describe what L1 holds: the entries, the list of the clock, the
index into that list, and the byte count. They agree after every call of a
history. That the list and the count follow the entries is known of the cache
without its index; that the index follows the list is shown here, from what the
clock leaves and from the three places that write an entry.
-/

namespace AmpFormal.CacheFastRepresentation

open AmpFormal.FileDirectory AmpFormal.CacheFastModel AmpFormal.CacheFastIndexModel
open AmpFormal.CacheFastIndexModel.IndexedCache AmpFormal.CacheFastLimit AmpFormal.CacheFastClock
open AmpFormal.SecondChance AmpFormal.TransitionRuns

set_option autoImplicit false

def entryLength (slot : Option Entry) : Nat :=
  match slot with
  | some entry => entry.data.length
  | none => 0

/-- The sizes of the data that the listed keys have in L1. -/
def dataBytes (l1 : String → Option Entry) (keys : List String) : Nat :=
  (keys.map fun key => entryLength (l1 key)).sum

structure ListsKeys (l1 : String → Option Entry) (keys : List String) : Prop where
  nodup : keys.Nodup
  listed : ∀ key, key ∈ keys ↔ (l1 key).isSome = true

/-- The keys in the order of the clock. -/
def keys (cache : IndexedCache) : List String := cache.clockOrder.map Node.key

/-- The index has the keys of L1 and maps each to a node of its own. -/
structure Indexed (cache : IndexedCache) : Prop where
  identities : (cache.clockOrder.map Node.id).Nodup
  sameKeys : ∀ key, (cache.clockPos key).isSome = true ↔ (cache.l1 key).isSome = true
  ownNode : ∀ key id, cache.clockPos key = some id → { id, key } ∈ cache.clockOrder

structure Represented (cache : IndexedCache) : Prop extends Indexed cache where
  order : ListsKeys cache.l1 (keys cache)
  bytes : cache.l1Bytes = UInt64.ofNat (dataBytes cache.l1 (keys cache))

/-! ## The byte count -/

theorem entry_size_eq (slot : Option Entry) : entrySize slot = UInt64.ofNat (entryLength slot) := by
  cases slot with
  | none => rfl
  | some entry => rfl

theorem entry_length_congr {slot other : Option Entry}
    (same : slot.map (·.data) = other.map (·.data)) : entryLength slot = entryLength other := by
  cases slot <;> cases other <;> simp_all [entryLength]

theorem cached_eq (l1 : String → Option Entry) (keys : List String) :
    cached l1 keys = UInt64.ofNat (dataBytes l1 keys) := by
  induction keys with
  | nil => rfl
  | cons key rest ih =>
      rw [cached_cons, ih, entry_size_eq, ← UInt64.ofNat_add, dataBytes, dataBytes, List.map_cons,
        List.sum_cons]

theorem data_bytes_perm {l1 : String → Option Entry} {keys others : List String}
    (same : keys.Perm others) : dataBytes l1 keys = dataBytes l1 others :=
  (same.map _).sum_nat

theorem data_bytes_append (l1 : String → Option Entry) (keys others : List String) :
    dataBytes l1 (keys ++ others) = dataBytes l1 keys + dataBytes l1 others := by
  rw [dataBytes, List.map_append, List.sum_append, dataBytes, dataBytes]

theorem entry_length_le {l1 : String → Option Entry} {keys : List String} {key : String}
    (member : key ∈ keys) : entryLength (l1 key) ≤ dataBytes l1 keys :=
  List.le_sum_of_mem (List.mem_map_of_mem member)

theorem lists_keys_bytes {l1 : String → Option Entry} {keys others : List String}
    (left : ListsKeys l1 keys) (right : ListsKeys l1 others) :
    dataBytes l1 keys = dataBytes l1 others := by
  apply data_bytes_perm
  apply (List.perm_ext_iff_of_nodup left.nodup right.nodup).mpr
  intro key
  rw [left.listed, right.listed]

theorem represented_accounted {cache : IndexedCache} (represented : Represented cache) :
    Accounted cache.forget := by
  refine ⟨represented.order.nodup, represented.order.listed, ?_⟩
  exact represented.bytes.trans (cached_eq _ _).symm

/-! ## The index -/

theorem represented_of_accounted {cache : IndexedCache} (accounted : Accounted cache.forget)
    (indexed : Indexed cache) : Represented cache where
  toIndexed := indexed
  order := ⟨accounted.nodup, accounted.listed⟩
  bytes := accounted.bytes.trans (cached_eq _ _)

theorem trim_indexed {weight : String → UInt64} {cache : IndexedCache} (indexed : Indexed cache)
    (outcome : Outcome String UInt64) : Indexed (trim weight cache outcome) := by
  constructor
  · have kept : (survivors cache.clockOrder outcome.victims).Sublist cache.clockOrder :=
      List.filter_sublist
    exact indexed.identities.sublist (kept.map Node.id)
  · intro key
    by_cases victim : key ∈ outcome.victims
    · simp [trim, settle, entriesAfter, positionsAfter, victim]
    · simp only [trim, settle, entriesAfter, positionsAfter, victim, if_false, Option.isSome_map]
      exact indexed.sameKeys key
  · intro key id found
    by_cases victim : key ∈ outcome.victims
    · simp [trim, settle, positionsAfter, victim] at found
    · simp only [trim, settle, positionsAfter, victim, if_false] at found
      exact List.mem_filter.mpr ⟨indexed.ownNode key id found, by simp [victim]⟩

theorem evict_to_fit_trims {cache : IndexedCache} (accounted : Accounted cache.forget)
    (limited : cache.maxL1Bytes ≠ 0) (needed : UInt64) :
    cache.evictToFit needed =
      trim (fun key => entrySize (cache.l1 key)) cache (clockOutcome cache needed) := by
  apply evict_to_fit_eq accounted.nodup _ limited
  intro node member
  exact (accounted.listed node.key).mp (List.mem_map_of_mem member)

theorem evict_to_fit_indexed {cache : IndexedCache} (accounted : Accounted cache.forget)
    (indexed : Indexed cache) (needed : UInt64) : Indexed (cache.evictToFit needed) := by
  by_cases limited : cache.maxL1Bytes = 0
  · rw [evictToFit, if_pos limited]
    exact indexed
  · rw [evict_to_fit_trims accounted limited]
    exact trim_indexed indexed _

theorem evict_to_fit_represented {cache : IndexedCache} (represented : Represented cache)
    (needed : UInt64) : Represented (cache.evictToFit needed) := by
  have accounted := represented_accounted represented
  apply represented_of_accounted
  · rw [← evict_to_fit_forget]
    exact evict_to_fit_accounted accounted needed
  · exact evict_to_fit_indexed accounted represented.toIndexed needed

/-! ## New nodes -/

structure Tracked (cache : IndexedCache) : Prop extends Indexed cache where
  allocated : ∀ node ∈ cache.clockOrder, node.id < cache.fresh

theorem create_tracked (disk : Directory String) (maxL1Bytes : UInt64) :
    Tracked (create disk maxL1Bytes) := by
  refine ⟨⟨List.nodup_nil, fun key => Iff.rfl, ?_⟩, ?_⟩
  · intro key id found
    cases found
  · intro node member
    cases member

theorem evict_to_fit_tracked {cache : IndexedCache} (accounted : Accounted cache.forget)
    (tracked : Tracked cache) (needed : UInt64) : Tracked (cache.evictToFit needed) := by
  refine ⟨evict_to_fit_indexed accounted tracked.toIndexed needed, ?_⟩
  by_cases limited : cache.maxL1Bytes = 0
  · rw [evictToFit, if_pos limited]
    exact tracked.allocated
  · rw [evict_to_fit_trims accounted limited]
    intro node member
    exact tracked.allocated node (List.mem_of_mem_filter member)

theorem replaced_tracked {cache after : IndexedCache} (tracked : Tracked cache) {key : String}
    (present : (cache.l1 key).isSome = true) {entry : Entry}
    (entries : after.l1 = Function.update cache.l1 key (some entry))
    (order : after.clockOrder = cache.clockOrder) (fresh : after.fresh = cache.fresh)
    (positions : after.clockPos = cache.clockPos) : Tracked after := by
  refine ⟨⟨?_, ?_, ?_⟩, ?_⟩
  · rw [order]
    exact tracked.identities
  · intro other
    rw [positions, entries, tracked.sameKeys]
    by_cases here : other = key
    · subst here
      simp [present]
    · rw [Function.update_of_ne here]
  · rw [order, positions]
    exact tracked.ownNode
  · rw [order, fresh]
    exact tracked.allocated

theorem l1_put_locked_tracked {cache : IndexedCache} (accounted : Accounted cache.forget)
    (tracked : Tracked cache) (key : String) (bin : Bytes) :
    Tracked (cache.l1PutLocked key bin) := by
  have room := evict_to_fit_tracked accounted tracked (size bin)
  rw [l1PutLocked]
  generalize cache.evictToFit (size bin) = trimmed at room
  refine ⟨⟨?_, ?_, ?_⟩, ?_⟩
  · rw [List.map_append]
    apply List.nodup_append.mpr
    refine ⟨room.identities, List.nodup_singleton _, ?_⟩
    intro left member right single same
    obtain ⟨node, listed, rfl⟩ := List.mem_map.mp member
    have older := room.allocated node listed
    rw [same, List.mem_singleton.mp single] at older
    exact Nat.lt_irrefl _ older
  · intro other
    by_cases here : other = key
    · subst here
      simp [setEntry]
    · simp only [setEntry, Function.update_of_ne here]
      exact room.sameKeys other
  · intro other id found
    by_cases here : other = key
    · subst here
      simp only [Function.update_self, Option.some.injEq] at found
      subst found
      exact List.mem_append_right _ (List.mem_singleton_self _)
    · simp only [Function.update_of_ne here] at found
      exact List.mem_append_left _ (room.ownNode other id found)
  · intro node member
    rcases List.mem_append.mp member with old | new
    · exact Nat.lt_succ_of_lt (room.allocated node old)
    · rw [List.mem_singleton.mp new]
      exact Nat.lt_succ_self _

theorem promote_tracked {cache : IndexedCache} (accounted : Accounted cache.forget)
    (tracked : Tracked cache) (key : String) (bin : Bytes) : Tracked (cache.promote key bin) := by
  unfold promote
  split
  case h_1 => exact tracked
  case h_2 => exact l1_put_locked_tracked accounted tracked key bin

theorem store_tracked {cache : IndexedCache} (accounted : Accounted cache.forget)
    (tracked : Tracked cache) (key : String) (bin : Bytes) : Tracked (cache.store key bin) := by
  unfold store
  split
  case h_1 entry present =>
    exact replaced_tracked tracked (Option.isSome_iff_exists.mpr ⟨entry, present⟩) rfl rfl rfl rfl
  case h_2 => exact l1_put_locked_tracked accounted tracked key bin

theorem get_tracked {cache : IndexedCache} (accounted : Accounted cache.forget)
    (tracked : Tracked cache) (key : String) : Tracked (cache.get key).1 := by
  unfold IndexedCache.get
  split
  case h_1 entry present =>
    exact replaced_tracked tracked (Option.isSome_iff_exists.mpr ⟨entry, present⟩) rfl rfl rfl rfl
  case h_2 =>
    split
    case h_1 => exact ⟨⟨tracked.identities, tracked.sameKeys, tracked.ownNode⟩, tracked.allocated⟩
    case h_2 bin _ =>
      have promoted := promote_tracked accounted tracked key bin
      exact ⟨⟨promoted.identities, promoted.sameKeys, promoted.ownNode⟩, promoted.allocated⟩

/-! ## The calls -/

theorem step_accounted {cache after : IndexedCache} (accounted : Accounted cache.forget)
    {next : Call} (moved : cache.step next = some after) : Accounted after.forget := by
  obtain ⟨⟨final, result⟩, done, same⟩ := Option.map_eq_some_iff.mp moved
  subst same
  have erased : cache.forget.call next = some (final.forget, result) := by
    rw [call_forget, done]
    rfl
  exact call_accounted accounted erased

theorem step_tracked {cache after : IndexedCache} (accounted : Accounted cache.forget)
    (tracked : Tracked cache) {next : Call} (moved : cache.step next = some after) :
    Tracked after := by
  cases next with
  | get key =>
      have same : (cache.get key).1 = after := Option.some.inj moved
      rw [← same]
      exact get_tracked accounted tracked key
  | put key bin =>
      obtain ⟨disk, written⟩ := CacheStoreModel.put_isSome cache.disk key bin
      simp only [step, call, put, written, Option.map_some, Option.some.injEq] at moved
      have replaced : Tracked { cache with disk } :=
        ⟨⟨tracked.identities, tracked.sameKeys, tracked.ownNode⟩, tracked.allocated⟩
      have counted : Accounted (forget { cache with disk }) :=
        ⟨accounted.nodup, accounted.listed, accounted.bytes⟩
      rw [← moved]
      exact store_tracked counted replaced key bin

theorem reached_represented {disk : Directory String} {maxL1Bytes : UInt64} {cache : IndexedCache}
    (reached : Reaches step (fun _ _ => True) (create disk maxL1Bytes) cache) :
    Represented cache := by
  have both : Accounted cache.forget ∧ Tracked cache := by
    refine reaches_invariant (motive := fun state => Accounted state.forget ∧ Tracked state)
      ⟨⟨List.nodup_nil, by simp [create, forget], rfl⟩, create_tracked disk maxL1Bytes⟩ ?_ reached
    intro before next after _ held _ moved
    exact ⟨step_accounted held.1 moved, step_tracked held.1 held.2 moved⟩
  exact represented_of_accounted both.1 both.2.toIndexed

/-- While the data of L1 fit the address space, the byte count is their size, and no
entry is larger than it. -/
theorem represented_exact {cache : IndexedCache} (represented : Represented cache)
    {keys : List String} (lists : ListsKeys cache.l1 keys)
    (fits : dataBytes cache.l1 keys < 2 ^ 64) :
    cache.l1Bytes.toNat = dataBytes cache.l1 keys ∧
      ∀ key entry, cache.l1 key = some entry → entry.data.length ≤ cache.l1Bytes.toNat := by
  have count : cache.l1Bytes.toNat = dataBytes cache.l1 keys := by
    rw [represented.bytes, lists_keys_bytes represented.order lists]
    exact UInt64.toNat_ofNat_of_lt' fits
  refine ⟨count, ?_⟩
  intro key entry found
  have member : key ∈ keys := (lists.listed key).mpr (by rw [found]; rfl)
  have least : entryLength (cache.l1 key) ≤ dataBytes cache.l1 keys := entry_length_le member
  rw [found] at least
  rw [count]
  exact least

/-- After every call of every history, on every disk and with every limit: the list
of the clock names the keys of L1 once each, the index maps exactly these keys, each
to its own node, and the byte count is the sum of the sizes of the data. It is that
sum and not a remainder of it as long as the data fit the address space. -/
theorem l1_representation (disk : Directory String) (maxL1Bytes : UInt64) {cache : IndexedCache}
    (reached : Reaches step (fun _ _ => True) (create disk maxL1Bytes) cache) :
    Represented cache ∧ ∀ keys, ListsKeys cache.l1 keys →
      cache.l1Bytes = UInt64.ofNat (dataBytes cache.l1 keys) ∧
        (dataBytes cache.l1 keys < 2 ^ 64 → cache.l1Bytes.toNat = dataBytes cache.l1 keys ∧
          ∀ key entry, cache.l1 key = some entry → entry.data.length ≤ cache.l1Bytes.toNat) := by
  have represented := reached_represented reached
  refine ⟨represented, ?_⟩
  intro keys lists
  constructor
  · rw [represented.bytes, lists_keys_bytes represented.order lists]
  · intro fits
    exact represented_exact represented lists fits

/-- A hit, an eviction with its promotion back, and an update. -/
def putsAndGets : List Call :=
  [.put "a" [1], .put "b" [2], .get "a", .put "c" [3], .get "a", .get "b", .put "b" [4, 5]]

theorem l1_representation_puts_and_gets :
    Represented ((runCalls step (fun _ _ => True) (create (Directory.empty String) 2)
      putsAndGets).get (by decide +kernel)) :=
  (l1_representation _ _ (reaches_of_run_get putsAndGets (by decide +kernel))).1

end AmpFormal.CacheFastRepresentation
