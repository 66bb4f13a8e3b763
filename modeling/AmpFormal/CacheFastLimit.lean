import AmpFormal.CacheFastModel
import Mathlib.Data.UInt

/-!
# The memory limit of L1

`l1_bytes_` is the sum of the cached payloads, modulo 2^64, and `clock_order_`
lists the cached keys once each. Two passes of the clock make room for any payload
that fits the limit: a first pass that goes to the end clears every bit, and a
second pass that goes to the end leaves nothing. The update of a cached key by
`put` makes no room, so the limit holds exactly as long as each such update fits.
-/

namespace AmpFormal.CacheFastLimit

open AmpFormal.FileDirectory AmpFormal.CacheFastModel AmpFormal.CacheFastModel.CacheStoreFast

set_option autoImplicit false

def entrySize (slot : Option Entry) : UInt64 :=
  match slot with
  | some entry => size entry.data
  | none => 0

def cached (l1 : String → Option Entry) (order : List String) : UInt64 :=
  (order.map fun key => entrySize (l1 key)).sum

theorem cached_cons (l1 : String → Option Entry) (key : String) (rest : List String) :
    cached l1 (key :: rest) = entrySize (l1 key) + cached l1 rest := by
  simp [cached]

theorem cached_snoc (l1 : String → Option Entry) (order : List String) (key : String) :
    cached l1 (order ++ [key]) = cached l1 order + entrySize (l1 key) := by
  induction order with
  | nil => simp [cached]
  | cons first rest ih =>
      rw [List.cons_append, cached_cons, ih, cached_cons, UInt64.add_assoc]

theorem cached_congr {l1 other : String → Option Entry} {order : List String}
    (same : ∀ key ∈ order, entrySize (l1 key) = entrySize (other key)) :
    cached l1 order = cached other order := by
  rw [cached, cached, List.map_congr_left same]

theorem cached_update_of_not_mem {l1 : String → Option Entry} {order : List String} {key : String}
    (absent : key ∉ order) (slot : Option Entry) :
    cached (Function.update l1 key slot) order = cached l1 order := by
  refine cached_congr fun other member => ?_
  rw [Function.update_of_ne]
  rintro rfl
  exact absent member

theorem cached_update (l1 : String → Option Entry) {order : List String} (distinct : order.Nodup)
    {key : String} (member : key ∈ order) (slot : Option Entry) :
    cached (Function.update l1 key slot) order + entrySize (l1 key) =
      cached l1 order + entrySize slot := by
  induction order with
  | nil => cases member
  | cons first rest ih =>
      obtain ⟨fresh, tail⟩ := List.nodup_cons.mp distinct
      rw [cached_cons, cached_cons]
      rcases List.mem_cons.mp member with rfl | later
      · rw [cached_update_of_not_mem fresh, Function.update_self]
        grind
      · have different : first ≠ key := by
          rintro rfl
          exact fresh later
        have step := ih tail later
        rw [Function.update_of_ne different]
        grind

/-- `clock_order_` lists the keys of L1 and `l1_bytes_` counts their payloads. -/
structure Accounted (cache : CacheStoreFast) : Prop where
  nodup : cache.clockOrder.Nodup
  listed : ∀ key, key ∈ cache.clockOrder ↔ (cache.l1 key).isSome = true
  bytes : cache.l1Bytes = cached cache.l1 cache.clockOrder

/-! ## The clock -/

structure Scanned (needed : UInt64) (rest : List String) (cache : CacheStoreFast)
    (order : List String) (after : CacheStoreFast) (current : UInt64) : Prop where
  count : current = after.l1Bytes
  limit : after.maxL1Bytes = cache.maxL1Bytes
  sublist : order.Sublist rest
  outside : ∀ key, key ∉ rest → after.l1 key = cache.l1 key
  listed : ∀ key ∈ rest, key ∈ order ↔ (after.l1 key).isSome = true
  bytes : after.l1Bytes + cached cache.l1 rest = cache.l1Bytes + cached after.l1 order
  /-- A pass that does not make room clears every bit, and drops what was clear. -/
  room : current + needed ≤ cache.maxL1Bytes ∨
    (∀ key ∈ order, ∀ entry, after.l1 key = some entry → entry.recentlyUsed = false) ∧
      ((∀ key ∈ rest, ∀ entry, cache.l1 key = some entry → entry.recentlyUsed = false) → order = [])

theorem update_outside {rest : List String} {before after : String → Option Entry} {key : String}
    {slot : Option Entry}
    (outside : ∀ other, other ∉ rest → after other = Function.update before key slot other)
    (other : String) (apart : other ∉ key :: rest) : after other = before other := by
  rw [outside other fun member => apart (List.mem_cons_of_mem key member)]
  refine Function.update_of_ne ?_ _ _
  rintro rfl
  exact apart List.mem_cons_self

theorem cleared_scanned {needed : UInt64} {rest kept : List String} {cache final : CacheStoreFast}
    {key : String} {entry : Entry} {left : UInt64} (found : cache.l1 key = some entry)
    (fresh : key ∉ rest) (cleared : final.l1 key = some { entry with recentlyUsed := false })
    (tailScan : Scanned needed rest
      (cache.setEntry key (some { entry with recentlyUsed := false })) kept final left)
    (used : entry.recentlyUsed = true) :
    Scanned needed (key :: rest) cache (key :: kept) final left := by
  refine ⟨tailScan.count, tailScan.limit, tailScan.sublist.cons_cons key, ?_, ?_, ?_, ?_⟩
  · exact update_outside tailScan.outside
  · intro other member
    rcases List.mem_cons.mp member with rfl | later
    · simp [cleared]
    · rw [← tailScan.listed other later, List.mem_cons]
      refine ⟨fun kept => kept.resolve_left ?_, Or.inr⟩
      rintro rfl
      exact fresh later
  · have bytes := tailScan.bytes
    rw [setEntry, cached_update_of_not_mem fresh] at bytes
    rw [cached_cons, cached_cons, found, cleared]
    simp only [entrySize] at bytes ⊢
    grind
  · rcases tailScan.room with room | ⟨clear, dropped⟩
    · exact Or.inl room
    · refine Or.inr ⟨?_, fun clean => ?_⟩
      · intro other member kept_entry present
        rcases List.mem_cons.mp member with rfl | later
        · rw [cleared] at present
          cases present
          rfl
        · exact clear other later kept_entry present
      · have unused := clean key List.mem_cons_self entry found
        rw [used] at unused
        cases unused

theorem evicted_scanned {needed : UInt64} {rest order : List String} {cache after : CacheStoreFast}
    {key : String} {entry : Entry} {current : UInt64} (found : cache.l1 key = some entry)
    (fresh : key ∉ rest)
    (tailScan : Scanned needed rest (cache.evict key entry) order after current) :
    Scanned needed (key :: rest) cache order after current := by
  have gone : after.l1 key = none := by
    rw [tailScan.outside key fresh]
    exact Function.update_self _ _ _
  refine ⟨tailScan.count, tailScan.limit, tailScan.sublist.cons key, ?_, ?_, ?_, ?_⟩
  · exact update_outside tailScan.outside
  · intro other member
    rcases List.mem_cons.mp member with rfl | later
    · simp only [gone, Option.isSome_none, Bool.false_eq_true, iff_false]
      exact fun kept => fresh (tailScan.sublist.subset kept)
    · exact tailScan.listed other later
  · have bytes := tailScan.bytes
    simp only [evict, setEntry, cached_update_of_not_mem fresh] at bytes
    rw [cached_cons, found]
    simp only [entrySize]
    grind
  · rcases tailScan.room with room | ⟨clear, dropped⟩
    · exact Or.inl room
    · refine Or.inr ⟨clear, fun clean => dropped fun other member kept present => ?_⟩
      have apart : other ≠ key := by
        rintro rfl
        exact fresh member
      simp only [evict, setEntry, Function.update_of_ne apart] at present
      exact clean other (List.mem_cons_of_mem key member) kept present

theorem clock_scan_scanned (needed : UInt64) (rest : List String) {cache after : CacheStoreFast}
    {order : List String} {current : UInt64} (distinct : rest.Nodup)
    (present : ∀ key ∈ rest, (cache.l1 key).isSome = true)
    (scanned : clockScan needed rest cache cache.l1Bytes = (order, after, current)) :
    Scanned needed rest cache order after current := by
  induction rest generalizing cache order after current with
  | nil =>
      cases scanned
      exact ⟨rfl, rfl, List.Sublist.refl _, fun _ _ => rfl, by simp, rfl, Or.inr ⟨by simp, by simp⟩⟩
  | cons key rest ih =>
      obtain ⟨fresh, tail⟩ := List.nodup_cons.mp distinct
      rw [clockScan] at scanned
      split at scanned
      case isFalse fits =>
        cases scanned
        exact ⟨rfl, rfl, List.Sublist.refl _, fun _ _ => rfl,
          fun other member => ⟨fun _ => present other member, fun _ => member⟩, rfl,
          Or.inl (UInt64.not_lt.mp fits)⟩
      case isTrue full =>
        split at scanned
        case h_1 absent => simp [absent] at present
        case h_2 entry found =>
          have untouched : ∀ slot, ∀ other ∈ rest,
              Function.update cache.l1 key slot other = cache.l1 other := by
            intro slot other member
            refine Function.update_of_ne ?_ _ _
            rintro rfl
            exact fresh member
          have remaining : ∀ slot, ∀ other ∈ rest,
              (Function.update cache.l1 key slot other).isSome = true := by
            intro slot other member
            rw [untouched slot other member]
            exact present other (List.mem_cons_of_mem key member)
          split at scanned
          case isTrue used =>
            generalize recursion : clockScan needed rest
              (cache.setEntry key (some { entry with recentlyUsed := false })) cache.l1Bytes =
                result at scanned
            obtain ⟨kept, final, left⟩ := result
            cases scanned
            have tailScan := ih tail (remaining _) recursion
            have cleared : after.l1 key = some { entry with recentlyUsed := false } := by
              rw [tailScan.outside key fresh]
              exact Function.update_self _ _ _
            exact cleared_scanned found fresh cleared tailScan used
          case isFalse unused =>
            exact evicted_scanned found fresh (ih tail (remaining none) scanned)

theorem scanned_accounted {needed : UInt64} {cache after : CacheStoreFast} {order : List String}
    {current : UInt64} (accounted : Accounted cache)
    (scanned : Scanned needed cache.clockOrder cache order after current) :
    Accounted { after with clockOrder := order } := by
  refine ⟨accounted.nodup.sublist scanned.sublist, fun key => ?_, ?_⟩
  · by_cases member : key ∈ cache.clockOrder
    · exact scanned.listed key member
    · have absent : (after.l1 key).isSome = false := by
        rw [scanned.outside key member]
        exact Bool.eq_false_iff.mpr fun present => member ((accounted.listed key).mpr present)
      simp only [absent, Bool.false_eq_true, iff_false]
      exact fun kept => member (scanned.sublist.subset kept)
  · have bytes := scanned.bytes
    rw [← accounted.bytes] at bytes
    change after.l1Bytes = cached after.l1 order
    grind

theorem clock_scan_accounted {needed : UInt64} {cache after : CacheStoreFast}
    {order : List String} {current : UInt64} (accounted : Accounted cache)
    (scanned : clockScan needed cache.clockOrder cache cache.l1Bytes = (order, after, current)) :
    Scanned needed cache.clockOrder cache order after current ∧
      Accounted { after with clockOrder := order } := by
  have result := clock_scan_scanned needed cache.clockOrder accounted.nodup
    (fun key member => (accounted.listed key).mp member) scanned
  exact ⟨result, scanned_accounted accounted result⟩

theorem clock_passes_accounted (needed : UInt64) (passes : Nat) {cache : CacheStoreFast}
    (accounted : Accounted cache) :
    Accounted (clockPasses needed passes cache cache.l1Bytes) := by
  induction passes generalizing cache with
  | zero => exact accounted
  | succ passes ih =>
      rw [clockPasses]
      split
      case isFalse => exact accounted
      case isTrue =>
        generalize scan : clockScan needed cache.clockOrder cache cache.l1Bytes = result
        obtain ⟨order, after, current⟩ := result
        obtain ⟨scanned, between⟩ := clock_scan_accounted accounted scan
        dsimp only
        rw [scanned.count]
        exact ih between

theorem evict_to_fit_accounted {cache : CacheStoreFast} (accounted : Accounted cache)
    (needed : UInt64) : Accounted (cache.evictToFit needed) := by
  unfold evictToFit
  split
  case isTrue => exact accounted
  case isFalse =>
    split
    case isTrue => exact accounted
    case isFalse => exact clock_passes_accounted needed 2 accounted

/-- Two passes make room for every payload that fits the limit. -/
theorem evict_to_fit_room {cache : CacheStoreFast} (accounted : Accounted cache)
    (limited : cache.maxL1Bytes ≠ 0) {needed : UInt64} (fits : needed ≤ cache.maxL1Bytes) :
    (cache.evictToFit needed).l1Bytes + needed ≤ cache.maxL1Bytes := by
  rw [evictToFit, if_neg limited]
  split
  case isTrue room => exact room
  case isFalse full =>
    have full := UInt64.not_le.mp full
    rw [clockPasses, if_pos full]
    generalize first : clockScan needed cache.clockOrder cache cache.l1Bytes = result
    obtain ⟨order, after, current⟩ := result
    obtain ⟨scanned, between⟩ := clock_scan_accounted accounted first
    dsimp only
    rw [scanned.count, clockPasses]
    split
    case isFalse room =>
      have room : after.l1Bytes + needed ≤ after.maxL1Bytes := UInt64.not_lt.mp room
      rw [scanned.limit] at room
      exact room
    case isTrue stillFull =>
      have stillFull : after.maxL1Bytes < after.l1Bytes + needed := stillFull
      rw [scanned.limit] at stillFull
      generalize second : clockScan needed order { after with clockOrder := order } after.l1Bytes =
        result
      obtain ⟨kept, final, left⟩ := result
      obtain ⟨rescanned, settled⟩ := clock_scan_accounted between second
      change final.l1Bytes + needed ≤ cache.maxL1Bytes
      rcases rescanned.room with room | ⟨-, dropped⟩
      · rw [rescanned.count, scanned.limit] at room
        exact room
      · -- the first pass went to the end, so the second one dropped everything
        have clear : ∀ key ∈ order, ∀ entry, after.l1 key = some entry →
            entry.recentlyUsed = false := by
          rcases scanned.room with room | ⟨clear, -⟩
          · rw [scanned.count] at room
            exact absurd stillFull (UInt64.not_lt.mpr room)
          · exact clear
        have empty := dropped clear
        have bytes : final.l1Bytes = 0 := by
          rw [settled.bytes, empty]
          rfl
        rw [bytes, UInt64.zero_add]
        exact fits

/-! ## The calls -/

theorem replaced_listed {cache : CacheStoreFast} (accounted : Accounted cache) {key : String}
    (member : key ∈ cache.clockOrder) (entry : Entry) (other : String) :
    other ∈ cache.clockOrder ↔ (Function.update cache.l1 key (some entry) other).isSome = true := by
  by_cases here : other = key
  · subst here
    simp [member]
  · rw [Function.update_of_ne here]
    exact accounted.listed other

theorem hit_accounted {cache : CacheStoreFast} (accounted : Accounted cache) {key : String}
    {entry : Entry} (present : cache.l1 key = some entry) : Accounted (cache.hit key entry) := by
  have member : key ∈ cache.clockOrder := (accounted.listed key).mpr (by rw [present]; rfl)
  refine ⟨accounted.nodup, replaced_listed accounted member _, ?_⟩
  · have changed := cached_update cache.l1 accounted.nodup member
      (some { entry with recentlyUsed := true })
    rw [present] at changed
    rw [CacheStoreFast.hit, setEntry]
    simp only [entrySize] at changed ⊢
    rw [accounted.bytes]
    grind

theorem l1_put_locked_accounted {cache : CacheStoreFast} (accounted : Accounted cache)
    {key : String} (absent : cache.l1 key = none) (bin : Bytes) :
    Accounted (cache.l1PutLocked key bin) := by
  have evicted := evict_to_fit_accounted accounted (size bin)
  have gone : (cache.evictToFit (size bin)).l1 key = none := by
    cases kept : (cache.evictToFit (size bin)).l1 key with
    | none => rfl
    | some entry =>
        obtain ⟨older, before, -⟩ := (evict_to_fit_shrinks cache (size bin)).entries key entry kept
        rw [absent] at before
        cases before
  have fresh : key ∉ (cache.evictToFit (size bin)).clockOrder := by
    rw [evicted.listed, gone]
    simp
  refine ⟨?_, fun other => ?_, ?_⟩
  · rw [l1PutLocked]
    refine List.nodup_append.mpr ⟨evicted.nodup, by simp, ?_⟩
    intro left member right single same
    rw [List.mem_singleton.mp single] at same
    exact fresh (same ▸ member)
  · simp only [l1PutLocked, setEntry, List.mem_append, List.mem_singleton]
    by_cases here : other = key
    · subst here
      simp
    · simp only [here, or_false, Function.update_of_ne here]
      exact evicted.listed other
  · simp only [l1PutLocked, setEntry, cached_snoc, cached_update_of_not_mem fresh,
      Function.update_self, entrySize]
    rw [evicted.bytes]

theorem promote_accounted {cache : CacheStoreFast} (accounted : Accounted cache) (key : String)
    (bin : Bytes) : Accounted (cache.promote key bin) := by
  unfold promote
  split
  case h_1 => exact accounted
  case h_2 absent => exact l1_put_locked_accounted accounted absent bin

theorem store_accounted {cache : CacheStoreFast} (accounted : Accounted cache) (key : String)
    (bin : Bytes) : Accounted (cache.store key bin) := by
  unfold store
  split
  case h_1 entry present =>
    have member : key ∈ cache.clockOrder := (accounted.listed key).mpr (by rw [present]; rfl)
    refine ⟨accounted.nodup, replaced_listed accounted member _, ?_⟩
    have changed := cached_update cache.l1 accounted.nodup member
      (some { data := bin, recentlyUsed := true })
    rw [present] at changed
    simp only [setEntry, entrySize] at changed ⊢
    rw [accounted.bytes]
    grind
  case h_2 absent => exact l1_put_locked_accounted accounted absent bin

theorem get_accounted {cache : CacheStoreFast} (accounted : Accounted cache) (key : String) :
    Accounted (cache.get key).1 := by
  unfold CacheStoreFast.get
  split
  case h_1 entry present => exact hit_accounted accounted present
  case h_2 =>
    split
    case h_1 => exact ⟨accounted.nodup, accounted.listed, accounted.bytes⟩
    case h_2 bin _ =>
      have promoted := promote_accounted accounted key bin
      exact ⟨promoted.nodup, promoted.listed, promoted.bytes⟩

theorem call_accounted {cache after : CacheStoreFast} (accounted : Accounted cache) {call : Call}
    {result : Option Bytes} (done : cache.call call = some (after, result)) :
    Accounted after := by
  cases call with
  | get key =>
      have same : (cache.get key).1 = after := congrArg Prod.fst (Option.some.inj done)
      rw [← same]
      exact get_accounted accounted key
  | put key bin =>
      obtain ⟨disk, written⟩ := CacheStoreModel.put_isSome cache.disk key bin
      simp only [CacheStoreFast.call, CacheStoreFast.put, written, Option.map_some,
        Option.some.injEq, Prod.mk.injEq] at done
      have replaced : Accounted { cache with disk } :=
        ⟨accounted.nodup, accounted.listed, accounted.bytes⟩
      rw [← done.1]
      exact store_accounted replaced key bin

/-- The update of a cached key fits the limit. -/
def UpdateFits (cache : CacheStoreFast) : Call → Prop
  | .get _ => True
  | .put key bin =>
      ∀ entry ∈ cache.l1 key, cache.l1Bytes - size entry.data + size bin ≤ cache.maxL1Bytes

theorem store_fits_iff {cache : CacheStoreFast} (accounted : Accounted cache)
    (limited : cache.maxL1Bytes ≠ 0) (key : String) {bin : Bytes}
    (fits : size bin ≤ cache.maxL1Bytes) :
    (cache.store key bin).l1Bytes ≤ cache.maxL1Bytes ↔ UpdateFits cache (.put key bin) := by
  unfold store UpdateFits
  split
  case h_1 entry present => simp [present]
  case h_2 absent =>
    have room : (cache.l1PutLocked key bin).l1Bytes ≤ cache.maxL1Bytes :=
      evict_to_fit_room accounted limited fits
    simp [absent, room]

/-! ## Histories -/

structure Moment where
  before : CacheStoreFast
  call : Call
  after : CacheStoreFast

def history (cache : CacheStoreFast) : List Call → List Moment
  | [] => []
  | call :: rest =>
      match cache.call call with
      | some (after, _) => { before := cache, call, after } :: history after rest
      | none => []

theorem history_calls (cache : CacheStoreFast) (calls : List Call) :
    (history cache calls).map (·.call) = calls := by
  induction calls generalizing cache with
  | nil => rfl
  | cons call rest ih =>
      have done : ∃ after result, cache.call call = some (after, result) := by
        cases call with
        | get key => exact ⟨_, _, rfl⟩
        | put key bin =>
            obtain ⟨disk, written⟩ := CacheStoreModel.put_isSome cache.disk key bin
            simp [CacheStoreFast.call, CacheStoreFast.put, written]
      obtain ⟨after, result, done⟩ := done
      simp only [history, done, List.map_cons, ih]

/-- Every payload on disk fits the limit. -/
def DiskFits (limit : UInt64) (disk : Directory String) : Prop :=
  ∀ key bin, CacheStoreModel.get disk key = some bin → bin.length ≤ limit.toNat

/-- Between the calls of a history that has kept the limit so far. -/
structure Bounded (limit : UInt64) (cache : CacheStoreFast) : Prop where
  accounted : Accounted cache
  configured : cache.maxL1Bytes = limit
  disk : DiskFits limit cache.disk

theorem size_le {limit : UInt64} {bin : Bytes} (fits : bin.length ≤ limit.toNat) :
    size bin ≤ limit := by
  rw [UInt64.le_iff_toNat_le, size, UInt64.toNat_ofNat']
  exact Nat.le_trans (Nat.mod_le _ _) fits

theorem put_disk_fits {limit : UInt64} {disk after : Directory String} {key : String} {bin : Bytes}
    (stored : DiskFits limit disk) (fits : bin.length ≤ limit.toNat)
    (done : CacheStoreModel.put disk key bin = some after) : DiskFits limit after := by
  intro other read found
  rcases CacheStoreModel.put_get_or done other with new | gone | old
  · rw [new] at found
    exact Nat.le_trans (CacheStoreModel.parse_entry_length found) fits
  · rw [gone] at found
    cases found
  · exact stored other read (old ▸ found)

/-- One call: the limit holds after it exactly when its update of L1 fits. -/
theorem call_bounded {limit : UInt64} {cache : CacheStoreFast} (bounded : Bounded limit cache)
    (limited : 0 < limit) (within : cache.l1Bytes ≤ limit) {call : Call}
    (payload : ∀ key bin, call = .put key bin → bin.length ≤ limit.toNat) :
    ∃ after result, cache.call call = some (after, result) ∧ Bounded limit after ∧
      (after.l1Bytes ≤ limit ↔ UpdateFits cache call) := by
  have nonzero : cache.maxL1Bytes ≠ 0 := by
    rw [bounded.configured]
    exact UInt64.pos_iff_ne_zero.mp limited
  cases call with
  | get key =>
      have kept := get_accounted bounded.accounted key
      refine ⟨(cache.get key).1, (cache.get key).2, rfl, ?_⟩
      unfold CacheStoreFast.get at kept ⊢
      split at kept
      case h_1 =>
        exact ⟨⟨kept, bounded.configured, bounded.disk⟩, fun _ => trivial, fun _ => within⟩
      case h_2 absent =>
        split at kept
        case h_1 =>
          exact ⟨⟨kept, bounded.configured, bounded.disk⟩, fun _ => trivial, fun _ => within⟩
        case h_2 bin found =>
          have fits := size_le (bounded.disk key bin found)
          rw [← bounded.configured] at fits
          have room : (cache.l1PutLocked key bin).l1Bytes ≤ cache.maxL1Bytes :=
            evict_to_fit_room bounded.accounted nonzero fits
          have writes := l1_put_locked_writes cache key bin
          have promoted : cache.promote key bin = cache.l1PutLocked key bin := by
            rw [promote, absent]
          dsimp only at kept ⊢
          rw [promoted] at kept ⊢
          rw [bounded.configured] at room
          refine ⟨⟨kept, writes.limit.trans bounded.configured, ?_⟩, fun _ => trivial,
            fun _ => room⟩
          rw [writes.disk]
          exact bounded.disk
  | put key bin =>
      have fits := payload key bin rfl
      obtain ⟨disk, done⟩ := CacheStoreModel.put_isSome cache.disk key bin
      have accounted : Accounted { cache with disk } :=
        ⟨bounded.accounted.nodup, bounded.accounted.listed, bounded.accounted.bytes⟩
      have small : size bin ≤ cache.maxL1Bytes := by
        rw [bounded.configured]
        exact size_le fits
      have writes := store_writes { cache with disk } key bin
      refine ⟨({ cache with disk } : CacheStoreFast).store key bin, none, ?_,
        ⟨store_accounted accounted key bin, writes.limit.trans bounded.configured, ?_⟩, ?_⟩
      · simp only [CacheStoreFast.call, CacheStoreFast.put, done, Option.map_some]
      · rw [writes.disk]
        exact put_disk_fits bounded.disk fits done
      · rw [← bounded.configured]
        exact store_fits_iff accounted nonzero key small

theorem history_bounded {limit : UInt64} (limited : 0 < limit) (calls : List Call)
    {cache : CacheStoreFast} (bounded : Bounded limit cache) (within : cache.l1Bytes ≤ limit)
    (payloads : ∀ key bin, Call.put key bin ∈ calls → bin.length ≤ limit.toNat) :
    (∀ moment ∈ history cache calls, moment.after.l1Bytes ≤ limit) ↔
      ∀ moment ∈ history cache calls, UpdateFits moment.before moment.call := by
  induction calls generalizing cache with
  | nil => simp [history]
  | cons call rest ih =>
      have now : ∀ key bin, call = .put key bin → bin.length ≤ limit.toNat :=
        fun key bin same => payloads key bin (by simp [same])
      obtain ⟨after, result, done, next, here⟩ := call_bounded bounded limited within now
      simp only [history, done, List.forall_mem_cons]
      rw [here]
      refine and_congr_right fun fits => ?_
      exact ih next (here.mpr fits) fun key bin later =>
        payloads key bin (List.mem_cons_of_mem call later)

/-- When no payload is longer than the limit, the limit holds after every call of a
history exactly when every update of a cached key fits. -/
theorem limit_holds_iff_updates_fit (maxL1Bytes : UInt64) (limited : 0 < maxL1Bytes)
    (disk : Directory String) (stored : DiskFits maxL1Bytes disk) (calls : List Call)
    (payloads : ∀ key bin, Call.put key bin ∈ calls → bin.length ≤ maxL1Bytes.toNat) :
    (∀ moment ∈ history (create disk maxL1Bytes) calls, moment.after.l1Bytes ≤ maxL1Bytes) ↔
      ∀ moment ∈ history (create disk maxL1Bytes) calls, UpdateFits moment.before moment.call :=
  history_bounded limited calls ⟨⟨List.nodup_nil, by simp [create], rfl⟩, rfl, stored⟩
    (UInt64.zero_le) payloads

theorem empty_disk_fits (limit : UInt64) : DiskFits limit (Directory.empty String) := by
  intro key bin found
  cases found

/-- A put that evicts the other entry, and an update that fits. -/
theorem limit_holds_iff_updates_fit_evicting :
    (∀ moment ∈ history (create (Directory.empty String) 2)
        [.put "a" [1], .put "b" [2, 3], .put "b" [4]], moment.after.l1Bytes ≤ 2) ↔
      ∀ moment ∈ history (create (Directory.empty String) 2)
        [.put "a" [1], .put "b" [2, 3], .put "b" [4]], UpdateFits moment.before moment.call :=
  limit_holds_iff_updates_fit 2 (by decide) _ (empty_disk_fits 2) _ (by
    intro key bin member
    simp only [List.mem_cons, Call.put.injEq, List.not_mem_nil, or_false] at member
    rcases member with ⟨-, rfl⟩ | ⟨-, rfl⟩ | ⟨-, rfl⟩ <;> decide)

def growing : List Call := [.put "a" [1], .put "b" [2], .put "a" [3, 4]]

/-- The value of a cached key grows by more than the room that is left. -/
theorem growing_update_exceeds_limit :
    DiskFits 2 (Directory.empty String) ∧
      (∀ key bin, Call.put key bin ∈ growing → bin.length ≤ 2) ∧
        ∃ moment ∈ history (create (Directory.empty String) 2) growing,
          ¬moment.after.l1Bytes ≤ 2 := by
  refine ⟨empty_disk_fits 2, ?_, by decide +kernel⟩
  intro key bin member
  simp only [growing, List.mem_cons, Call.put.injEq, List.not_mem_nil, or_false] at member
  rcases member with ⟨-, rfl⟩ | ⟨-, rfl⟩ | ⟨-, rfl⟩ <;> decide

end AmpFormal.CacheFastLimit
