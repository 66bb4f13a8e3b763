import AmpFormal.SecondChance
import AmpFormal.CacheFastIndexModel
import AmpFormal.CacheFastLimit

/-!
# The clock is a second-chance queue

On a cache whose list names each cached key once, `evict_to_fit` is two sweeps of
the second-chance queue over the keys, with the bits of L1, the byte count as the
load and the size of a payload as what giving up its key releases. The list, the
index, the entries and the counters it leaves are those of the queue's outcome.
-/

namespace AmpFormal.CacheFastClock

open AmpFormal.FileDirectory AmpFormal.CacheFastModel AmpFormal.CacheFastIndexModel
open AmpFormal.CacheFastIndexModel.IndexedCache AmpFormal.CacheFastLimit AmpFormal.SecondChance

set_option autoImplicit false

def bits (cache : IndexedCache) (key : String) : Bool := (cache.l1 key).any (·.recentlyUsed)

def Exceeds (limit needed load : UInt64) : Prop := load + needed > limit

instance (limit needed : UInt64) : DecidablePred (Exceeds limit needed) :=
  fun load => inferInstanceAs (Decidable (load + needed > limit))

def release (weight : String → UInt64) (load : UInt64) (key : String) : UInt64 :=
  load - weight key

def survivors (nodes : List Node) (victims : List String) : List Node :=
  nodes.filter fun node => !victims.elem node.key

/-- The entries that are not given up, with the bits of the outcome. -/
def entriesAfter (l1 : String → Option Entry) (outcome : Outcome String UInt64) (key : String) :
    Option Entry :=
  if key ∈ outcome.victims then none
  else (l1 key).map fun entry => { entry with recentlyUsed := outcome.used key }

def positionsAfter (clockPos : String → Option Nat) (victims : List String) (key : String) :
    Option Nat :=
  if key ∈ victims then none else clockPos key

def settle (weight : String → UInt64) (cache : IndexedCache) (outcome : Outcome String UInt64) :
    IndexedCache :=
  { cache with
    l1 := entriesAfter cache.l1 outcome
    clockPos := positionsAfter cache.clockPos outcome.victims
    l1Bytes := outcome.victims.foldl (release weight) cache.l1Bytes
    evictions := cache.evictions + UInt64.ofNat outcome.victims.length
    evicted := cache.evicted ++ outcome.victims }

def trim (weight : String → UInt64) (cache : IndexedCache) (outcome : Outcome String UInt64) :
    IndexedCache :=
  { settle weight cache outcome with clockOrder := survivors cache.clockOrder outcome.victims }

def Weighs (weight : String → UInt64) (cache : IndexedCache) (nodes : List Node) : Prop :=
  ∀ node ∈ nodes, ∃ entry, cache.l1 node.key = some entry ∧ size entry.data = weight node.key

section Scan

variable {weight : String → UInt64} {cache : IndexedCache}

theorem survivors_keys (nodes : List Node) (victims : List String) :
    (survivors nodes victims).map Node.key = (nodes.map Node.key).removeAll victims := by
  rw [survivors, List.removeAll, List.filter_map]
  rfl

theorem survivors_nil (nodes : List Node) : survivors nodes [] = nodes :=
  List.filter_eq_self.mpr fun _ _ => rfl

theorem survivors_spared {node : Node} {victims : List String} (spared : node.key ∉ victims)
    (rest : List Node) : survivors (node :: rest) victims = node :: survivors rest victims := by
  simp [survivors, spared]

theorem survivors_given_up {node : Node} {rest : List Node}
    (fresh : node.key ∉ rest.map Node.key) (victims : List String) :
    survivors (node :: rest) (node.key :: victims) = survivors rest victims := by
  have dropped : survivors (node :: rest) (node.key :: victims) =
      survivors rest (node.key :: victims) := by
    simp [survivors]
  rw [dropped]
  apply List.filter_congr
  intro other member
  have apart : other.key ≠ node.key := ne_of_mem_of_not_mem (List.mem_map_of_mem member) fresh
  simp [apart]

theorem settle_idle (cache : IndexedCache) (order : List String) (load : UInt64) :
    settle weight cache (idle (bits cache) order load) = cache := by
  have entries : entriesAfter cache.l1 (idle (bits cache) order load) = cache.l1 := by
    funext key
    cases found : cache.l1 key with
    | none => simp [entriesAfter, idle, found]
    | some entry => simp [entriesAfter, idle, bits, found]
  have positions : positionsAfter cache.clockPos [] = cache.clockPos := by
    funext key
    simp [positionsAfter]
  have count : cache.evictions + UInt64.ofNat 0 = cache.evictions := UInt64.add_zero _
  simp only [settle, entries]
  simp only [idle, positions, List.foldl_nil, List.append_nil, List.length_nil, count]

theorem settle_cleared {key : String} {entry : Entry} (found : cache.l1 key = some entry)
    (outcome : Outcome String UInt64) :
    settle weight (cache.setEntry key (some { entry with recentlyUsed := false })) outcome =
      settle weight cache (outcome.spare key) := by
  have entries : entriesAfter
      (Function.update cache.l1 key (some { entry with recentlyUsed := false })) outcome =
        entriesAfter cache.l1 (outcome.spare key) := by
    funext other
    by_cases here : other = key
    · subst here
      simp [entriesAfter, found]
    · rw [entriesAfter, entriesAfter, Function.update_of_ne here]
      rfl
  simp only [settle, setEntry, entries, Outcome.spare_victims]

theorem settle_evicted {key : String} {entry : Entry} (heavy : size entry.data = weight key)
    (outcome : Outcome String UInt64) :
    settle weight (cache.evict key entry) outcome =
      settle weight cache (outcome.giveUpFirst [key]) := by
  have entries : entriesAfter (Function.update cache.l1 key none) outcome =
      entriesAfter cache.l1 (outcome.giveUpFirst [key]) := by
    funext other
    by_cases here : other = key
    · subst here
      simp [entriesAfter]
    · simp [entriesAfter, here]
  have positions : positionsAfter (Function.update cache.clockPos key none) outcome.victims =
      positionsAfter cache.clockPos (key :: outcome.victims) := by
    funext other
    by_cases here : other = key
    · subst here
      simp [positionsAfter]
    · simp [positionsAfter, here]
  have count : cache.evictions + 1 + UInt64.ofNat outcome.victims.length =
      cache.evictions + UInt64.ofNat (outcome.victims.length + 1) := by
    rw [UInt64.ofNat_add]
    grind
  simp only [settle, evict, setEntry, entries, positions, count, Outcome.give_up_first_victims,
    List.singleton_append, List.foldl_cons, List.length_cons, List.append_assoc, release, heavy]

theorem weighs_update {nodes : List Node} (weighs : Weighs weight cache nodes) {key : String}
    (fresh : key ∉ nodes.map Node.key) {after : IndexedCache} {slot : Option Entry}
    (entries : after.l1 = Function.update cache.l1 key slot) : Weighs weight after nodes := by
  intro node member
  have apart : node.key ≠ key := ne_of_mem_of_not_mem (List.mem_map_of_mem member) fresh
  rw [entries, Function.update_of_ne apart]
  exact weighs node member

theorem bits_update {key : String} {after : IndexedCache} {slot : Option Entry}
    (entries : after.l1 = Function.update cache.l1 key slot)
    (clear : slot.any (·.recentlyUsed) = false) :
    bits after = Function.update (bits cache) key false := by
  funext other
  rw [bits, entries]
  by_cases here : other = key
  · subst here
    rw [Function.update_self, Function.update_self, clear]
  · rw [Function.update_of_ne here, Function.update_of_ne here, bits]

theorem clock_scan_eq (needed : UInt64) {nodes : List Node} (cache : IndexedCache)
    (distinct : (nodes.map Node.key).Nodup) (weighs : Weighs weight cache nodes)
    (current : UInt64) {outcome : Outcome String UInt64}
    (swept : sweep (Exceeds cache.maxL1Bytes needed) (release weight) (bits cache)
      (nodes.map Node.key) current = outcome) :
    clockScan needed nodes cache current =
      (survivors nodes outcome.victims, settle weight cache outcome, outcome.load) := by
  induction nodes generalizing cache current outcome with
  | nil =>
      rw [← swept, List.map_nil, sweep, settle_idle]
      rfl
  | cons node rest ih =>
      obtain ⟨fresh, tail⟩ := List.nodup_cons.mp distinct
      obtain ⟨entry, found, heavy⟩ := weighs node List.mem_cons_self
      have others : Weighs weight cache rest :=
        fun other member => weighs other (List.mem_cons_of_mem node member)
      rw [List.map_cons] at swept
      by_cases full : Exceeds cache.maxL1Bytes needed current
      · have stillFull : current + needed > cache.maxL1Bytes := full
        rw [clockScan, if_pos stillFull, found]
        dsimp only
        cases bit : entry.recentlyUsed with
        | true =>
            have used : bits cache node.key = true := by simp [bits, found, bit]
            rw [sweep_spares full used] at swept
            rw [if_pos rfl, ih (cache.setEntry node.key (some { entry with recentlyUsed := false }))
              tail (weighs_update others fresh rfl) current rfl, settle_cleared found,
              bits_update rfl rfl, ← swept]
            have spared : node.key ∉ (sweep (Exceeds cache.maxL1Bytes needed) (release weight)
                (Function.update (bits cache) node.key false) (rest.map Node.key) current).victims :=
              fun given => fresh (sweep_victims_subset given)
            rw [Outcome.spare_victims, survivors_spared spared]
            rfl
        | false =>
            have unused : bits cache node.key = false := by simp [bits, found, bit]
            have same : bits (cache.evict node.key entry) = bits cache := by
              rw [bits_update rfl rfl, Function.update_eq_self_iff.mpr unused.symm]
            rw [sweep_gives_up full unused] at swept
            rw [if_neg Bool.false_ne_true, ih (cache.evict node.key entry) tail
              (weighs_update others fresh rfl) (current - size entry.data) rfl,
              settle_evicted heavy, same, ← swept]
            rw [Outcome.give_up_first_victims, List.singleton_append, survivors_given_up fresh]
            rw [release, ← heavy]
            rfl
      · have within : ¬current + needed > cache.maxL1Bytes := full
        rw [← swept, clockScan, if_neg within, sweep_within full, settle_idle]
        exact congrArg (·, cache, current) (survivors_nil _).symm

end Scan

section Passes

variable {weight : String → UInt64}

theorem trim_idle (cache : IndexedCache) (order : List String) (load : UInt64) :
    trim weight cache (idle (bits cache) order load) = cache := by
  rw [trim, settle_idle]
  have order : survivors cache.clockOrder [] = cache.clockOrder := survivors_nil _
  simp only [idle, order]

theorem trim_trim (cache : IndexedCache) (first later : Outcome String UInt64) :
    trim weight (trim weight cache first) later =
      trim weight cache (later.giveUpFirst first.victims) := by
  have order : survivors (survivors cache.clockOrder first.victims) later.victims =
      survivors cache.clockOrder (first.victims ++ later.victims) := by
    rw [survivors, survivors, List.filter_filter]
    apply List.filter_congr
    intro node _
    simp [Bool.and_comm]
  have entries : entriesAfter (entriesAfter cache.l1 first) later =
      entriesAfter cache.l1 (later.giveUpFirst first.victims) := by
    funext key
    by_cases early : key ∈ first.victims
    · simp [entriesAfter, early]
    · simp only [entriesAfter, early, if_false, Option.map_map, Outcome.give_up_first_victims,
        Outcome.give_up_first_used, List.mem_append, false_or]
      rfl
  have positions : positionsAfter (positionsAfter cache.clockPos first.victims) later.victims =
      positionsAfter cache.clockPos (first.victims ++ later.victims) := by
    funext key
    by_cases early : key ∈ first.victims <;> simp [positionsAfter, early]
  have count : cache.evictions + UInt64.ofNat first.victims.length +
        UInt64.ofNat later.victims.length =
      cache.evictions + UInt64.ofNat (first.victims.length + later.victims.length) := by
    rw [UInt64.ofNat_add, UInt64.add_assoc]
  simp only [trim, settle, order, entries, positions, count, Outcome.give_up_first_victims,
    List.foldl_append, List.length_append, List.append_assoc]

theorem bits_trim {cache : IndexedCache} {outcome : Outcome String UInt64}
    (given : ∀ key ∈ outcome.victims, outcome.used key = false)
    (clear : ∀ key, bits cache key = false → outcome.used key = false) :
    bits (trim weight cache outcome) = outcome.used := by
  funext key
  by_cases victim : key ∈ outcome.victims
  · simp [bits, trim, settle, entriesAfter, victim, given key victim]
  · cases found : cache.l1 key with
    | none =>
        have unset : bits cache key = false := by simp [bits, found]
        simp [bits, trim, settle, entriesAfter, found, clear key unset]
    | some entry => simp [bits, trim, settle, entriesAfter, victim, found]

theorem weighs_trim {cache : IndexedCache} (weighs : Weighs weight cache cache.clockOrder)
    (outcome : Outcome String UInt64) :
    Weighs weight (trim weight cache outcome) (trim weight cache outcome).clockOrder := by
  intro node member
  obtain ⟨listed, spared⟩ := List.mem_filter.mp member
  obtain ⟨entry, found, heavy⟩ := weighs node listed
  have kept : node.key ∉ outcome.victims := by simpa using spared
  refine ⟨{ entry with recentlyUsed := outcome.used node.key }, ?_, heavy⟩
  simp [trim, settle, entriesAfter, kept, found]

/-- The passes of the clock are the sweeps of the queue. -/
theorem clock_passes_eq (needed : UInt64) (count : Nat) (cache : IndexedCache)
    (distinct : (cache.clockOrder.map Node.key).Nodup)
    (weighs : Weighs weight cache cache.clockOrder) (current : UInt64) :
    clockPasses needed count cache current =
      trim weight cache (sweeps (Exceeds cache.maxL1Bytes needed) (release weight) count
        (bits cache) (cache.clockOrder.map Node.key) current) := by
  induction count generalizing cache current with
  | zero => rw [clockPasses, sweeps, trim_idle]
  | succ count ih =>
      by_cases full : Exceeds cache.maxL1Bytes needed current
      · have stillFull : current + needed > cache.maxL1Bytes := full
        rw [clockPasses, if_pos stillFull, sweeps, if_pos full]
        generalize swept : sweep (Exceeds cache.maxL1Bytes needed) (release weight) (bits cache)
          (cache.clockOrder.map Node.key) current = first
        rw [clock_scan_eq needed cache distinct weighs current swept]
        have used : bits (trim weight cache first) = first.used := by
          apply bits_trim
          · intro key victim
            rw [← swept] at victim ⊢
            exact sweep_victims_clear victim
          · intro key unset
            rw [← swept]
            exact sweep_clear unset _ _
        have kept : (trim weight cache first).clockOrder.map Node.key = first.kept := by
          rw [trim, survivors_keys, ← swept, sweep_kept _ _ _ distinct]
        have fewer : ((trim weight cache first).clockOrder.map Node.key).Nodup := by
          rw [trim, survivors_keys]
          exact distinct.filter _
        have later := ih (trim weight cache first) fewer (weighs_trim weighs first) first.load
        rw [used, kept, trim_trim] at later
        exact later
      · have within : ¬current + needed > cache.maxL1Bytes := full
        rw [clockPasses, if_neg within, sweeps_within full, trim_idle]

def clockOutcome (cache : IndexedCache) (needed : UInt64) : Outcome String UInt64 :=
  sweeps (Exceeds cache.maxL1Bytes needed) (release fun key => entrySize (cache.l1 key)) 2
    (bits cache) (cache.clockOrder.map Node.key) cache.l1Bytes

/-- `evict_to_fit` on a limited cache is the second-chance queue on its keys. -/
theorem evict_to_fit_eq {cache : IndexedCache}
    (distinct : (cache.clockOrder.map Node.key).Nodup)
    (present : ∀ node ∈ cache.clockOrder, (cache.l1 node.key).isSome = true)
    (limited : cache.maxL1Bytes ≠ 0) (needed : UInt64) :
    cache.evictToFit needed =
      trim (fun key => entrySize (cache.l1 key)) cache (clockOutcome cache needed) := by
  have weighs : Weighs (fun key => entrySize (cache.l1 key)) cache cache.clockOrder := by
    intro node member
    obtain ⟨entry, found⟩ := Option.isSome_iff_exists.mp (present node member)
    refine ⟨entry, found, ?_⟩
    dsimp only
    rw [found, entrySize]
  rw [evictToFit, if_neg limited, clockOutcome]
  split
  case isTrue room =>
    have within : ¬Exceeds cache.maxL1Bytes needed cache.l1Bytes := UInt64.not_lt.mpr room
    rw [sweeps_within within, trim_idle]
  case isFalse => exact clock_passes_eq needed 2 cache distinct weighs cache.l1Bytes

end Passes

end AmpFormal.CacheFastClock
