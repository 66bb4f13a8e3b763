import AmpFormal.PagePoolFastSequential
import AmpFormal.TransitionRuns

/-!
# Free stacks and timestamps of the sharded pool

In a sequential history whose callers free and touch only pages that they hold,
the stacks stay lists, and the pages on them are exactly the pages whose timestamp
is zero, each in its own shard. The pages a caller holds are kept beside the pool:
what an allocation returned and neither a `free_pages` nor a `leak_scan` took back.
-/

namespace AmpFormal.PagePoolFastRepresentation

open AmpFormal.LinkedStack AmpFormal.PagePoolFastModel AmpFormal.PagePoolFastModel.PagePoolFast
open AmpFormal.PagePoolFastSequential AmpFormal.TransitionRuns

set_option autoImplicit false

variable {pages shards : Nat}

/-- The number of pages with a zero timestamp. -/
def freeCount (pool : PagePoolFast pages shards) : Nat :=
  (List.finRange pages).countP fun id => pool.touchUs id == 0

/-! ## Counting the stacks -/

theorem some_shard_iff {pool : PagePoolFast pages shards} {free : Fin shards → List (Fin pages)}
    (lists : FreeLists pool free) (id : Fin pages) :
    (∃ shard, id ∈ free shard) ↔ id ∈ free (pool.shard id) := by
  constructor
  · rintro ⟨shard, member⟩
    rw [lists.home shard id member]
    exact member
  · intro member
    exact ⟨_, member⟩

theorem available_eq_count {pool : PagePoolFast pages shards}
    {free : Fin shards → List (Fin pages)} (lists : FreeLists pool free) (listed : Fin pages → Bool)
    (same : ∀ id, id ∈ free (pool.shard id) ↔ listed id = true) :
    available pool = ((List.finRange pages).countP listed : Nat) := by
  have length : ((List.finRange shards).flatMap free).length =
      (List.finRange pages).countP listed := by
    rw [List.countP_eq_length_filter]
    apply List.Perm.length_eq
    rw [List.perm_ext_iff_of_nodup ?_ ((List.nodup_finRange pages).filter _)]
    · intro id
      simp only [List.mem_flatMap, List.mem_finRange, true_and, List.mem_filter]
      rw [← same id, some_shard_iff lists]
    · rw [List.nodup_flatMap]
      refine ⟨fun shard _ => chain_nodup (lists.chain shard), ?_⟩
      refine (List.nodup_finRange shards).imp fun {left right} apart => ?_
      intro id inLeft inRight
      exact apart ((lists.home left id inLeft).symm.trans (lists.home right id inRight))
  rw [free_lists_available lists, ← length, List.length_flatMap, ← Nat.cast_sum,
    Fin.sum_univ_def]

theorem reachable_iff {pool : PagePoolFast pages shards} (formed : WellFormed pool)
    (shard : Fin shards) (id : Fin pages) :
    Reachable pool.next (pool.head shard) id ↔ pool.shard id = shard ∧ pool.OnFreeStack id := by
  obtain ⟨free, lists, -⟩ := formed
  constructor
  · intro reached
    have member := (chain_reachable_iff (lists.chain shard) id).mp reached
    exact ⟨lists.home shard id member, shard, reached⟩
  · rintro ⟨rfl, listed⟩
    rw [chain_reachable_iff (lists.chain _) id]
    exact (on_free_stack_iff lists id).mp listed

/-! ## The calls -/

/-- The free pages are those with a zero timestamp, each in its own shard. -/
structure Represented [NeZero shards] (pool : PagePoolFast pages shards) : Prop where
  sharded : Sharded pool
  formed : WellFormed pool
  idle : ∀ id, pool.OnFreeStack id ↔ pool.touchUs id = 0
  home : ∀ id, pool.shard id = Fin.ofNat shards id.val

section Calls

variable [NeZero shards] {pool : PagePoolFast pages shards}

theorem create_represented : Represented (create pages shards) := by
  obtain ⟨formed, idle⟩ := @create_well_formed pages shards _
  refine ⟨create_sharded, formed, fun id => ⟨fun _ => create_touch id, fun _ => idle id⟩,
    fun id => ?_⟩
  rw [create, push_all_shard]

theorem alloc_shard (pool : PagePoolFast pages shards) (n : Nat) (threadHash : Int) (ts : UInt64) :
    (pool.alloc n threadHash ts).1.shard = pool.shard := by
  rcases alloc_cases pool n threadHash ts with
    ⟨last, taken, draws, -, result⟩ | ⟨last, taken, draws, -, -, result⟩
  · obtain ⟨new, -, frame⟩ := draws_frame draws
    rw [result]
    exact frame.shard
  · obtain ⟨new, -, frame⟩ := draws_frame draws
    rw [result]
    exact (push_all_shard taken last).trans frame.shard

theorem alloc_represented (represented : Represented pool) (n : Nat) (threadHash : Int)
    {ts : UInt64} (ticking : ts ≠ 0) : Represented (pool.alloc n threadHash ts).1 := by
  have granted := alloc_granted represented.formed n threadHash ts
  refine ⟨alloc_sharded represented.sharded n threadHash ts, granted.formed, fun id => ?_,
    fun id => ?_⟩
  · rw [granted.touchUs id]
    by_cases returned : id ∈ (pool.alloc n threadHash ts).2
    · rw [if_pos returned]
      exact ⟨fun listed => absurd listed (granted.apart id returned), fun zero => absurd zero ticking⟩
    · rw [if_neg returned, ← represented.idle id, granted.taken id]
      exact (or_iff_left returned).symm
  · rw [alloc_shard]
    exact represented.home id

theorem free_represented (represented : Represented pool) {ids : List (Fin pages)}
    (distinct : ids.Nodup) (held : ∀ id ∈ ids, pool.touchUs id ≠ 0) :
    Represented (pool.freePages ids) := by
  have unlisted : ∀ id ∈ ids, ¬pool.OnFreeStack id :=
    fun id member listed => held id member ((represented.idle id).mp listed)
  obtain ⟨formed, listed⟩ := free_pages_well_formed represented.formed distinct unlisted
  refine ⟨free_pages_sharded represented.sharded ids, formed, fun id => ?_, fun id => ?_⟩
  · rw [listed id, free_pages_touch, represented.idle id]
    by_cases freed : id ∈ ids <;> simp [freed]
  · change (ids.foldl push pool).shard id = _
    rw [push_all_shard]
    exact represented.home id

theorem touch_represented (represented : Represented pool) {ids : List (Fin pages)}
    (held : ∀ id ∈ ids, pool.touchUs id ≠ 0) {ts : UInt64} (ticking : ts ≠ 0) :
    Represented (pool.touch ids ts) := by
  have unlisted : ∀ id ∈ ids, ¬pool.OnFreeStack id :=
    fun id member listed => held id member ((represented.idle id).mp listed)
  refine ⟨touch_sharded represented.sharded ids ts, touch_well_formed represented.formed unlisted ts,
    fun id => ?_, represented.home⟩
  rw [touch_stamps]
  by_cases touched : id ∈ ids
  · rw [if_pos touched]
    exact ⟨fun listed => absurd listed (unlisted id touched), fun zero => absurd zero ticking⟩
  · rw [if_neg touched]
    exact represented.idle id

theorem leak_scan_represented (represented : Represented pool) (ttlMs : Int) (now : UInt64) :
    Represented (pool.leakScan ttlMs now).1 := by
  refine free_represented represented ((List.nodup_finRange pages).filter _) fun id collected => ?_
  have stale := (mem_orphans_iff pool ttlMs now id).mp collected
  simp only [isStale, Bool.and_eq_true, bne_iff_ne] at stale
  exact stale.1

theorem represented_available (represented : Represented pool) :
    available pool = (freeCount pool : Nat) := by
  obtain ⟨free, lists, -⟩ := represented.formed
  refine available_eq_count lists (fun id => pool.touchUs id == 0) fun id => ?_
  rw [← on_free_stack_iff lists id, represented.idle id, beq_iff_eq]

/-- Whatever its hash, an allocation returns `n` pages exactly when so many are
free, and the pages are distinct and were free. -/
theorem alloc_returns (represented : Represented pool) (n : Nat) (threadHash : Int)
    (ts : UInt64) :
    ((pool.alloc n threadHash ts).2.length = n ↔ n ≤ freeCount pool) ∧
      (pool.alloc n threadHash ts).2.Nodup ∧
        ∀ id ∈ (pool.alloc n threadHash ts).2, pool.touchUs id = 0 := by
  have granted := alloc_granted represented.formed n threadHash ts
  obtain ⟨succeeds, fails⟩ := alloc_available represented.sharded n threadHash ts
  rw [represented_available represented, Nat.cast_le] at succeeds
  rw [represented_available represented, Nat.cast_lt] at fails
  refine ⟨⟨fun full => ?_, fun enough => (succeeds enough).1⟩, granted.distinct, fun id returned =>
    (represented.idle id).mp ((granted.taken id).mpr (Or.inr returned))⟩
  by_contra few
  rw [(fails (Nat.not_le.mp few)).1, List.length_nil] at full
  omega

theorem failed_alloc_restores (represented : Represented pool) {n : Nat} {threadHash : Int}
    {ts : UInt64} (short : (pool.alloc n threadHash ts).2.length ≠ n) (shard : Fin shards)
    (id : Fin pages) :
    Reachable (pool.alloc n threadHash ts).1.next ((pool.alloc n threadHash ts).1.head shard) id ↔
      Reachable pool.next (pool.head shard) id := by
  have granted := alloc_granted represented.formed n threadHash ts
  have few : freeCount pool < n := by
    by_contra enough
    exact short ((alloc_returns represented n threadHash ts).1.mpr (Nat.not_lt.mp enough))
  obtain ⟨-, fails⟩ := alloc_available represented.sharded n threadHash ts
  rw [represented_available represented, Nat.cast_lt] at fails
  have none_returned := (fails few).1
  have same : (pool.alloc n threadHash ts).1.OnFreeStack id ↔ pool.OnFreeStack id := by
    rw [granted.taken id, none_returned]
    simp
  rw [reachable_iff granted.formed, reachable_iff represented.formed, same, alloc_shard]

end Calls

/-! ## Histories -/

inductive Call (pages : Nat) where
  | alloc (n : Nat) (threadHash : Int) (now : UInt64)
  | freePages (ids : List (Fin pages))
  | touch (ids : List (Fin pages)) (now : UInt64)
  | leakScan (ttlMs : Int) (now : UInt64)
  deriving DecidableEq, Repr

/-- A pool, the pages its callers hold, and the last reading of the clock. -/
structure Pool (pages shards : Nat) where
  fast : PagePoolFast pages shards
  held : Fin pages → Bool
  clock : UInt64

namespace Pool

variable [NeZero shards]

def create (pages shards : Nat) [NeZero shards] : Pool pages shards where
  fast := PagePoolFast.create pages shards
  held := fun _ => false
  clock := 0

def step (s : Pool pages shards) : Call pages → Option (Pool pages shards)
  | .alloc n threadHash now =>
      let result := s.fast.alloc n threadHash now
      some
        { fast := result.1
          held := fun id => s.held id || decide (id ∈ result.2)
          clock := now }
  | .freePages ids =>
      some
        { s with
          fast := s.fast.freePages ids
          held := fun id => s.held id && decide (id ∉ ids) }
  | .touch ids now => some { s with fast := s.fast.touch ids now, clock := now }
  | .leakScan ttlMs now => some
      { fast := (s.fast.leakScan ttlMs now).1
        held := fun id => s.held id && decide (id ∉ s.fast.orphans ttlMs now)
        clock := now }

/-- A reading of the clock: not 0 and not before the last one. -/
def Ticks (s : Pool pages shards) (now : UInt64) : Prop := now ≠ 0 ∧ s.clock ≤ now

/-- Callers free and touch pages that they hold, and free each once. -/
def Disciplined (s : Pool pages shards) : Call pages → Prop
  | .alloc _ _ now => s.Ticks now
  | .freePages ids => ids.Nodup ∧ ∀ id ∈ ids, s.held id = true
  | .touch ids now => s.Ticks now ∧ ∀ id ∈ ids, s.held id = true
  | .leakScan _ now => s.Ticks now

end Pool

section Histories

variable [NeZero shards] {s : Pool pages shards}

/-- The pages held are those with a timestamp. -/
structure Settled (s : Pool pages shards) : Prop where
  represented : Represented s.fast
  held : ∀ id, s.held id = true ↔ s.fast.touchUs id ≠ 0

theorem step_settled {after : Pool pages shards} (settled : Settled s) {call : Call pages}
    (disciplined : s.Disciplined call) (moved : s.step call = some after) : Settled after := by
  cases call with
  | alloc n threadHash now =>
      obtain rfl := Option.some.inj moved
      have granted := alloc_granted settled.represented.formed n threadHash now
      refine ⟨alloc_represented settled.represented n threadHash disciplined.1, fun id => ?_⟩
      rw [granted.touchUs id]
      by_cases returned : id ∈ (s.fast.alloc n threadHash now).2
      · simp [returned, disciplined.1]
      · simp [returned, settled.held id]
  | freePages ids =>
      obtain rfl := Option.some.inj moved
      have owned : ∀ id ∈ ids, s.fast.touchUs id ≠ 0 :=
        fun id member => (settled.held id).mp (disciplined.2 id member)
      refine ⟨free_represented settled.represented disciplined.1 owned, fun id => ?_⟩
      rw [free_pages_touch]
      by_cases freed : id ∈ ids
      · simp [freed]
      · simp [freed, settled.held id]
  | touch ids now =>
      obtain rfl := Option.some.inj moved
      have owned : ∀ id ∈ ids, s.fast.touchUs id ≠ 0 :=
        fun id member => (settled.held id).mp (disciplined.2 id member)
      refine ⟨touch_represented settled.represented owned disciplined.1.1, fun id => ?_⟩
      rw [touch_stamps]
      by_cases touched : id ∈ ids
      · simp [touched, disciplined.1.1, disciplined.2 id touched]
      · rw [if_neg touched]
        exact settled.held id
  | leakScan ttlMs now =>
      obtain rfl := Option.some.inj moved
      refine ⟨leak_scan_represented settled.represented ttlMs now, fun id => ?_⟩
      rw [leak_scan_touch]
      by_cases stale : s.fast.isStale ttlMs now id = true
      · simp [mem_orphans_iff, stale]
      · simp [mem_orphans_iff, stale, settled.held id]

theorem create_settled : Settled (Pool.create pages shards) :=
  ⟨create_represented, fun id => by simp [Pool.create, create_touch]⟩

theorem reached_settled (reached : Reaches Pool.step Pool.Disciplined (Pool.create pages shards) s) :
    Settled s := by
  refine reaches_invariant create_settled ?_ reached
  intro before call after _ settled disciplined moved
  exact step_settled settled disciplined moved

/-- The chains of a represented pool: finite, without repetition, disjoint, and
together the pages with a zero timestamp, page `i` in the chain of `i % n_shards`. -/
theorem represented_chains {pool : PagePoolFast pages shards} (represented : Represented pool) :
    ∃ free : Fin shards → List (Fin pages),
      (∀ shard, Chain pool.next (pool.head shard) (free shard) ∧ (free shard).Nodup) ∧
      (∀ shard other, shard ≠ other → (free shard).Disjoint (free other)) ∧
      (∀ id, (∃ shard, id ∈ free shard) ↔ pool.touchUs id = 0) ∧
      ∀ shard, ∀ id ∈ free shard, shard = Fin.ofNat shards id.val := by
  obtain ⟨free, lists, -⟩ := represented.formed
  have home : ∀ shard, ∀ id ∈ free shard, shard = Fin.ofNat shards id.val := by
    intro shard id member
    rw [← represented.home id]
    exact (lists.home shard id member).symm
  refine ⟨free, fun shard => ⟨lists.chain shard, chain_nodup (lists.chain shard)⟩, ?_, ?_, home⟩
  · intro shard other apart id inOne inOther
    exact apart ((home shard id inOne).trans (home other id inOther).symm)
  · intro id
    rw [← represented.idle id, on_free_stack_iff lists id, some_shard_iff lists]

/-- After every disciplined history. -/
theorem page_pool_fast_representation
    (reached : Reaches Pool.step Pool.Disciplined (Pool.create pages shards) s) :
    (∃ free : Fin shards → List (Fin pages),
      (∀ shard, Chain s.fast.next (s.fast.head shard) (free shard) ∧ (free shard).Nodup) ∧
      (∀ shard other, shard ≠ other → (free shard).Disjoint (free other)) ∧
      (∀ id, (∃ shard, id ∈ free shard) ↔ s.fast.touchUs id = 0) ∧
      ∀ shard, ∀ id ∈ free shard, shard = Fin.ofNat shards id.val) ∧
    (∀ id, s.fast.shard id = Fin.ofNat shards id.val) ∧
    ∀ n threadHash now,
      (((s.fast.alloc n threadHash now).2.length = n ↔ n ≤ freeCount s.fast) ∧
        (s.fast.alloc n threadHash now).2.Nodup ∧
        ∀ id ∈ (s.fast.alloc n threadHash now).2, s.fast.touchUs id = 0) ∧
      ((s.fast.alloc n threadHash now).2.length ≠ n → ∀ shard id,
        Reachable (s.fast.alloc n threadHash now).1.next
            ((s.fast.alloc n threadHash now).1.head shard) id ↔
          Reachable s.fast.next (s.fast.head shard) id) := by
  have represented := (reached_settled reached).represented
  exact ⟨represented_chains represented, represented.home, fun n threadHash now =>
    ⟨alloc_returns represented n threadHash now, failed_alloc_restores represented⟩⟩

end Histories

instance ticksDecidable (s : Pool pages shards) (now : UInt64) : Decidable (s.Ticks now) :=
  inferInstanceAs (Decidable (_ ∧ _))

instance disciplinedDecidable (s : Pool pages shards) : ∀ call, Decidable (s.Disciplined call)
  | .alloc _ _ now => inferInstanceAs (Decidable (s.Ticks now))
  | .freePages ids => inferInstanceAs (Decidable (ids.Nodup ∧ ∀ id ∈ ids, s.held id = true))
  | .touch ids now => inferInstanceAs (Decidable (s.Ticks now ∧ ∀ id ∈ ids, s.held id = true))
  | .leakScan _ now => inferInstanceAs (Decidable (s.Ticks now))

/-- An allocation over two shards, a free, a touch, a failing allocation and a scan. -/
def mixedCalls : List (Call 3) :=
  [.alloc 3 1 5, .freePages [1], .touch [0, 2] 6, .alloc 2 0 7, .leakScan 0 2000]

theorem page_pool_fast_representation_mixed :
    ((runCalls Pool.step Pool.Disciplined (Pool.create 3 2) mixedCalls).get
      (by decide +kernel)).fast.shard 2 = Fin.ofNat 2 2 :=
  (page_pool_fast_representation (reaches_of_run_get mixedCalls (by decide +kernel))).2.1 2

end AmpFormal.PagePoolFastRepresentation
