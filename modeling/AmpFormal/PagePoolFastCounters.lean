import AmpFormal.PagePoolFastRepresentation

/-!
# The counters of the sharded pool

An allocation that finds too few pages hands back what it took by `free_pages`,
which counts those pages as freed although no allocation was counted. So a failed
allocation shows in `stats` unless the pool had no free page at all, and
`alloc_cnt - free_cnt` is the number of pages in use only in histories without such
a failure. The counters wrap at 64 bits.
-/

namespace AmpFormal.PagePoolFastCounters

open AmpFormal.LinkedStack AmpFormal.PagePoolFastModel AmpFormal.PagePoolFastModel.PagePoolFast
open AmpFormal.PagePoolFastSequential AmpFormal.PagePoolFastRepresentation
open AmpFormal.TransitionRuns

set_option autoImplicit false

variable {pages shards : Nat}

/-! ## Counting free pages -/

theorem fast_touch_count (pool : PagePoolFast pages shards) {ids : List (Fin pages)}
    (held : ∀ id ∈ ids, pool.touchUs id ≠ 0) {ts : UInt64} (ticking : ts ≠ 0) :
    freeCount (pool.touch ids ts) = freeCount pool := by
  refine List.countP_congr fun id _ => ?_
  rw [touch_stamps]
  by_cases touched : id ∈ ids
  · simp [touched, ticking, held id touched]
  · simp [touched]

theorem fast_in_use (pool : PagePoolFast pages shards) :
    pool.stats.inUse + freeCount pool = pages := by
  have split := (List.finRange pages).length_eq_countP_add_countP fun id => pool.touchUs id != 0
  rw [List.length_finRange] at split
  have negated : (List.finRange pages).countP (fun id => decide ¬(pool.touchUs id != 0) = true) =
      freeCount pool := List.countP_congr fun id _ => by simp
  rw [negated] at split
  exact split.symm

theorem push_all_counters (ids : List (Fin pages)) (pool : PagePoolFast pages shards) :
    (ids.foldl push pool).allocCnt = pool.allocCnt ∧
      (ids.foldl push pool).freeCnt = pool.freeCnt := by
  induction ids generalizing pool with
  | nil => exact ⟨rfl, rfl⟩
  | cons first rest ih => exact ih (pool.push first)

variable [NeZero shards] {pool : PagePoolFast pages shards}

theorem fast_alloc (represented : Represented pool) (n : Nat) (threadHash : Int) {ts : UInt64}
    (ticking : ts ≠ 0) :
    freeCount (pool.alloc n threadHash ts).1 + (pool.alloc n threadHash ts).2.length =
        freeCount pool ∧
      (n ≤ freeCount pool → (pool.alloc n threadHash ts).2.length = n) ∧
      (freeCount pool < n → (pool.alloc n threadHash ts).2 = []) := by
  obtain ⟨succeeds, fails⟩ := alloc_available represented.sharded n threadHash ts
  rw [represented_available represented, Nat.cast_le,
    represented_available (alloc_represented represented n threadHash ticking)] at succeeds
  rw [represented_available represented, Nat.cast_lt,
    represented_available (alloc_represented represented n threadHash ticking)] at fails
  refine ⟨?_, fun enough => (succeeds enough).1, fun short => (fails short).1⟩
  by_cases enough : n ≤ freeCount pool
  · obtain ⟨length, total⟩ := succeeds enough
    rw [length]
    exact_mod_cast total
  · obtain ⟨empty, total⟩ := fails (Nat.not_le.mp enough)
    rw [empty, List.length_nil, Nat.add_zero]
    exact_mod_cast total

theorem fast_free_count (represented : Represented pool) {ids : List (Fin pages)}
    (distinct : ids.Nodup) (held : ∀ id ∈ ids, pool.touchUs id ≠ 0) :
    freeCount (pool.freePages ids) = freeCount pool + ids.length := by
  obtain ⟨free, lists, -⟩ := represented.formed
  have unlisted : ∀ id ∈ ids, id ∉ free (pool.shard id) := by
    intro id member listed
    exact held id member ((represented.idle id).mp ((on_free_stack_iff lists id).mpr listed))
  obtain ⟨-, -, -, total⟩ := push_all_free_lists ids lists distinct unlisted
  have after := represented_available (free_represented represented distinct held)
  change available (ids.foldl PagePoolFast.push pool) = _ at after
  rw [after, represented_available represented] at total
  exact_mod_cast total

/-! ## The counters -/

theorem alloc_counters (represented : Represented pool) (n : Nat) (threadHash : Int)
    (ts : UInt64) :
    (n ≤ freeCount pool →
      (pool.alloc n threadHash ts).1.allocCnt = pool.allocCnt + UInt64.ofNat n ∧
        (pool.alloc n threadHash ts).1.freeCnt = pool.freeCnt) ∧
    (freeCount pool < n →
      (pool.alloc n threadHash ts).1.allocCnt = pool.allocCnt ∧
        (pool.alloc n threadHash ts).1.freeCnt =
          pool.freeCnt + UInt64.ofNat (freeCount pool)) := by
  have available := represented_available represented
  rcases alloc_cases pool n threadHash ts with
    ⟨last, taken, draws, full, result⟩ | ⟨last, taken, draws, short, empty, result⟩
  · obtain ⟨new, -, frame⟩ := draws_frame draws
    have enough : n ≤ freeCount pool := by
      apply (alloc_returns represented n threadHash ts).1.mp
      rw [result]
      exact full
    rw [result]
    refine ⟨fun _ => ⟨?_, frame.freeCnt⟩, fun few => absurd enough (Nat.not_le.mpr few)⟩
    rw [frame.allocCnt]
  · obtain ⟨new, -, frame⟩ := draws_frame draws
    have total := draws_available draws
    rw [available_exhausted empty, available] at total
    have count : freeCount pool = taken.length := by
      simpa using total
    rw [result]
    refine ⟨fun enough => absurd (count ▸ enough) (Nat.not_le.mpr short), fun _ => ⟨?_, ?_⟩⟩
    · exact (push_all_counters taken last).1.trans frame.allocCnt
    · change (taken.foldl push last).freeCnt + _ = _
      rw [(push_all_counters taken last).2, frame.freeCnt, count]

theorem alloc_fails_iff (represented : Represented pool) {n : Nat} (positive : 1 ≤ n)
    (threadHash : Int) (ts : UInt64) :
    (pool.alloc n threadHash ts).2 = [] ↔ freeCount pool < n := by
  have returns := (alloc_returns represented n threadHash ts).1
  constructor
  · intro empty
    rw [empty, List.length_nil] at returns
    have short := mt returns.mpr (by omega)
    exact Nat.not_le.mp short
  · intro few
    apply alloc_short_empty
    by_contra long
    have granted := alloc_granted represented.formed n threadHash ts
    rcases alloc_cases pool n threadHash ts with
      ⟨last, taken, draws, full, result⟩ | ⟨last, taken, draws, short, empty, result⟩
    · rw [result] at returns
      exact absurd (returns.mp full) (Nat.not_le.mpr few)
    · rw [result] at long
      simp only [List.length_nil] at long
      omega

theorem failed_alloc_in_use (represented : Represented pool) {n : Nat} {threadHash : Int}
    {ts : UInt64} (fails : (pool.alloc n threadHash ts).2 = []) :
    (pool.alloc n threadHash ts).1.stats.inUse = pool.stats.inUse := by
  have touchUs := (alloc_granted represented.formed n threadHash ts).touchUs
  refine List.countP_congr fun id _ => ?_
  rw [touchUs id, fails, if_neg List.not_mem_nil]

/-- A failing allocation is invisible exactly when no page is free. -/
theorem failed_alloc_stats_iff (size : pages < 2 ^ 64) (represented : Represented pool) {n : Nat}
    (positive : 1 ≤ n) (threadHash : Int) (ts : UInt64) :
    ((pool.alloc n threadHash ts).2 = [] →
        (pool.alloc n threadHash ts).1.stats = pool.stats) ↔
      n ≤ freeCount pool ∨ freeCount pool = 0 := by
  obtain ⟨-, counters⟩ := alloc_counters represented n threadHash ts
  rw [alloc_fails_iff represented positive]
  constructor
  · intro invisible
    by_cases enough : n ≤ freeCount pool
    · exact Or.inl enough
    · right
      have few := Nat.not_le.mp enough
      have same : (pool.alloc n threadHash ts).1.freeCnt = pool.freeCnt :=
        congrArg PoolStats.freeCnt (invisible few)
      rw [(counters few).2] at same
      have zero : UInt64.ofNat (freeCount pool) = 0 := by grind
      have bound := fast_in_use pool
      have value := congrArg UInt64.toNat zero
      rwa [UInt64.toNat_ofNat_of_lt' (by simp [UInt64.size]; omega)] at value
  · intro covered few
    have none : freeCount pool = 0 := covered.resolve_left (Nat.not_le.mpr few)
    obtain ⟨allocCnt, freeCnt⟩ := counters few
    have inUse := failed_alloc_in_use represented
      ((alloc_fails_iff represented positive threadHash ts).mpr few)
    rw [none] at freeCnt
    rw [PoolStats.mk.injEq]
    exact ⟨rfl, inUse, allocCnt, freeCnt.trans (UInt64.add_zero _)⟩

/-! ## Histories -/

def Covered (s : Pool pages shards) : Call pages → Prop
  | .alloc n _ _ => n ≤ freeCount s.fast ∨ freeCount s.fast = 0
  | _ => True

/-- A call of a disciplined caller to whom no allocation is refused while pages are free. -/
def Steady (s : Pool pages shards) (call : Call pages) : Prop :=
  s.Disciplined call ∧ Covered s call

/-- The counters differ by the number of pages in use. -/
def Balanced (pool : PagePoolFast pages shards) : Prop :=
  pool.allocCnt - pool.freeCnt + UInt64.ofNat (freeCount pool) = UInt64.ofNat pages

omit [NeZero shards] in
theorem balanced_stats (balanced : Balanced pool) :
    pool.stats.allocCnt - pool.stats.freeCnt = UInt64.ofNat pool.stats.inUse := by
  have total := congrArg UInt64.ofNat (fast_in_use pool)
  rw [UInt64.ofNat_add] at total
  change pool.allocCnt - pool.freeCnt = _
  unfold Balanced at balanced
  grind

theorem free_balanced (represented : Represented pool) (balanced : Balanced pool)
    {ids : List (Fin pages)} (distinct : ids.Nodup) (held : ∀ id ∈ ids, pool.touchUs id ≠ 0) :
    Balanced (pool.freePages ids) := by
  have count := fast_free_count represented distinct held
  obtain ⟨allocCnt, freeCnt⟩ := push_all_counters ids pool
  unfold Balanced at balanced ⊢
  rw [count, UInt64.ofNat_add]
  change (ids.foldl push pool).allocCnt - ((ids.foldl push pool).freeCnt + _) + _ = _
  rw [allocCnt, freeCnt]
  grind

theorem alloc_balanced (represented : Represented pool) (balanced : Balanced pool) {n : Nat}
    (covered : n ≤ freeCount pool ∨ freeCount pool = 0) (threadHash : Int) {ts : UInt64}
    (ticking : ts ≠ 0) : Balanced (pool.alloc n threadHash ts).1 := by
  obtain ⟨count, full, short⟩ := fast_alloc represented n threadHash ticking
  obtain ⟨granted, refused⟩ := alloc_counters represented n threadHash ts
  unfold Balanced at balanced ⊢
  by_cases enough : n ≤ freeCount pool
  · rw [full enough] at count
    obtain ⟨allocCnt, freeCnt⟩ := granted enough
    have split := congrArg UInt64.ofNat count
    rw [UInt64.ofNat_add] at split
    rw [allocCnt, freeCnt]
    grind
  · have few := Nat.not_le.mp enough
    obtain ⟨allocCnt, freeCnt⟩ := refused few
    rw [short few, List.length_nil, Nat.add_zero] at count
    rw [covered.resolve_left enough] at freeCnt
    rw [allocCnt, freeCnt.trans (UInt64.add_zero _), count]
    exact balanced

theorem step_balanced {s after : Pool pages shards} (settled : Settled s)
    (balanced : Balanced s.fast) {call : Call pages} (disciplined : s.Disciplined call)
    (covered : Covered s call) (moved : s.step call = some after) : Balanced after.fast := by
  cases call with
  | alloc n threadHash now =>
      obtain rfl := Option.some.inj moved
      exact alloc_balanced settled.represented balanced covered threadHash disciplined.1
  | freePages ids =>
      obtain rfl := Option.some.inj moved
      exact free_balanced settled.represented balanced disciplined.1 fun id member =>
        (settled.held id).mp (disciplined.2 id member)
  | touch ids now =>
      obtain rfl := Option.some.inj moved
      have owned : ∀ id ∈ ids, s.fast.touchUs id ≠ 0 :=
        fun id member => (settled.held id).mp (disciplined.2 id member)
      unfold Balanced
      rw [fast_touch_count s.fast owned disciplined.1.1]
      exact balanced
  | leakScan ttlMs now =>
      obtain rfl := Option.some.inj moved
      refine free_balanced settled.represented balanced
        ((List.nodup_finRange pages).filter _) fun id collected => ?_
      have stale := (mem_orphans_iff s.fast ttlMs now id).mp collected
      simp only [isStale, Bool.and_eq_true, bne_iff_ne] at stale
      exact stale.1

theorem create_balanced : Balanced (PagePoolFast.create pages shards) := by
  have count : freeCount (PagePoolFast.create pages shards) = pages := by
    have every : (List.finRange pages).countP
        (fun id => (PagePoolFast.create pages shards).touchUs id == 0) =
          (List.finRange pages).length := by
      rw [List.countP_eq_length]
      intro id _
      simp [create_touch]
    rw [freeCount, every, List.length_finRange]
  obtain ⟨allocCnt, freeCnt⟩ := push_all_counters (List.finRange pages)
    ({ touchUs := fun _ => 0
       shard := fun id => Fin.ofNat shards id.val
       head := fun _ => none
       next := fun _ => none
       allocCnt := 0
       freeCnt := 0 } : PagePoolFast pages shards)
  unfold Balanced
  rw [count, PagePoolFast.create, allocCnt, freeCnt]
  simp

theorem steady_balanced {s : Pool pages shards}
    (steady : Reaches Pool.step Steady (Pool.create pages shards) s) : Balanced s.fast := by
  induction steady with
  | start => exact create_balanced
  | call prior call meets moved ih =>
      have settled := reached_settled (reaches_weaken (fun _ _ both => both.1) prior)
      exact step_balanced settled ih meets.1 meets.2 moved

/-- In every state of a disciplined history a failing allocation leaves `stats` alone
exactly when no page is free. While every allocation of the history finds enough pages
or none, `alloc_cnt - free_cnt` is the number of pages in use. -/
theorem failed_alloc_invisible_iff (size : pages < 2 ^ 64) {s : Pool pages shards}
    (reached : Reaches Pool.step Pool.Disciplined (Pool.create pages shards) s) :
    (∀ n threadHash now, 1 ≤ n →
      (((s.fast.alloc n threadHash now).2 = [] →
          (s.fast.alloc n threadHash now).1.stats = s.fast.stats) ↔
        n ≤ freeCount s.fast ∨ freeCount s.fast = 0)) ∧
    (Reaches Pool.step Steady (Pool.create pages shards) s →
      s.fast.stats.allocCnt - s.fast.stats.freeCnt = UInt64.ofNat s.fast.stats.inUse) := by
  have represented := (reached_settled reached).represented
  constructor
  · intro n threadHash now positive
    exact failed_alloc_stats_iff size represented positive threadHash now
  · intro steady
    exact balanced_stats (steady_balanced steady)

instance steadyDecidable (s : Pool pages shards) : ∀ call, Decidable (Steady s call)
  | .alloc n threadHash now => inferInstanceAs (Decidable
      (s.Disciplined (.alloc n threadHash now) ∧ (n ≤ freeCount s.fast ∨ freeCount s.fast = 0)))
  | .freePages ids => inferInstanceAs (Decidable (s.Disciplined (.freePages ids) ∧ True))
  | .touch ids now => inferInstanceAs (Decidable (s.Disciplined (.touch ids now) ∧ True))
  | .leakScan ttlMs now => inferInstanceAs (Decidable (s.Disciplined (.leakScan ttlMs now) ∧ True))

def exhaustedCalls : List (Call 3) :=
  [.alloc 3 1 5, .alloc 1 0 6, .freePages [Fin.last 2], .alloc 1 2 7]

theorem failed_alloc_invisible_iff_exhausted :
    ∃ s : Pool 3 2, Reaches Pool.step Steady (Pool.create 3 2) s ∧
      s.fast.stats.allocCnt - s.fast.stats.freeCnt = UInt64.ofNat s.fast.stats.inUse := by
  have steady := reaches_of_run_get exhaustedCalls
    (show (runCalls Pool.step Steady (Pool.create 3 2) _).isSome by decide +kernel)
  have disciplined := reaches_weaken (fun _ _ both => both.1) steady
  exact ⟨_, steady, (failed_alloc_invisible_iff (by decide) disciplined).2 steady⟩

/-- One free page and a request for two. -/
theorem failed_alloc_counts_frees :
    ∃ s : Pool 1 1, Reaches Pool.step Pool.Disciplined (Pool.create 1 1) s ∧
      (s.fast.alloc 2 0 5).2 = [] ∧ (s.fast.alloc 2 0 5).1.stats ≠ s.fast.stats ∧
      ∃ after, Reaches Pool.step Pool.Disciplined (Pool.create 1 1) after ∧
        after.fast.stats.allocCnt - after.fast.stats.freeCnt ≠
          UInt64.ofNat after.fast.stats.inUse := by
  refine ⟨_, .start, by decide +kernel, by decide +kernel, _,
    reaches_of_run_get [.alloc 2 0 5] (by decide +kernel), by decide +kernel⟩

end AmpFormal.PagePoolFastCounters
