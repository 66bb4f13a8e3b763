import AmpFormal.SchedulerPages
import Mathlib.Algebra.BigOperators.Group.List.Basic

/-!
# Pages in use

`stats` counts the pages with a timestamp. As long as `leak_scan` takes nothing
and no sequence that holds pages ends, these are the pages held by the sequences
in the queues. A sequence that ends leaves `running_` without `free_pages`, and
its pages keep their timestamps.
-/

namespace AmpFormal.SchedulerAccounting

open AmpFormal.PagePoolFastModel AmpFormal.PagePoolFastModel.PagePoolFast
open AmpFormal.PagePoolFastSequential AmpFormal.ResourceLedger
open AmpFormal.SchedulerModel AmpFormal.SchedulerModel.Scheduler
open AmpFormal.ScheduleEffects AmpFormal.ScheduleTrace AmpFormal.StepCompleteEffects
open AmpFormal.TransitionRuns AmpFormal.SchedulerRuns AmpFormal.SchedulerPages

set_option autoImplicit false

variable {cfg : SchedulerConfig} {clock : Clock}

/-- The pages held by the sequences in the queues. -/
def pagesHeld (st : Scheduler cfg) : Nat :=
  ((st.waiting ++ st.running ++ st.swapped).map fun id => (pagesOf st id).length).sum

def Held (st : Scheduler cfg) (page : Fin cfg.pages) : Prop :=
  ∃ id, queued st id ∧ page ∈ pagesOf st id

/-- A page has a timestamp exactly when a queued sequence holds it. -/
def StampsTell (st : Scheduler cfg) : Prop :=
  ∀ page, st.kvPool.touchUs page ≠ 0 ↔ Held st page

structure Accounted (st : Scheduler cfg) : Prop where
  owned : PagesOwned st
  stamps : StampsTell st

/-- With sound ownership, and a timestamp on every page held, the count is right
exactly when nothing else has a timestamp. -/
theorem pages_used_iff {st : Scheduler cfg} (ledger : PagesLedger st)
    (distinct : (st.waiting ++ st.running ++ st.swapped).Nodup)
    (stamped : ∀ page, Held st page → st.kvPool.touchUs page ≠ 0) :
    st.getStats.kvPagesUsed = pagesHeld st ↔ StampsTell st := by
  let inUse := (List.finRange cfg.pages).filter fun page => st.kvPool.touchUs page != 0
  let held := (st.waiting ++ st.running ++ st.swapped).flatMap (pagesOf st)
  have heldDistinct : held.Nodup := by
    rw [List.nodup_flatMap]
    refine ⟨ledger.nodup, ?_⟩
    apply distinct.imp_of_mem
    intro id other member otherMember different
    exact ledger.disjoint id other member otherMember different
  have inUseDistinct : inUse.Nodup := (List.nodup_finRange _).filter _
  have inUse_iff : ∀ page, page ∈ inUse ↔ st.kvPool.touchUs page ≠ 0 := by
    intro page
    rw [List.mem_filter, bne_iff_ne]
    exact and_iff_right (List.mem_finRange page)
  have held_iff : ∀ page, page ∈ held ↔ Held st page := fun _ => List.mem_flatMap
  have counts : st.getStats.kvPagesUsed = pagesHeld st ↔ inUse.length = held.length := by
    have used : st.kvPool.stats.inUse = inUse.length := List.countP_eq_length_filter
    have total : pagesHeld st = held.length := List.length_flatMap.symm
    unfold getStats
    rw [used, total]
    exact Int.natCast_inj
  rw [counts]
  constructor
  · intro sameLength page
    have part : held ⊆ inUse := by
      intro page inside
      exact (inUse_iff page).mpr (stamped page ((held_iff page).mp inside))
    have same := (heldDistinct.subperm part).perm_of_length_le sameLength.le
    rw [← inUse_iff page, ← held_iff page]
    exact same.mem_iff.symm
  · intro tells
    apply List.Perm.length_eq
    apply (List.perm_ext_iff_of_nodup inUseDistinct heldDistinct).mpr
    intro page
    rw [inUse_iff, held_iff]
    exact tells page

/-! ## Single operations -/

theorem free_pages_stamps {st : Scheduler cfg} (accounted : Accounted st) {id : Int}
    (member : queued st id) (page : Fin cfg.pages) :
    (st.freePages id).kvPool.touchUs page ≠ 0 ↔
      ∃ other, queued st other ∧ other ≠ id ∧ page ∈ pagesOf st other := by
  have touched : (st.freePages id).kvPool.touchUs page =
      if page ∈ pagesOf st id then 0 else st.kvPool.touchUs page := by
    unfold Scheduler.freePages
    split
    case isTrue empty =>
      have nothing : page ∉ pagesOf st id := by
        unfold pagesOf
        rw [empty]
        exact List.not_mem_nil
      rw [if_neg nothing]
    case isFalse => exact free_pages_touch _ _ _
  rw [touched]
  by_cases given : page ∈ pagesOf st id
  · rw [if_pos given]
    constructor
    · intro absurdStamp
      exact absurd rfl absurdStamp
    · intro elsewhere
      rcases elsewhere with ⟨other, otherMember, different, inside⟩
      exact absurd given (accounted.owned.ledger.disjoint other id otherMember member different
        inside)
  · rw [if_neg given, accounted.stamps page]
    constructor
    · intro holder
      rcases holder with ⟨other, otherMember, inside⟩
      exact ⟨other, otherMember, fun same => given (same ▸ inside), inside⟩
    · intro elsewhere
      rcases elsewhere with ⟨other, otherMember, _, inside⟩
      exact ⟨other, otherMember, inside⟩

theorem release_stamps {st after : Scheduler cfg} (accounted : Accounted st) {id : Int}
    (member : queued st id) (pool : after.kvPool = (st.freePages id).kvPool)
    (pages : pagesOf after = Function.update (pagesOf st) id [])
    (owners : ∀ other, other ≠ id → (queued after other ↔ queued st other)) :
    StampsTell after := by
  intro page
  rw [pool, free_pages_stamps accounted member]
  unfold Held
  rw [pages]
  apply exists_congr
  intro other
  by_cases same : other = id
  · simp [same]
  · rw [owners other same, Function.update_of_ne same]
    simp [same]

theorem try_alloc_accounted {st : Scheduler cfg} (running : ∀ reading, clock reading ≠ 0)
    (accounted : Accounted st) {id : Int} (member : queued st id) (nNewTokens : Int) :
    Accounted (st.tryAllocPages clock id nNewTokens).1 := by
  refine ⟨try_alloc_owned accounted.owned id nNewTokens, ?_⟩
  have granted := alloc_granted accounted.owned.formed (extraPages st id nNewTokens) id
    (clock st.ticks)
  rcases try_alloc_cases clock st id nNewTokens with
    ⟨_, result⟩ | ⟨_, short, result⟩ | ⟨_, _, result⟩
  · rw [result]
    exact accounted.stamps
  · have nothing := alloc_short_empty short
    rw [result]
    intro page
    change (st.kvPool.alloc _ id (clock st.ticks)).1.touchUs page ≠ 0 ↔ _
    rw [granted.touchUs, nothing, if_neg List.not_mem_nil]
    exact accounted.stamps page
  · rw [result]
    intro page
    have pages := set_seq_pages (afterPool clock st id nNewTokens) id (withPages (st.seqs id)
      ((st.seqs id).kvPageIds ++ (poolAnswer clock st id nNewTokens).2))
    change (st.kvPool.alloc _ id (clock st.ticks)).1.touchUs page ≠ 0 ↔
      ∃ other, queued st other ∧ page ∈ pagesOf _ other
    rw [granted.touchUs, pages]
    change (if page ∈ (poolAnswer clock st id nNewTokens).2 then _ else _) ≠ 0 ↔
      ∃ other, queued st other ∧ page ∈ Function.update (pagesOf st) id
        (pagesOf st id ++ (poolAnswer clock st id nNewTokens).2) other
    by_cases given : page ∈ (poolAnswer clock st id nNewTokens).2
    · rw [if_pos given]
      refine iff_of_true (running _) ⟨id, member, ?_⟩
      rw [Function.update_self]
      exact List.mem_append_right _ given
    · rw [if_neg given, accounted.stamps page]
      apply exists_congr
      intro other
      apply and_congr_right
      intro _
      by_cases same : other = id
      · rw [same, Function.update_self, List.mem_append, or_iff_left given]
      · rw [Function.update_of_ne same]

theorem micro_accounted (running : ∀ reading, clock reading ≠ 0) {before after : Scheduler cfg}
    (micro : Micro clock before after) (accounted : Accounted before) : Accounted after := by
  have owned := micro_owned micro accounted.owned
  cases micro with
  | alloc id nNewTokens inQueues =>
      exact try_alloc_accounted running accounted (List.mem_append_left _ inQueues) nNewTokens
  | preempt id inRunning =>
      have member : queued before id := by
        unfold queued
        simp [inRunning]
      have queues := free_pages_same_queues before id
      refine ⟨owned, release_stamps accounted member rfl ?_ ?_⟩
      · rw [preempt_pages, free_pages_pages]
      · intro other _
        change other ∈ (before.freePages id).waiting ++ (before.freePages id).running ++
          (before.freePages id).swapped ↔ _
        rw [queues.waiting, queues.running, queues.swapped]
        rfl
  | promote front rest head =>
      refine ⟨owned, ?_⟩
      intro page
      change before.kvPool.touchUs page ≠ 0 ↔ Held (before.moveFront front rest) page
      rw [accounted.stamps page]
      unfold Held
      rw [move_front_pages]
      apply exists_congr
      intro other
      apply and_congr_left
      intro _
      unfold queued moveFront setSeq
      simp only [List.mem_append, List.mem_singleton]
      rw [head, List.mem_cons]
      tauto

/-! ## `step_complete` -/

theorem touch_entries_stamped (running : ∀ reading, clock reading ≠ 0)
    (seqs : Int → Sequence cfg.pages) (entries : List BatchEntry) (tick : Nat)
    (pool : PagePoolFast cfg.pages 16)
    (stamped : ∀ e ∈ entries, ∀ page ∈ (seqs e.seq).kvPageIds, pool.touchUs page ≠ 0)
    (page : Fin cfg.pages) :
    (touchEntries clock seqs entries tick pool).touchUs page ≠ 0 ↔ pool.touchUs page ≠ 0 := by
  induction entries generalizing tick pool with
  | nil => exact Iff.rfl
  | cons e rest ih =>
      unfold touchEntries
      split
      · exact ih tick pool fun other member => stamped other (by simp [member])
      · have touched : ∀ other, (pool.touch (seqs e.seq).kvPageIds (clock tick)).touchUs other ≠ 0 ↔
            pool.touchUs other ≠ 0 := by
          intro other
          rw [touch_stamps]
          by_cases given : other ∈ (seqs e.seq).kvPageIds
          · rw [if_pos given]
            exact iff_of_true (running tick) (stamped e (by simp) other given)
          · rw [if_neg given]
        rw [ih (tick + 1) _ ?_, touched]
        intro other member given inside
        rw [touched]
        exact stamped other (by simp [member]) given inside

/-- No page is old enough for the `leak_scan` of the call. -/
def NothingReclaimed (clock : Clock) (d : Driver cfg) : Call → Prop
  | .stepComplete _ => ∀ batch ∈ d.pending,
      (touchEntries clock d.sched.seqs batch.entries d.sched.ticks d.sched.kvPool).orphans 30000
        (clock (d.sched.ticks + decodeCount batch.entries)) = []
  | _ => True

/-- No sequence that holds pages ends in the call. -/
def FinishersHoldNothing (d : Driver cfg) : Call → Prop
  | .stepComplete newTokens => ∀ batch ∈ d.pending, ∀ id ∈ d.sched.running,
      Finishing d.sched batch newTokens id → pagesOf d.sched id = []
  | _ => True

theorem nothing_stale {d : Driver cfg} {newTokens : List Int} {batch : ScheduledBatch}
    (pending : d.pending = some batch)
    (kept : NothingReclaimed clock d (.stepComplete newTokens)) (page : Fin cfg.pages) :
    (touchEntries clock d.sched.seqs batch.entries d.sched.ticks d.sched.kvPool).isStale 30000
      (clock (d.sched.ticks + decodeCount batch.entries)) page = false := by
  rw [Bool.eq_false_iff]
  intro stale
  have collected := (mem_orphans_iff _ _ _ page).mpr stale
  rw [kept batch pending] at collected
  cases collected

theorem step_complete_stamps {d : Driver cfg} (running : ∀ reading, clock reading ≠ 0)
    (consistent : Consistent d) (accounted : Accounted d.sched) {after : Scheduler cfg}
    {batch : ScheduledBatch} {newTokens : List Int} {callbacks : List (Int × List Int)}
    (pending : d.pending = some batch)
    (stepped : d.sched.stepComplete clock batch newTokens = some (after, callbacks))
    (kept : NothingReclaimed clock d (.stepComplete newTokens)) (page : Fin cfg.pages) :
    after.kvPool.touchUs page ≠ 0 ↔ Held d.sched page := by
  have distinct := (consistent.pending batch pending).distinct
  have effect := step_complete_effect distinct stepped
  rw [(step_complete_pool distinct stepped).1, leak_scan_touch,
    nothing_stale pending kept page, if_neg Bool.false_ne_true, touch_entries_stamped running,
    accounted.stamps page]
  intro e member other inside
  exact (accounted.stamps other).mpr ⟨e.seq, step_owner_queued effect e member, inside⟩

theorem step_held {before after : Scheduler cfg} {batch : ScheduledBatch}
    {newTokens : List Int} {callbacks : List (Int × List Int)}
    (effect : StepEffect before batch newTokens after callbacks) {page : Fin cfg.pages}
    (held : Held after page) : Held before page := by
  rcases held with ⟨id, member, inside⟩
  rw [step_pages effect] at inside
  exact ⟨id, step_queued effect member, inside⟩

/-- A `step_complete` keeps the stamps right exactly when what it ends holds no
pages. -/
theorem step_complete_stamps_iff {d : Driver cfg} (running : ∀ reading, clock reading ≠ 0)
    (consistent : Consistent d) (accounted : Accounted d.sched) {after : Scheduler cfg}
    {batch : ScheduledBatch} {newTokens : List Int} {callbacks : List (Int × List Int)}
    (pending : d.pending = some batch)
    (stepped : d.sched.stepComplete clock batch newTokens = some (after, callbacks))
    (kept : NothingReclaimed clock d (.stepComplete newTokens)) :
    StampsTell after ↔ FinishersHoldNothing d (.stepComplete newTokens) := by
  have effect := step_complete_effect (consistent.pending batch pending).distinct stepped
  have stamps := step_complete_stamps running consistent accounted pending stepped kept
  constructor
  · intro tells other samePending id inRunning finishing
    rw [pending] at samePending
    cases samePending
    apply List.eq_nil_iff_forall_not_mem.mpr
    intro page inside
    have member : queued d.sched id := by
      unfold queued
      simp [inRunning]
    have later := (tells page).mp ((stamps page).mpr ⟨id, member, inside⟩)
    rcases later with ⟨holder, holderQueued, holderInside⟩
    rw [step_pages effect] at holderInside
    have same : holder = id := by
      by_contra different
      exact accounted.owned.ledger.disjoint holder id (step_queued effect holderQueued) member
        different holderInside inside
    exact finishing_leaves consistent effect finishing (same ▸ holderQueued)
  · intro empty page
    rw [stamps page]
    constructor
    · intro held
      rcases held with ⟨id, member, inside⟩
      refine ⟨id, unfinished_stays consistent effect member ?_, ?_⟩
      · intro finishing
        have inRunning : id ∈ d.sched.running := by
          rcases finishing with ⟨assigned, given, rfl, _⟩
          rcases assigned_seq_mem given with ⟨e, inBatch, _, same⟩
          exact same ▸ effect.owned e inBatch
        rw [empty batch pending id inRunning finishing] at inside
        cases inside
      · rw [step_pages effect]
        exact inside
    · exact step_held effect

/-! ## Runs -/

theorem accounted_create : Accounted (Scheduler.create cfg) := by
  refine ⟨pages_owned_create, ?_⟩
  intro page
  constructor
  · intro stamped
    exact absurd (create_touch page) stamped
  · intro held
    rcases held with ⟨_, _, inside⟩
    cases inside

theorem queues_distinct {d : Driver cfg} (consistent : Consistent d) :
    (d.sched.waiting ++ d.sched.running ++ d.sched.swapped).Nodup := by
  rw [consistent.unswapped, List.append_nil]
  exact consistent.distinct

theorem pages_owned_kept {d after : Driver cfg} (consistent : Consistent d)
    (owned : PagesOwned d.sched) {call : Call} (moved : d.step clock call = some after)
    (kept : NothingReclaimed clock d call) : PagesOwned after.sched := by
  apply pages_owned_step consistent owned moved
  intro newTokens batch same pending _ _ page _
  subst same
  exact nothing_stale pending kept page

theorem add_request_stamps {d after : Driver cfg} (consistent : Consistent d)
    (accounted : Accounted d.sched) {promptTokens : List Int} {maxNewTokens eosTokenId : Int}
    (moved : d.step clock (.addRequest promptTokens maxNewTokens eosTokenId) = some after) :
    StampsTell after.sched := by
  rcases step_add_request moved with ⟨added, event, effect⟩
  intro page
  rw [effect.kvPool, accounted.stamps page]
  constructor
  · intro held
    rcases held with ⟨id, member, inside⟩
    unfold queued at member
    rw [consistent.unswapped, List.append_nil] at member
    refine ⟨id, ?_, ?_⟩
    · unfold queued
      rw [effect.waiting, effect.running]
      rcases List.mem_append.mp member with waiting | inRunning
      · simp [waiting]
      · simp [inRunning]
    · unfold pagesOf
      rw [add_effect_old_seq consistent effect member]
      exact inside
  · intro held
    rcases held with ⟨id, member, inside⟩
    unfold queued at member
    rw [effect.swapped, consistent.unswapped, List.append_nil] at member
    unfold pagesOf at inside
    rcases add_effect_queued effect member with old | ⟨new, _, sequence⟩
    · rw [add_effect_old_seq consistent effect old] at inside
      exact ⟨id, List.mem_append_left _ old, inside⟩
    · rw [new, sequence] at inside
      cases inside

theorem abort_request_stamps {d after : Driver cfg} (consistent : Consistent d)
    (accounted : Accounted d.sched) {seqId : Int}
    (moved : d.step clock (.abortRequest seqId) = some after) : StampsTell after.sched := by
  rcases step_abort_request consistent.unswapped moved with ⟨sched, _, _⟩
  rcases abort_request_effect d.sched seqId consistent.unswapped consistent.distinct with
    ⟨effect, ⟨_, same⟩ | ⟨found, pool, _, seqs⟩⟩
  · rw [sched, same]
    exact accounted.stamps
  · rw [sched]
    apply release_stamps accounted (List.mem_append_left _ found) pool
    · rw [abort_pages seqs]
    · intro other different
      unfold queued
      rw [effect.waiting, effect.running, effect.swapped]
      simp only [List.mem_append, List.mem_erase_of_ne different]

theorem accounted_step (running : ∀ reading, clock reading ≠ 0) {d after : Driver cfg}
    (consistent : Consistent d) (accounted : Accounted d.sched) {call : Call}
    (moved : d.step clock call = some after) (kept : NothingReclaimed clock d call)
    (empty : FinishersHoldNothing d call) : Accounted after.sched := by
  refine ⟨pages_owned_kept consistent accounted.owned moved kept, ?_⟩
  cases call with
  | addRequest promptTokens maxNewTokens eosTokenId =>
      exact add_request_stamps consistent accounted moved
  | abortRequest seqId => exact abort_request_stamps consistent accounted moved
  | schedule =>
      rcases step_schedule moved with ⟨_, rfl⟩
      exact (trace_invariant (fun _ _ micro => micro_accounted running micro)
        (schedule_trace d.sched consistent.distinct) accounted).stamps
  | stepComplete newTokens =>
      rcases step_step_complete moved with ⟨batch, ⟨sched, callbacks⟩, pending, stepped, rfl⟩
      exact (step_complete_stamps_iff running consistent accounted pending stepped kept).mpr empty

/-- Aborts stay outside the steps, nothing is reclaimed, and nothing ends that
holds pages. -/
def ConservingCalls (clock : Clock) (d : Driver cfg) (call : Call) : Prop :=
  d.AbortsIdle call ∧ NothingReclaimed clock d call ∧ FinishersHoldNothing d call

theorem accounted_reached (running : ∀ reading, clock reading ≠ 0) {d : Driver cfg}
    (reached : Driver.Reached clock (ConservingCalls clock) d) : Accounted d.sched := by
  apply reaches_invariant (motive := fun d : Driver cfg => Accounted d.sched) accounted_create
    _ reached
  intro before call after prior accounted meets moved
  exact accounted_step running (consistent_reached prior) accounted moved meets.2.1 meets.2.2

/-- In every run of such calls the pages in use are the pages held, and the next
`step_complete` that reclaims nothing keeps it so exactly when it ends no
sequence that holds pages. -/
theorem pages_conserved_iff (running : ∀ reading, clock reading ≠ 0) {d : Driver cfg}
    (reached : Driver.Reached clock (ConservingCalls clock) d) :
    d.sched.getStats.kvPagesUsed = pagesHeld d.sched ∧
      ∀ newTokens after, NothingReclaimed clock d (.stepComplete newTokens) →
        d.step clock (.stepComplete newTokens) = some after →
          (after.sched.getStats.kvPagesUsed = pagesHeld after.sched ↔
            FinishersHoldNothing d (.stepComplete newTokens)) := by
  have consistent := consistent_reached reached
  have accounted := accounted_reached running reached
  constructor
  · exact (pages_used_iff accounted.owned.ledger (queues_distinct consistent)
      fun page held => (accounted.stamps page).mpr held).mpr accounted.stamps
  · intro newTokens after kept moved
    have owned := pages_owned_kept consistent accounted.owned moved kept
    have distinct := queues_distinct (consistent_step consistent moved)
    rcases step_step_complete moved with ⟨batch, ⟨sched, callbacks⟩, pending, stepped, rfl⟩
    have effect := step_complete_effect (consistent.pending batch pending).distinct stepped
    rw [← step_complete_stamps_iff running consistent accounted pending stepped kept]
    apply pages_used_iff owned.ledger distinct
    intro page held
    exact (step_complete_stamps running consistent accounted pending stepped kept page).mpr
      (step_held effect held)

instance nothingReclaimedDecidable (d : Driver cfg) :
    ∀ call, Decidable (NothingReclaimed clock d call)
  | .addRequest _ _ _ => inferInstanceAs (Decidable True)
  | .abortRequest _ => inferInstanceAs (Decidable True)
  | .schedule => inferInstanceAs (Decidable True)
  | .stepComplete _ => inferInstanceAs (Decidable (∀ batch ∈ d.pending, _ = []))

instance finishersHoldNothingDecidable (d : Driver cfg) :
    ∀ call, Decidable (FinishersHoldNothing d call)
  | .addRequest _ _ _ => inferInstanceAs (Decidable True)
  | .abortRequest _ => inferInstanceAs (Decidable True)
  | .schedule => inferInstanceAs (Decidable True)
  | .stepComplete _ =>
      inferInstanceAs (Decidable (∀ batch ∈ d.pending, ∀ id ∈ d.sched.running, _ → _ = []))

instance conservingCallsDecidable (d : Driver cfg) (call : Call) :
    Decidable (ConservingCalls clock d call) :=
  inferInstanceAs (Decidable (_ ∧ _ ∧ _))

def stoppedClock : Clock := fun _ => 1

theorem stopped_clock_nonzero (reading : Nat) : stoppedClock reading ≠ 0 := by
  change (1 : UInt64) ≠ 0
  decide

theorem pages_conserved_iff_two_requests :
    let d := (runCalls (Driver.step stoppedClock) (ConservingCalls stoppedClock)
      (Driver.create { kvPageSizeTokens := 2, maxPagesTotal := 8 })
      [.addRequest [7, 8, 9] 2 (-1), .addRequest [5] 3 (-1), .schedule, .stepComplete [],
        .schedule, .stepComplete [3, 4], .schedule]).get (by decide)
    let after := (d.step stoppedClock (.stepComplete [3, 4])).get (by decide)
    d.sched.getStats.kvPagesUsed = pagesHeld d.sched ∧
      (after.sched.getStats.kvPagesUsed = pagesHeld after.sched ↔
        FinishersHoldNothing d (.stepComplete [3, 4])) := by
  intro d after
  have conserved := pages_conserved_iff (d := d) stopped_clock_nonzero
    (reaches_of_run_get _ (by decide))
  exact ⟨conserved.1, conserved.2 [3, 4] after (by decide) (Option.some_get _).symm⟩

/-- A request for one token completes, and its pages stay in use with no
sequence left to hold them. -/
theorem completed_pages_stay_in_use :
    ¬∀ (cfg : SchedulerConfig) (clock : Clock) (d after : Driver cfg) (newTokens : List Int),
      (∀ reading, clock reading ≠ 0) →
      Driver.Reached clock (fun d call => d.AbortsIdle call ∧ NothingReclaimed clock d call) d →
      NothingReclaimed clock d (.stepComplete newTokens) →
      d.step clock (.stepComplete newTokens) = some after →
      after.sched.getStats.kvPagesUsed = pagesHeld after.sched := by
  intro always
  have counted := always { kvPageSizeTokens := 2, maxPagesTotal := 4 } stoppedClock _ _ [9]
    stopped_clock_nonzero
    (reaches_of_run_get [.addRequest [7] 1 (-1), .schedule, .stepComplete [], .schedule]
      (by decide))
    (by decide) (Option.some_get (by decide)).symm
  exact absurd counted (by decide)

end AmpFormal.SchedulerAccounting
