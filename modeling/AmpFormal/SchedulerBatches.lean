import AmpFormal.SchedulerProgress
import Mathlib.Algebra.Order.Round
import Mathlib.Data.Rat.Floor

/-!
# The form of a batch

What the two loops of `schedule` maintain while they build a batch: the token
budget, the counters, and that every sequence already in the batch keeps the
pages its entry needs. The last point rests on who can still be preempted, a
sequence of `decode_seqs` without an entry. No relation between `schedule` and
`step_complete` is assumed: a caller may complete any batch at any time.
-/

namespace AmpFormal.SchedulerBatches

open AmpFormal.PagePoolFastModel AmpFormal.SchedulerModel AmpFormal.SchedulerModel.Scheduler
open AmpFormal.ScheduleEffects AmpFormal.StepCompleteEffects AmpFormal.TransitionRuns
open AmpFormal.SchedulerRuns AmpFormal.SchedulerProgress AmpFormal.WrappedInts

set_option autoImplicit false

variable {cfg : SchedulerConfig} {clock : Clock}

/-! ## Pages that an entry needs -/

/-- `ceil((prompt_len + output_len + n_tokens) / kv_page_size_tokens)`. -/
def pagesOfTokens (cfg : SchedulerConfig) (tokens : Int) : Int :=
  ⌈(tokens : ℚ) / cfg.kvPageSizeTokens⌉

theorem rounded_up_eq (pageSize : 0 < cfg.kvPageSizeTokens) {tokens : Int} (nonneg : 0 ≤ tokens) :
    (tokens + cfg.kvPageSizeTokens - 1).tdiv cfg.kvPageSizeTokens = pagesOfTokens cfg tokens := by
  unfold pagesOfTokens
  rw [Int.tdiv_eq_ediv_of_nonneg (by omega)]
  have size : (0 : ℚ) < cfg.kvPageSizeTokens := by exact_mod_cast pageSize
  symm
  rw [Int.ceil_eq_iff, lt_div_iff₀ size, div_le_iff₀ size]
  have lower := Int.mul_ediv_self_le (x := tokens + cfg.kvPageSizeTokens - 1) pageSize.ne'
  have upper := Int.lt_mul_ediv_self_add (x := tokens + cfg.kvPageSizeTokens - 1) pageSize
  rw [mul_comm] at lower upper
  constructor
  · have bound : ((tokens + cfg.kvPageSizeTokens - 1) / cfg.kvPageSizeTokens - 1) *
        cfg.kvPageSizeTokens < tokens := by
      rw [sub_mul, one_mul]
      omega
    exact_mod_cast bound
  · have bound : tokens ≤ (tokens + cfg.kvPageSizeTokens - 1) / cfg.kvPageSizeTokens *
        cfg.kvPageSizeTokens := by omega
    exact_mod_cast bound

theorem total_tokens_nonneg {pages : Nat} (s : Sequence pages) : 0 ≤ s.totalTokens := by
  unfold Sequence.totalTokens
  omega

/-- Both sums stay in the range of `int`. -/
def FitsInt (cfg : SchedulerConfig) (tokens : Int) : Prop :=
  tokens + cfg.kvPageSizeTokens ≤ 2147483648

theorem pages_needed_eq (pageSize : 0 < cfg.kvPageSizeTokens) {pages : Nat} (s : Sequence pages)
    {nTokens : Int} (positive : 0 ≤ nTokens) (fits : FitsInt cfg (s.totalTokens + nTokens)) :
    pagesNeededFor cfg s nTokens = pagesOfTokens cfg (s.totalTokens + nTokens) := by
  have total := total_tokens_nonneg s
  unfold FitsInt at fits
  unfold pagesNeededFor
  dsimp only
  rw [to_int32_of_range (x := s.totalTokens + nTokens) (by omega) (by omega),
    to_int32_of_range (by omega) (by omega)]
  exact rounded_up_eq pageSize (by omega)

/-- A sum that wraps asks for fewer pages, never for more. -/
theorem pages_needed_le (pageSize : 0 < cfg.kvPageSizeTokens) {pages : Nat} (s : Sequence pages)
    {nTokens : Int} (positive : 0 ≤ nTokens) :
    pagesNeededFor cfg s nTokens ≤ pagesOfTokens cfg (s.totalTokens + nTokens) := by
  have total := total_tokens_nonneg s
  have wrapped := to_int32_le (x := s.totalTokens + nTokens) (by omega)
  have range := to_int32_range (s.totalTokens + nTokens)
  have rounded := to_int32_le
    (x := toInt32 (s.totalTokens + nTokens) + cfg.kvPageSizeTokens - 1) (by omega)
  rw [← rounded_up_eq pageSize (by omega)]
  exact Int.tdiv_le_tdiv pageSize (by omega)

theorem try_alloc_grows (clock : Clock) (st : Scheduler cfg) (id nNewTokens other : Int) :
    ∃ more, (st.tryAllocPages clock id nNewTokens).1.seqs other =
      withPages (st.seqs other) ((st.seqs other).kvPageIds ++ more) := by
  have unchanged : st.seqs other = withPages (st.seqs other) ((st.seqs other).kvPageIds ++ []) := by
    rw [List.append_nil]
    rfl
  obtain ⟨_, result⟩ | ⟨_, _, result⟩ | ⟨_, _, result⟩ := try_alloc_cases clock st id nNewTokens
  · exact ⟨[], by rw [result]; exact unchanged⟩
  · exact ⟨[], by rw [result]; exact unchanged⟩
  · rw [result]
    by_cases same : other = id
    · subst same
      exact ⟨_, Function.update_self _ _ _⟩
    · exact ⟨[], (Function.update_of_ne same _ _).trans unchanged⟩

theorem try_alloc_covers (st : Scheduler cfg) (id nNewTokens : Int)
    (granted : (st.tryAllocPages clock id nNewTokens).2 = true) :
    pagesNeededFor cfg ((st.tryAllocPages clock id nNewTokens).1.seqs id) nNewTokens ≤
      ((st.tryAllocPages clock id nNewTokens).1.seqs id).kvPageIds.length := by
  obtain ⟨enough, result⟩ | ⟨_, _, result⟩ | ⟨_, full, result⟩ :=
    try_alloc_cases clock st id nNewTokens
  · rw [result]
    unfold extraPages at enough
    change pagesNeededFor cfg (st.seqs id) nNewTokens ≤ (st.seqs id).kvPageIds.length
    omega
  · rw [result] at granted
    cases granted
  · rw [result]
    simp only [setSeq, Function.update_self, withPages, List.length_append, Nat.cast_add]
    unfold extraPages at full
    change pagesNeededFor cfg (st.seqs id) nNewTokens ≤ _
    omega

/-! ## The invariant of the loops -/

def EntryCovered (st : Scheduler cfg) (e : BatchEntry) : Prop :=
  pagesNeededFor cfg (st.seqs e.seq) e.nTokens ≤ (st.seqs e.seq).kvPageIds.length

structure BatchSound (loop : BatchLoop cfg) : Prop where
  total : loop.batch.totalTokens = (loop.batch.entries.map BatchEntry.nTokens).sum
  spent : loop.batch.totalTokens + loop.tokensBudget = cfg.maxBatchTokens
  unspent : 0 ≤ loop.tokensBudget
  counted : loop.batch.nPrefill + loop.batch.nDecode = loop.batch.entries.length
  chunks : ∀ e ∈ loop.batch.entries, e.isPrefill = true →
    e.nTokens ≤ cfg.maxPrefillTokensPerStep
  covered : ∀ e ∈ loop.batch.entries, EntryCovered loop.sched e

def Unnamed (refs : List Int) (loop : BatchLoop cfg) : Prop :=
  ∀ e ∈ loop.batch.entries, e.seq ∉ refs

theorem sound_start (st : Scheduler cfg) (budget : 0 ≤ cfg.maxBatchTokens) :
    BatchSound st.startBatch :=
  ⟨rfl, Int.zero_add _, budget, rfl, fun _ member => (nomatch member),
    fun _ member => (nomatch member)⟩

theorem covered_grown {before after : Scheduler cfg} {e : BatchEntry}
    (covered : EntryCovered before e)
    (grows : ∃ more, after.seqs e.seq =
      withPages (before.seqs e.seq) ((before.seqs e.seq).kvPageIds ++ more)) :
    EntryCovered after e := by
  obtain ⟨more, same⟩ := grows
  unfold EntryCovered at covered ⊢
  rw [same]
  change pagesNeededFor cfg (before.seqs e.seq) e.nTokens ≤ _
  simp only [withPages, List.length_append, Nat.cast_add]
  omega

theorem sound_try_alloc (clock : Clock) {loop : BatchLoop cfg} (sound : BatchSound loop)
    (id nNewTokens : Int) : BatchSound (loop.tryAlloc clock id nNewTokens).1 :=
  ⟨sound.total, sound.spent, sound.unspent, sound.counted, sound.chunks, fun e member =>
    covered_grown (sound.covered e member) (try_alloc_grows clock loop.sched id nNewTokens e.seq)⟩

/-- A preemption takes pages only from a sequence without an entry. -/
theorem sound_preempt {loop : BatchLoop cfg} (sound : BatchSound loop) {id : Int}
    (unnamed : Unnamed [id] loop) : BatchSound (loop.preempt id) := by
  refine ⟨sound.total, sound.spent, sound.unspent, sound.counted, sound.chunks, ?_⟩
  intro e member
  have different : e.seq ≠ id := by simpa using unnamed e member
  have same : (loop.preempt id).sched.seqs e.seq = loop.sched.seqs e.seq := by
    simp only [BatchLoop.preempt, preempt_seqs, Function.update_of_ne different]
  unfold EntryCovered
  rw [same]
  exact sound.covered e member

theorem sound_emit_prefill {loop : BatchLoop cfg} (sound : BatchSound loop) {id chunk : Int}
    (inBudget : chunk ≤ loop.tokensBudget) (limited : chunk ≤ cfg.maxPrefillTokensPerStep)
    (covered : pagesNeededFor cfg (loop.sched.seqs id) chunk ≤
      (loop.sched.seqs id).kvPageIds.length) : BatchSound (loop.emitPrefill id chunk) := by
  obtain ⟨total, spent, unspent, counted, chunks, others⟩ := sound
  constructor
  case total => simp [BatchLoop.emitPrefill, total]
  case spent =>
    simp only [BatchLoop.emitPrefill]
    omega
  case unspent =>
    simp only [BatchLoop.emitPrefill]
    omega
  case counted =>
    simp only [BatchLoop.emitPrefill, List.length_append, List.length_singleton, Nat.cast_add]
    omega
  case chunks =>
    intro e member kind
    rcases List.mem_append.mp member with old | new
    · exact chunks e old kind
    · rw [List.mem_singleton.mp new]
      exact limited
  case covered =>
    intro e member
    rcases List.mem_append.mp member with old | new
    · exact others e old
    · rw [List.mem_singleton.mp new]
      exact covered

theorem sound_emit_decode {loop : BatchLoop cfg} (sound : BatchSound loop) {id : Int}
    (inBudget : 0 < loop.tokensBudget)
    (covered : pagesNeededFor cfg (loop.sched.seqs id) 1 ≤
      (loop.sched.seqs id).kvPageIds.length) : BatchSound (loop.emitDecode id) := by
  obtain ⟨total, spent, unspent, counted, chunks, others⟩ := sound
  constructor
  case total => simp [BatchLoop.emitDecode, total]
  case spent =>
    simp only [BatchLoop.emitDecode]
    omega
  case unspent =>
    simp only [BatchLoop.emitDecode]
    omega
  case counted =>
    simp only [BatchLoop.emitDecode, List.length_append, List.length_singleton, Nat.cast_add]
    omega
  case chunks =>
    intro e member kind
    rcases List.mem_append.mp member with old | new
    · exact chunks e old kind
    · rw [List.mem_singleton.mp new] at kind
      cases kind
  case covered =>
    intro e member
    rcases List.mem_append.mp member with old | new
    · exact others e old
    · rw [List.mem_singleton.mp new]
      exact covered

theorem unnamed_subset {refs fewer : List Int} {loop : BatchLoop cfg} (unnamed : Unnamed refs loop)
    (subset : ∀ id ∈ fewer, id ∈ refs) : Unnamed fewer loop :=
  fun e member inside => unnamed e member (subset e.seq inside)

/-! ## The prefill loop -/

theorem chunk_limits (loop : BatchLoop cfg) (id : Int) :
    loop.chunkFor id ≤ loop.tokensBudget ∧ loop.chunkFor id ≤ cfg.maxPrefillTokensPerStep :=
  ⟨min_le_right _ _, (min_le_left _ _).trans (min_le_right _ _)⟩

theorem prefill_step_sound (clock : Clock) {loop : BatchLoop cfg} (sound : BatchSound loop)
    {id : Int} (apart : id ∉ loop.decodeSeqs) (unnamed : Unnamed loop.decodeSeqs loop) :
    BatchSound (loop.prefillStep clock id) ∧
      Unnamed (loop.prefillStep clock id).decodeSeqs (loop.prefillStep clock id) := by
  have limits := chunk_limits loop id
  have emitted_unnamed : ∀ next : BatchLoop cfg, (∀ other ∈ next.decodeSeqs,
      other ∈ loop.decodeSeqs) → Unnamed next.decodeSeqs next →
      Unnamed next.decodeSeqs (next.emitPrefill id (loop.chunkFor id)) := by
    intro next fewer before e member
    rcases List.mem_append.mp member with old | new
    · exact before e old
    · rw [List.mem_singleton.mp new]
      exact fun inside => apart (fewer id inside)
  rcases prefill_step_cases clock loop id with
    ⟨_, result⟩ | ⟨_, granted, result⟩ | ⟨_, _, none_left, result⟩ |
      ⟨_, _, rest, last, middle, split, middle_eq, result⟩
  · rw [result]
    exact ⟨sound, unnamed⟩
  · rw [result]
    have allocated := sound_try_alloc clock sound id (loop.chunkFor id)
    exact ⟨sound_emit_prefill allocated limits.1 limits.2 (try_alloc_covers _ _ _ granted),
      emitted_unnamed (loop.tryAlloc clock id (loop.chunkFor id)).1 (fun _ inside => inside)
        unnamed⟩
  · rw [result]
    exact ⟨sound_try_alloc clock sound id _, unnamed⟩
  · -- The sequence that loses its pages was still waiting for its turn to decode.
    have lastUnnamed : Unnamed [last] (loop.tryAlloc clock id (loop.chunkFor id)).1 := by
      apply unnamed_subset unnamed
      intro other member
      rw [List.mem_singleton.mp member, split]
      exact List.mem_append_right _ (List.mem_singleton_self last)
    have preempted := sound_preempt (sound_try_alloc clock sound id _) lastUnnamed
    have middleDecode : middle.decodeSeqs = rest := by
      rw [middle_eq]
      simp [BatchLoop.preemptLast, BatchLoop.tryAlloc, split]
    have fewer : ∀ other ∈ middle.decodeSeqs, other ∈ loop.decodeSeqs := by
      intro other member
      rw [split]
      exact List.mem_append_left _ (middleDecode ▸ member)
    have middleSound : BatchSound middle := by
      rw [middle_eq]
      exact ⟨preempted.total, preempted.spent, preempted.unspent, preempted.counted,
        preempted.chunks, preempted.covered⟩
    have middleUnnamed : Unnamed middle.decodeSeqs middle := by
      have entries : middle.batch.entries = loop.batch.entries := by
        rw [middle_eq]
        rfl
      intro e member inside
      exact unnamed e (entries ▸ member) (fewer e.seq inside)
    have budget : middle.tokensBudget = loop.tokensBudget := by
      rw [middle_eq]
      rfl
    have retried := sound_try_alloc clock middleSound id (loop.chunkFor id)
    rw [result]
    split
    case isTrue granted =>
      exact ⟨sound_emit_prefill retried (limits.1.trans budget.ge) limits.2
          (try_alloc_covers _ _ _ granted),
        emitted_unnamed (middle.tryAlloc clock id (loop.chunkFor id)).1 fewer middleUnnamed⟩
    case isFalse => exact ⟨retried, middleUnnamed⟩

theorem prefill_loop_sound (clock : Clock) (refs : List Int) {loop : BatchLoop cfg}
    (sound : BatchSound loop) (distinct : loop.decodeSeqs.Nodup)
    (apart : ∀ id ∈ refs, id ∉ loop.decodeSeqs) (unnamed : Unnamed loop.decodeSeqs loop) :
    BatchSound (loop.prefillLoop clock refs) ∧
      Unnamed (loop.prefillLoop clock refs).decodeSeqs (loop.prefillLoop clock refs) := by
  induction refs generalizing loop with
  | nil => exact ⟨sound, unnamed⟩
  | cons id rest ih =>
      unfold BatchLoop.prefillLoop
      split
      · exact ⟨sound, unnamed⟩
      · obtain ⟨stepSound, stepUnnamed⟩ :=
          prefill_step_sound clock sound (apart id (by simp)) unnamed
        obtain ⟨popped, issued, effect⟩ := prefill_step_effect clock loop id (apart id (by simp))
        have fewer : ∀ other ∈ (loop.prefillStep clock id).decodeSeqs, other ∈ loop.decodeSeqs := by
          intro other member
          rw [effect.decodeSeqs]
          exact List.mem_append_left _ member
        rw [effect.decodeSeqs] at distinct
        exact ih stepSound (List.nodup_append.mp distinct).1
          (fun other member inside => apart other (by simp [member]) (fewer other inside))
          stepUnnamed

/-! ## The decode loop -/

theorem decode_step_sound (clock : Clock) {loop : BatchLoop cfg} (sound : BatchSound loop)
    {id : Int} (budget : 0 < loop.tokensBudget) (unnamed : Unnamed [id] loop) :
    BatchSound (loop.decodeStep clock id) := by
  have allocated := sound_try_alloc clock sound id 1
  unfold BatchLoop.decodeStep
  dsimp only
  split
  case isTrue granted => exact sound_emit_decode allocated budget (try_alloc_covers _ _ _ granted)
  case isFalse => exact sound_preempt allocated unnamed

theorem decode_loop_sound (clock : Clock) (refs : List Int) {loop : BatchLoop cfg}
    (sound : BatchSound loop) (distinct : refs.Nodup) (unnamed : Unnamed refs loop) :
    BatchSound (loop.decodeLoop clock refs) := by
  induction refs generalizing loop with
  | nil => exact sound
  | cons id rest ih =>
      obtain ⟨fresh, restDistinct⟩ := List.nodup_cons.mp distinct
      unfold BatchLoop.decodeLoop
      split
      case isTrue => exact sound
      case isFalse open_budget =>
        obtain ⟨preempted, issued, effect⟩ := decode_step_effect clock loop id
        have stepSound := decode_step_sound clock sound (by omega)
          (unnamed_subset unnamed fun _ here => List.mem_singleton.mp here ▸ List.mem_cons_self)
        apply ih stepSound restDistinct
        intro e member
        rw [effect.entries] at member
        rcases List.mem_append.mp member with old | new
        · exact fun inside => unnamed e old (List.mem_cons_of_mem _ inside)
        · have here := effect.sublist.subset (List.mem_map_of_mem new)
          rw [List.mem_singleton] at here
          rw [here]
          exact fresh

/-! ## The whole call -/

theorem schedule_sound (clock : Clock) (st : Scheduler cfg) (budget : 0 ≤ cfg.maxBatchTokens)
    (distinct : (st.waiting ++ st.running).Nodup) :
    ∃ final : BatchLoop cfg, st.schedule clock = (final.sched, final.batch) ∧
      BatchSound final ∧ final.sched.running = (st.promoteWaiting clock).running := by
  obtain ⟨admitted, promoted⟩ := promote_loop_effect clock st.waiting st rfl
  have runningDistinct := promoted_running_nodup distinct promoted
  change (st.promoteWaiting clock).running.Nodup at runningDistinct
  generalize middle_eq : st.promoteWaiting clock = middle at runningDistinct ⊢
  have apart : ∀ id ∈ middle.running.filter (middle.inState .prefill),
      id ∉ middle.startBatch.decodeSeqs := prefill_apart_decode middle
  have decodeDistinct : middle.startBatch.decodeSeqs.Nodup := runningDistinct.filter _
  obtain ⟨popped, issued, prefilled⟩ := prefill_loop_effect clock _ _ decodeDistinct apart
  obtain ⟨prefillSound, unnamed⟩ := prefill_loop_sound clock _ (sound_start middle budget)
    decodeDistinct apart fun _ member => nomatch member
  rw [prefilled.decodeSeqs] at decodeDistinct
  have remaining := (List.nodup_append.mp decodeDistinct).1
  obtain ⟨preempted, later, decoded⟩ := decode_loop_effect clock _
    (middle.startBatch.prefillLoop clock (middle.running.filter (middle.inState .prefill)))
    remaining
  refine ⟨_, ?_, decode_loop_sound clock _ prefillSound remaining unnamed,
    decoded.queues.running.trans prefilled.queues.running⟩
  rw [← middle_eq]
  rfl

theorem promote_loop_bounded (clock : Clock) (queue : List Int) (st : Scheduler cfg)
    (bounded : (st.running.length : Int) ≤ cfg.maxSeqsRunning) :
    ((st.promoteLoop clock queue).running.length : Int) ≤ cfg.maxSeqsRunning := by
  induction queue generalizing st with
  | nil => exact bounded
  | cons front rest ih =>
      have queues := try_alloc_same_queues clock st front cfg.kvPageSizeTokens
      unfold promoteLoop
      split
      case isFalse => exact bounded
      case isTrue slot =>
        dsimp only
        split
        case isFalse =>
          rw [queues.running]
          exact bounded
        case isTrue =>
          apply ih
          simp only [moveFront, setSeq, List.length_append, List.length_singleton,
            queues.running, Nat.cast_add, Nat.cast_one]
          omega

/-- Every entry of a batch returned by `schedule`, and the counters. -/
structure WellFormedBatch (cfg : SchedulerConfig) (after : Scheduler cfg)
    (batch : ScheduledBatch) : Prop where
  owned : ∀ e ∈ batch.entries, e.seq ∈ after.running
  distinct : (batch.entries.map BatchEntry.seq).Nodup
  total : batch.totalTokens = (batch.entries.map BatchEntry.nTokens).sum
  budget : batch.totalTokens ≤ cfg.maxBatchTokens
  counted : batch.nPrefill + batch.nDecode = batch.entries.length
  prefill : ∀ e ∈ batch.entries, e.isPrefill = true →
    1 ≤ e.nTokens ∧ e.nTokens ≤ cfg.maxPrefillTokensPerStep ∧
      e.prefillStart + e.nTokens ≤ (after.seqs e.seq).promptTokens.length
  decode : ∀ e ∈ batch.entries, e.isPrefill = false →
    e.nTokens = 1 ∧ (after.seqs e.seq).state = .decode
  pages : ∀ e ∈ batch.entries, FitsInt cfg ((after.seqs e.seq).promptTokens.length +
      (after.seqs e.seq).outputTokens.length + e.nTokens) →
    pagesOfTokens cfg ((after.seqs e.seq).promptTokens.length +
      (after.seqs e.seq).outputTokens.length + e.nTokens) ≤ (after.seqs e.seq).kvPageIds.length
  bounded : (after.running.length : Int) ≤ cfg.maxSeqsRunning

theorem schedule_well_formed (limits : PositiveLimits cfg) (clock : Clock) (st : Scheduler cfg)
    (distinct : (st.waiting ++ st.running).Nodup)
    (bounded : (st.running.length : Int) ≤ cfg.maxSeqsRunning) :
    WellFormedBatch cfg (st.schedule clock).1 (st.schedule clock).2 := by
  obtain ⟨admitted, preempted, effect⟩ := schedule_effect clock st distinct
  obtain ⟨final, result, sound, running⟩ :=
    schedule_sound clock st limits.batchTokens.le distinct
  rw [result] at effect ⊢
  have positive : ∀ e ∈ final.batch.entries, 0 ≤ e.nTokens := by
    intro e member
    cases kind : e.isPrefill with
    | true => exact (effect.entry_prefill e member kind).2.2.2.1.le
    | false =>
        rw [(effect.entry_decode e member kind).2.2]
        exact Int.one_nonneg
  constructor
  case owned =>
    intro e member
    cases kind : e.isPrefill with
    | true => exact (effect.entry_prefill e member kind).1
    | false => exact (effect.entry_decode e member kind).1
  case distinct => exact effect.entries_nodup
  case total => exact sound.total
  case budget =>
    have spent := sound.spent
    have unspent := sound.unspent
    dsimp only
    omega
  case counted => exact sound.counted
  case prefill =>
    intro e member kind
    obtain ⟨_, _, first, some_tokens, remaining⟩ := effect.entry_prefill e member kind
    refine ⟨some_tokens, sound.chunks e member kind, ?_⟩
    unfold Sequence.remainingPrefill at remaining
    dsimp only at first remaining ⊢
    omega
  case decode =>
    intro e member kind
    obtain ⟨_, state, single⟩ := effect.entry_decode e member kind
    exact ⟨single, state⟩
  case pages =>
    intro e member fits
    have needed := pages_needed_eq limits.pageSize (final.sched.seqs e.seq) (positive e member) fits
    exact needed ▸ sound.covered e member
  case bounded =>
    change (final.sched.running.length : Int) ≤ cfg.maxSeqsRunning
    rw [running]
    exact promote_loop_bounded clock st.waiting st bounded

/-! ## Runs -/

/-- A call of the public interface. `step_complete` may be given any batch. -/
inductive ApiCall where
  | addRequest (promptTokens : List Int) (maxNewTokens eosTokenId : Int)
  | abortRequest (seqId : Int)
  | schedule
  | stepComplete (batch : ScheduledBatch) (newTokens : List Int)
  deriving DecidableEq, Repr

def apiStep (clock : Clock) (st : Scheduler cfg) : ApiCall → Option (Scheduler cfg)
  | .addRequest promptTokens maxNewTokens eosTokenId =>
      some (st.addRequest promptTokens maxNewTokens eosTokenId).1
  | .abortRequest seqId => some (st.abortRequest seqId)
  | .schedule => some (st.schedule clock).1
  | .stepComplete batch newTokens => (st.stepComplete clock batch newTokens).map Prod.fst

/-- The states reached by any calls, in any order. -/
abbrev ApiReached (clock : Clock) (st : Scheduler cfg) : Prop :=
  Reaches (apiStep clock) (fun _ _ => True) (Scheduler.create cfg) st

structure QueuesSound (st : Scheduler cfg) : Prop where
  unswapped : st.swapped = []
  distinct : (st.waiting ++ st.running).Nodup
  fresh : ∀ id ∈ st.waiting ++ st.running, id < st.nextId
  bounded : (st.running.length : Int) ≤ cfg.maxSeqsRunning

theorem queues_sound_create (limits : PositiveLimits cfg) :
    QueuesSound (Scheduler.create cfg) :=
  ⟨rfl, List.nodup_nil, fun _ member => (nomatch member), limits.seqsRunning.le⟩

theorem queues_sound_shrink {before after : Scheduler cfg} (sound : QueuesSound before)
    (swapped : after.swapped = before.swapped) (nextId : after.nextId = before.nextId)
    (waiting : after.waiting.Sublist before.waiting)
    (running : after.running.Sublist before.running) : QueuesSound after := by
  refine ⟨swapped.trans sound.unswapped, sound.distinct.sublist (waiting.append running), ?_, ?_⟩
  · intro id queued
    rw [nextId]
    exact sound.fresh id ((waiting.append running).subset queued)
  · have shorter := running.length_le
    have bounded := sound.bounded
    omega

theorem queues_sound_add_request {st : Scheduler cfg} (sound : QueuesSound st)
    (promptTokens : List Int) (maxNewTokens eosTokenId : Int) :
    QueuesSound (st.addRequest promptTokens maxNewTokens eosTokenId).1 := by
  have older : ∀ id ∈ st.waiting ++ st.running, id < st.nextId + 1 :=
    fun id queued => (sound.fresh id queued).trans (lt_add_one _)
  unfold addRequest
  dsimp only
  split
  · exact ⟨sound.unswapped, sound.distinct, older, sound.bounded⟩
  · have stranger : st.nextId ∉ st.waiting ++ st.running :=
      fun queued => lt_irrefl _ (sound.fresh _ queued)
    refine ⟨sound.unswapped, ?_, ?_, sound.bounded⟩
    · change ((st.waiting ++ [st.nextId]) ++ st.running).Nodup
      rw [List.append_assoc]
      exact List.nodup_middle.mpr (List.nodup_cons.mpr ⟨stranger, sound.distinct⟩)
    · intro id queued
      change id ∈ (st.waiting ++ [st.nextId]) ++ st.running at queued
      change id < st.nextId + 1
      rw [List.append_assoc] at queued
      rcases List.mem_cons.mp (List.perm_middle.mem_iff.mp queued) with new | old
      · rw [new]
        exact lt_add_one _
      · exact older id old

theorem queues_sound_schedule {st : Scheduler cfg} (sound : QueuesSound st)
    (limits : PositiveLimits cfg) (clock : Clock) : QueuesSound (st.schedule clock).1 := by
  obtain ⟨admitted, preempted, effect⟩ := schedule_effect clock st sound.distinct
  have moves := schedule_queues_perm effect
  refine ⟨effect.swapped.trans sound.unswapped, moves.nodup_iff.mp sound.distinct, ?_,
    (schedule_well_formed limits clock st sound.distinct sound.bounded).bounded⟩
  intro id queued
  rw [effect.nextId]
  exact sound.fresh id (moves.mem_iff.mpr queued)

theorem complete_entry_queues (clock : Clock) (newTokens : List Int) (loop : CompleteLoop cfg)
    (e : BatchEntry) :
    (loop.completeEntry clock newTokens e).sched.waiting = loop.sched.waiting ∧
      (loop.completeEntry clock newTokens e).sched.running = loop.sched.running ∧
      (loop.completeEntry clock newTokens e).sched.swapped = loop.sched.swapped ∧
      (loop.completeEntry clock newTokens e).sched.nextId = loop.sched.nextId ∧
      (loop.completeEntry clock newTokens e).sched.preemptions = loop.sched.preemptions := by
  unfold CompleteLoop.completeEntry
  split
  case isTrue => exact ⟨rfl, rfl, rfl, rfl, rfl⟩
  case isFalse =>
    unfold CompleteLoop.completeDecode
    dsimp only
    generalize (if loop.decodeIdx < newTokens.length then newTokens.getD loop.decodeIdx 0 else 0) =
      tok
    by_cases finished : ((loop.sched.seqs e.seq).appendToken tok).finishes tok = true
    · rw [if_pos finished]
      exact ⟨rfl, rfl, rfl, rfl, rfl⟩
    · rw [if_neg finished]
      exact ⟨rfl, rfl, rfl, rfl, rfl⟩

theorem complete_entries_queues (clock : Clock) (newTokens : List Int)
    (entries : List BatchEntry) (loop : CompleteLoop cfg) :
    let last := entries.foldl (CompleteLoop.completeEntry clock newTokens) loop
    last.sched.waiting = loop.sched.waiting ∧ last.sched.running = loop.sched.running ∧
      last.sched.swapped = loop.sched.swapped ∧ last.sched.nextId = loop.sched.nextId ∧
      last.sched.preemptions = loop.sched.preemptions := by
  induction entries generalizing loop with
  | nil => exact ⟨rfl, rfl, rfl, rfl, rfl⟩
  | cons e rest ih =>
      obtain ⟨waiting, running, swapped, nextId, preemptions⟩ :=
        complete_entry_queues clock newTokens loop e
      obtain ⟨laterWaiting, laterRunning, laterSwapped, laterNextId, laterPreemptions⟩ :=
        ih (loop.completeEntry clock newTokens e)
      exact ⟨laterWaiting.trans waiting, laterRunning.trans running,
        laterSwapped.trans swapped, laterNextId.trans nextId,
        laterPreemptions.trans preemptions⟩

theorem queues_sound_step_complete {st : Scheduler cfg} (sound : QueuesSound st)
    {batch : ScheduledBatch} {newTokens : List Int} {after : Scheduler cfg}
    (moved : (st.stepComplete clock batch newTokens).map Prod.fst = some after) :
    QueuesSound after := by
  unfold stepComplete at moved
  split at moved
  case isFalse => cases moved
  case isTrue =>
    simp only [Option.map_some, Option.some.injEq] at moved
    obtain ⟨waiting, running, swapped, nextId, _⟩ :=
      complete_entries_queues clock newTokens batch.entries { sched := st }
    have waitingKept : after.waiting = st.waiting := by
      rw [← moved]
      exact waiting
    have runningKept : after.running.Sublist st.running := by
      rw [← moved, ← running]
      exact List.filter_sublist
    apply queues_sound_shrink sound _ _ (waitingKept ▸ List.Sublist.refl _) runningKept
    · rw [← moved]
      exact swapped
    · rw [← moved]
      exact nextId

theorem queues_sound_abort {st : Scheduler cfg} (sound : QueuesSound st) (seqId : Int) :
    QueuesSound (st.abortRequest seqId) := by
  have effect := (abort_request_effect st seqId sound.unswapped sound.distinct).1
  apply queues_sound_shrink sound effect.swapped effect.nextId
  · rw [effect.waiting]
    exact List.erase_sublist
  · rw [effect.running]
    exact List.erase_sublist

theorem queues_sound_reached (limits : PositiveLimits cfg) {st : Scheduler cfg}
    (reached : ApiReached clock st) : QueuesSound st := by
  apply reaches_invariant (queues_sound_create limits) _ reached
  intro before call after _ sound _ moved
  cases call with
  | addRequest promptTokens maxNewTokens eosTokenId =>
      cases moved
      exact queues_sound_add_request sound promptTokens maxNewTokens eosTokenId
  | abortRequest seqId =>
      cases moved
      exact queues_sound_abort sound seqId
  | schedule =>
      cases moved
      exact queues_sound_schedule sound limits clock
  | stepComplete batch newTokens => exact queues_sound_step_complete sound moved

theorem driver_api_reached {allowed : Driver cfg → Call → Prop} {d : Driver cfg}
    (reached : Driver.Reached clock allowed d) : ApiReached clock d.sched := by
  induction reached with
  | start => exact .start
  | call prior call _ moved ih =>
      cases call with
      | addRequest promptTokens maxNewTokens eosTokenId =>
          cases moved
          exact .call ih (.addRequest promptTokens maxNewTokens eosTokenId) trivial rfl
      | abortRequest seqId =>
          cases moved
          exact .call ih (.abortRequest seqId) trivial rfl
      | schedule =>
          obtain ⟨_, rfl⟩ := step_schedule moved
          exact .call ih .schedule trivial rfl
      | stepComplete newTokens =>
          obtain ⟨batch, result, _, stepped, rfl⟩ := step_step_complete moved
          exact .call ih (.stepComplete batch newTokens) trivial (by simp [apiStep, stepped])

/-- Every batch that `schedule` returns in a reachable state is well formed. -/
theorem scheduled_batch_well_formed (limits : PositiveLimits cfg) {st : Scheduler cfg}
    (reached : ApiReached clock st) :
    WellFormedBatch cfg (st.schedule clock).1 (st.schedule clock).2 := by
  have sound := queues_sound_reached limits reached
  exact schedule_well_formed limits clock st sound.distinct sound.bounded

/-- Two requests of three tokens in a pool of four pages: the first is preempted
and the batch holds a token of the second. -/
theorem scheduled_batch_well_formed_after_preemption :
    let st := (runCalls (apiStep tickingClock) (fun _ _ => True)
      (Scheduler.create { kvPageSizeTokens := 1, maxPagesTotal := 4 })
      [.addRequest [7] 3 (-1), .addRequest [5] 3 (-1), .schedule,
        .stepComplete ⟨[⟨0, 1, true, 0⟩, ⟨1, 1, true, 0⟩], 2, 2, 0, 0⟩ [], .schedule,
        .stepComplete ⟨[⟨0, 1, false, 0⟩, ⟨1, 1, false, 0⟩], 2, 0, 2, 0⟩ [3, 4]]).get (by decide)
    WellFormedBatch _ (st.schedule tickingClock).1 (st.schedule tickingClock).2 := by
  intro st
  exact scheduled_batch_well_formed (by constructor <;> decide)
    (reaches_of_run_get _ (by decide))

/-- With pages of 2147483647 tokens both demands of a prompt of two tokens wrap
and round to no page at all. -/
theorem wrapped_demand_gets_no_page :
    ¬∀ (cfg : SchedulerConfig) (clock : Clock) (st : Scheduler cfg), PositiveLimits cfg →
      ApiReached clock st → ∀ e ∈ (st.schedule clock).2.entries,
        pagesOfTokens cfg (((st.schedule clock).1.seqs e.seq).promptTokens.length +
          ((st.schedule clock).1.seqs e.seq).outputTokens.length + e.nTokens) ≤
            ((st.schedule clock).1.seqs e.seq).kvPageIds.length := by
  intro always
  exact absurd (always { kvPageSizeTokens := 2147483647, maxPagesTotal := 4 } tickingClock _
    (by constructor <;> decide)
    (reaches_of_run_get [.addRequest [7, 8] 1 (-1)] (by decide)) ⟨0, 2, true, 0⟩ (by decide +kernel))
    (by decide +kernel)

end AmpFormal.SchedulerBatches
