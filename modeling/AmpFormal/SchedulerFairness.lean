import AmpFormal.SchedulerBatches

/-!
# First come, first served

Ids count the requests, so a smaller id arrived earlier. The two queues together stay in
the order of arrival over any calls, and every batch follows it: a running request that
misses a batch lacks pages, or its turn came after the token budget was spent. A request
that was preempted stays in `running_` without a turn.
-/

namespace AmpFormal.SchedulerFairness

open AmpFormal.SchedulerModel AmpFormal.SchedulerModel.Scheduler AmpFormal.ScheduleEffects
open AmpFormal.TransitionRuns AmpFormal.SchedulerRuns AmpFormal.SchedulerProgress
open AmpFormal.SchedulerBatches

set_option autoImplicit false

variable {cfg : SchedulerConfig} {clock : Clock}

/-! ## The queues -/

def Ordered (st : Scheduler cfg) : Prop := (st.running ++ st.waiting).Pairwise (· < ·)

theorem ordered_shrink {before after : Scheduler cfg} (ordered : Ordered before)
    (running : after.running.Sublist before.running)
    (waiting : after.waiting.Sublist before.waiting) : Ordered after :=
  List.Pairwise.sublist (running.append waiting) ordered

theorem ordered_add_request {st : Scheduler cfg} (sound : QueuesSound st) (ordered : Ordered st)
    (promptTokens : List Int) (maxNewTokens eosTokenId : Int) :
    Ordered (st.addRequest promptTokens maxNewTokens eosTokenId).1 := by
  unfold addRequest
  dsimp only
  split
  case isTrue => exact ordered
  case isFalse =>
    change (st.running ++ (st.waiting ++ [st.nextId])).Pairwise (· < ·)
    rw [← List.append_assoc, List.pairwise_append]
    refine ⟨ordered, List.pairwise_singleton _ _, ?_⟩
    intro id queued other new
    rw [List.mem_singleton.mp new]
    apply sound.fresh id
    rw [List.mem_append] at queued ⊢
    exact queued.symm

theorem ordered_schedule {before after : Scheduler cfg} {batch : ScheduledBatch}
    {admitted preempted : List Int}
    (effect : ScheduleEffect before after batch admitted preempted) (ordered : Ordered before) :
    Ordered after := by
  unfold Ordered at ordered ⊢
  rw [effect.waiting, ← List.append_assoc, ← effect.running] at ordered
  exact ordered

theorem ordered_step_complete {st after : Scheduler cfg} (ordered : Ordered st)
    {batch : ScheduledBatch} {newTokens : List Int}
    (moved : (st.stepComplete clock batch newTokens).map Prod.fst = some after) :
    Ordered after := by
  unfold stepComplete at moved
  split at moved
  case isFalse => cases moved
  case isTrue =>
    simp only [Option.map_some, Option.some.injEq] at moved
    obtain ⟨waiting, running, _⟩ :=
      complete_entries_queues clock newTokens batch.entries { sched := st }
    apply ordered_shrink ordered
    · rw [← moved, ← running]
      exact List.filter_sublist
    · rw [← moved]
      exact (List.Sublist.refl _).trans (by rw [← waiting]; exact List.Sublist.refl _)

theorem ordered_reached (limits : PositiveLimits cfg) {st : Scheduler cfg}
    (reached : ApiReached clock st) : Ordered st := by
  have start : Ordered (Scheduler.create cfg) := List.Pairwise.nil
  apply reaches_invariant start _ reached
  intro before call after prior ordered _ moved
  have sound := queues_sound_reached limits prior
  cases call with
  | addRequest promptTokens maxNewTokens eosTokenId =>
      cases moved
      exact ordered_add_request sound ordered promptTokens maxNewTokens eosTokenId
  | abortRequest seqId =>
      cases moved
      have effect := (abort_request_effect before seqId sound.unswapped sound.distinct).1
      apply ordered_shrink ordered
      · rw [effect.running]
        exact List.erase_sublist
      · rw [effect.waiting]
        exact List.erase_sublist
  | schedule =>
      cases moved
      obtain ⟨admitted, preempted, effect⟩ := schedule_effect clock before sound.distinct
      exact ordered_schedule effect ordered
  | stepComplete batch newTokens => exact ordered_step_complete ordered moved

/-! ## Turns in the prefill loop -/

/-- The token budget when the turn of `id` comes, the chunks of earlier requests spent. -/
def budgetAt (cfg : SchedulerConfig) (entries : List BatchEntry) (id : Int) : Int :=
  cfg.maxBatchTokens -
    ((entries.filter fun e => e.isPrefill && decide (e.seq < id)).map BatchEntry.nTokens).sum

def chunkAt (st : Scheduler cfg) (entries : List BatchEntry) (id : Int) : Int :=
  min (min (st.seqs id).remainingPrefill cfg.maxPrefillTokensPerStep) (budgetAt cfg entries id)

def Short (st : Scheduler cfg) (entries : List BatchEntry) (id : Int) : Prop :=
  0 < chunkAt st entries id ∧
    ((st.seqs id).kvPageIds.length : Int) <
      pagesNeededFor cfg (st.seqs id) (chunkAt st entries id)

def Served (st : Scheduler cfg) (entries : List BatchEntry) (id : Int) : Prop :=
  (∃ e ∈ entries, e.seq = id) ∨ (st.seqs id).remainingPrefill ≤ 0 ∨ Short st entries id

theorem budget_at_append {entries issued : List BatchEntry} {id : Int}
    (later : ∀ e ∈ issued, e.isPrefill = true → id ≤ e.seq) :
    budgetAt cfg (entries ++ issued) id = budgetAt cfg entries id := by
  have none_counts : issued.filter (fun e => e.isPrefill && decide (e.seq < id)) = [] := by
    rw [List.filter_eq_nil_iff]
    intro e member counted
    rw [Bool.and_eq_true, decide_eq_true_iff] at counted
    exact absurd counted.2 (later e member counted.1).not_gt
  unfold budgetAt
  rw [List.filter_append, none_counts, List.append_nil]

/-- While the batch holds only the chunks of earlier requests, the local budget is
the budget of the turn. -/
theorem budget_at_turn {loop : BatchLoop cfg} (sound : BatchSound loop) {id : Int}
    (earlier : ∀ e ∈ loop.batch.entries, e.isPrefill = true ∧ e.seq < id) :
    budgetAt cfg loop.batch.entries id = loop.tokensBudget := by
  have all_count : loop.batch.entries.filter (fun e => e.isPrefill && decide (e.seq < id)) =
      loop.batch.entries := by
    rw [List.filter_eq_self]
    intro e member
    rw [Bool.and_eq_true, decide_eq_true_iff]
    exact earlier e member
  have total := sound.total
  have spent := sound.spent
  unfold budgetAt
  rw [all_count]
  omega

theorem served_later {before after : Scheduler cfg} {entries issued : List BatchEntry} {id : Int}
    (served : Served before entries id) (same : after.seqs id = before.seqs id)
    (later : ∀ e ∈ issued, e.isPrefill = true → id ≤ e.seq) :
    Served after (entries ++ issued) id := by
  unfold Served Short chunkAt at served ⊢
  rw [same, budget_at_append later]
  rcases served with ⟨e, member, here⟩ | others
  · exact Or.inl ⟨e, List.mem_append_left _ member, here⟩
  · exact Or.inr others

theorem short_of_failed {loop : BatchLoop cfg} {id : Int} (positive : 0 < loop.chunkFor id)
    (turn : budgetAt cfg loop.batch.entries id = loop.tokensBudget)
    (failed : (loop.tryAlloc clock id (loop.chunkFor id)).2 = false) :
    Short (loop.tryAlloc clock id (loop.chunkFor id)).1.sched loop.batch.entries id := by
  have missing : 0 < extraPages loop.sched id (loop.chunkFor id) := by
    rcases try_alloc_cases clock loop.sched id (loop.chunkFor id) with
      ⟨_, result⟩ | ⟨missing, _⟩ | ⟨missing, _⟩
    · change (loop.sched.tryAllocPages clock id (loop.chunkFor id)).2 = false at failed
      rw [result] at failed
      cases failed
    · exact missing
    · exact missing
  have same : (loop.tryAlloc clock id (loop.chunkFor id)).1.sched.seqs = loop.sched.seqs :=
    try_alloc_failed_seqs loop.sched id (loop.chunkFor id) failed
  have chunk : chunkAt (loop.tryAlloc clock id (loop.chunkFor id)).1.sched loop.batch.entries id =
      loop.chunkFor id := by
    unfold chunkAt
    rw [same, turn]
    rfl
  unfold Short
  rw [chunk, same]
  unfold extraPages at missing
  exact ⟨positive, by omega⟩

theorem emitted_served (loop : BatchLoop cfg) (id chunk : Int) :
    Served (loop.emitPrefill id chunk).sched (loop.emitPrefill id chunk).batch.entries id :=
  Or.inl ⟨_, List.mem_append_right _ (List.mem_singleton_self _), rfl⟩

/-- The sequence that is preempted for a chunk leaves that chunk what it was. -/
theorem chunk_after_preemption {loop middle : BatchLoop cfg} {id last : Int} {rest : List Int}
    (apart : id ∉ loop.decodeSeqs) (split : loop.decodeSeqs = rest ++ [last])
    (middle_eq : middle = (loop.tryAlloc clock id (loop.chunkFor id)).1.preemptLast last) :
    middle.chunkFor id = loop.chunkFor id := by
  have different : id ≠ last := by
    intro same
    apply apart
    rw [split, same]
    exact List.mem_append_right _ (List.mem_singleton_self last)
  have tried : PrefillEffect [id] loop (loop.tryAlloc clock id (loop.chunkFor id)).1 [] [] :=
    try_alloc_prefill_effect clock loop id (loop.chunkFor id)
  have preempted : PrefillEffect [id] (loop.tryAlloc clock id (loop.chunkFor id)).1 middle [last]
      [] := middle_eq ▸ preempt_last_prefill_effect [id] split
  have kept : (middle.sched.seqs id).remainingPrefill =
      (loop.sched.seqs id).remainingPrefill := by
    rcases tried.kept_seq id List.not_mem_nil with ⟨given, first⟩
    rcases preempted.kept_seq id (List.mem_singleton.not.mpr different) with ⟨held, second⟩
    rw [second, first]
    rfl
  have budget : middle.tokensBudget = loop.tokensBudget := by
    rw [middle_eq]
    rfl
  unfold BatchLoop.chunkFor
  rw [kept, budget]

theorem prefill_step_served (limits : PositiveLimits cfg) (clock : Clock) (loop : BatchLoop cfg)
    (id : Int) (apart : id ∉ loop.decodeSeqs) (unspent : 0 < loop.tokensBudget)
    (turn : budgetAt cfg loop.batch.entries id = loop.tokensBudget) :
    Served (loop.prefillStep clock id).sched (loop.prefillStep clock id).batch.entries id := by
  rcases prefill_step_cases clock loop id with
    ⟨empty, result⟩ | ⟨_, _, result⟩ | ⟨positive, failed, _, result⟩ |
      ⟨positive, failed, rest, last, middle, split, middle_eq, result⟩
  · rw [result]
    refine Or.inr (Or.inl ?_)
    have some_tokens := limits.prefillTokens
    unfold BatchLoop.chunkFor at empty
    omega
  · rw [result]
    exact emitted_served _ id _
  · rw [result]
    exact Or.inr (Or.inr (short_of_failed positive turn failed))
  · have chunk := chunk_after_preemption apart split middle_eq
    have entries : middle.batch.entries = loop.batch.entries := by
      rw [middle_eq]
      rfl
    have budget : middle.tokensBudget = loop.tokensBudget := by
      rw [middle_eq]
      rfl
    rw [result]
    split
    case isTrue => exact emitted_served _ id _
    case isFalse refused =>
      rw [Bool.not_eq_true, ← chunk] at refused
      rw [← chunk]
      exact Or.inr (Or.inr (short_of_failed (chunk ▸ positive)
        (by rw [entries, budget, turn]) refused))

theorem issued_to_cons {before middle issued last : List BatchEntry} {id : Int}
    {visited : List Int} (step : middle = before ++ issued)
    (here : (issued.map BatchEntry.seq).Sublist [id])
    (later : ∀ e ∈ last, e ∈ middle ∨ e.seq ∈ visited) :
    ∀ e ∈ last, e ∈ before ∨ e.seq ∈ id :: visited := by
  intro e member
  rcases later e member with early | late
  · rw [step] at early
    rcases List.mem_append.mp early with old | new
    · exact Or.inl old
    · have same := here.subset (List.mem_map_of_mem new)
      exact Or.inr (List.mem_cons.mpr (Or.inl (List.mem_singleton.mp same)))
  · exact Or.inr (List.mem_cons_of_mem id late)

theorem prefill_loop_served (limits : PositiveLimits cfg) (clock : Clock) (refs : List Int)
    (loop : BatchLoop cfg) (sorted : refs.Pairwise (· < ·)) (distinct : loop.decodeSeqs.Nodup)
    (apart : ∀ id ∈ refs, id ∉ loop.decodeSeqs) (sound : BatchSound loop)
    (unnamed : Unnamed loop.decodeSeqs loop)
    (earlier : ∀ e ∈ loop.batch.entries, e.isPrefill = true ∧ ∀ id ∈ refs, e.seq < id) :
    ∃ visited skipped, refs = visited ++ skipped ∧
      (skipped ≠ [] → (loop.prefillLoop clock refs).tokensBudget ≤ 0) ∧
      (∀ e ∈ (loop.prefillLoop clock refs).batch.entries,
        e ∈ loop.batch.entries ∨ e.seq ∈ visited) ∧
      ∀ id ∈ visited, Served (loop.prefillLoop clock refs).sched
        (loop.prefillLoop clock refs).batch.entries id := by
  induction refs generalizing loop with
  | nil => exact ⟨[], [], rfl, fun some_left => absurd rfl some_left, fun _ => Or.inl,
      fun _ none => nomatch none⟩
  | cons id rest ih =>
      obtain ⟨first, sortedLater⟩ := List.pairwise_cons.mp sorted
      obtain ⟨head, apart⟩ := List.forall_mem_cons.mp apart
      unfold BatchLoop.prefillLoop
      split
      case isTrue spent =>
        exact ⟨[], id :: rest, rfl, fun _ => spent, fun _ => Or.inl, fun _ none => nomatch none⟩
      case isFalse unspent =>
        obtain ⟨popped, issued, step⟩ := prefill_step_effect clock loop id head
        obtain ⟨stepSound, stepUnnamed⟩ := prefill_step_sound clock sound head unnamed
        have shorter := prefill_effect_decode_seqs step
        have apartLater : ∀ other ∈ rest, other ∉ (loop.prefillStep clock id).decodeSeqs :=
          fun other member inside => apart other member (shorter.subset inside)
        have earlierLater : ∀ e ∈ (loop.prefillStep clock id).batch.entries,
            e.isPrefill = true ∧ ∀ other ∈ rest, e.seq < other := by
          intro e member
          rw [step.entries] at member
          rcases List.mem_append.mp member with old | new
          · exact ⟨(earlier e old).1, fun other inside =>
              (earlier e old).2 other (List.mem_cons_of_mem id inside)⟩
          · have here := List.mem_singleton.mp (step.sublist.subset (List.mem_map_of_mem new))
            rw [here]
            exact ⟨(step.issued_entry e new).1, first⟩
        have turn := budget_at_turn sound fun e member =>
          ⟨(earlier e member).1, (earlier e member).2 id List.mem_cons_self⟩
        obtain ⟨visited, skipped, split, budget, issuedTo, served⟩ :=
          ih (loop.prefillStep clock id) sortedLater (distinct.sublist shorter) apartLater
            stepSound stepUnnamed earlierLater
        refine ⟨id :: visited, skipped, by rw [split]; rfl, budget, ?_, ?_⟩
        · apply issued_to_cons step.entries step.sublist issuedTo
        · rw [List.forall_mem_cons]
          refine ⟨?_, served⟩
          -- the rest of the loop neither visits the first sequence again nor preempts it
          obtain ⟨later, entries, remaining⟩ := prefill_loop_effect clock rest
            (loop.prefillStep clock id) (distinct.sublist shorter) apartLater
          rw [remaining.entries]
          apply served_later
            (prefill_step_served limits clock loop id head (not_le.mp unspent) turn)
          · apply remaining.other_seq id _ fun again => lt_irrefl id (first id again)
            intro gone
            apply head
            apply shorter.subset
            rw [remaining.decodeSeqs]
            exact List.mem_append_right _ gone
          · intro e member _
            exact (first e.seq (remaining.sublist.subset (List.mem_map_of_mem member))).le

/-! ## Turns in the decode loop -/

theorem decode_step_served (clock : Clock) (loop : BatchLoop cfg) (id : Int) :
    (∃ e ∈ (loop.decodeStep clock id).batch.entries, e.seq = id) ∨
      ((loop.decodeStep clock id).sched.seqs id).state = .waiting := by
  unfold BatchLoop.decodeStep
  dsimp only
  split
  case isTrue => exact Or.inl ⟨_, List.mem_append_right _ (List.mem_singleton_self _), rfl⟩
  case isFalse =>
    right
    rw [BatchLoop.preempt, preempt_seqs, Function.update_self]
    rfl

theorem decode_loop_served (clock : Clock) (refs : List Int) (loop : BatchLoop cfg)
    (fresh : refs.Nodup) :
    ∃ visited skipped, refs = visited ++ skipped ∧
      (skipped ≠ [] → (loop.decodeLoop clock refs).tokensBudget ≤ 0) ∧
      (∀ e ∈ (loop.decodeLoop clock refs).batch.entries,
        e ∈ loop.batch.entries ∨ e.seq ∈ visited) ∧
      ∀ id ∈ visited, (∃ e ∈ (loop.decodeLoop clock refs).batch.entries, e.seq = id) ∨
        ((loop.decodeLoop clock refs).sched.seqs id).state = .waiting := by
  induction refs generalizing loop with
  | nil => exact ⟨[], [], rfl, fun some_left => absurd rfl some_left, fun _ => Or.inl,
      fun _ none => nomatch none⟩
  | cons id rest ih =>
      obtain ⟨first, fresh⟩ := List.nodup_cons.mp fresh
      unfold BatchLoop.decodeLoop
      split
      case isTrue spent =>
        exact ⟨[], id :: rest, rfl, fun _ => spent, fun _ => Or.inl, fun _ none => nomatch none⟩
      case isFalse =>
        obtain ⟨visited, skipped, split, budget, issuedTo, served⟩ :=
          ih (loop.decodeStep clock id) fresh
        obtain ⟨preemptedNow, issuedNow, step⟩ := decode_step_effect clock loop id
        refine ⟨id :: visited, skipped, by rw [split]; rfl, budget, ?_, ?_⟩
        · apply issued_to_cons step.entries step.sublist issuedTo
        · rw [List.forall_mem_cons]
          refine ⟨?_, served⟩
          obtain ⟨preempted, entries, remaining⟩ := decode_loop_effect clock rest
            (loop.decodeStep clock id) fresh
          rw [remaining.entries, remaining.other_seq id first]
          rcases decode_step_served clock loop id with ⟨e, member, here⟩ | waiting
          · exact Or.inl ⟨e, List.mem_append_left _ member, here⟩
          · exact Or.inr waiting

/-! ## A batch -/

/-- The running requests of one state take their turns in the order of arrival. One that
misses the batch without a reason of its own comes after all that are in it, and the
token budget is spent. -/
structure ServedInOrder (before after : Scheduler cfg) (batch : ScheduledBatch) : Prop where
  arrival : Ordered after
  entries : ∃ prefills decodes, batch.entries = prefills ++ decodes ∧
    (∀ e ∈ prefills, e.isPrefill = true) ∧ (∀ e ∈ decodes, e.isPrefill = false) ∧
    (prefills.map BatchEntry.seq).Pairwise (· < ·) ∧ (decodes.map BatchEntry.seq).Pairwise (· < ·)
  admitted : ∀ e ∈ batch.entries, ∀ id ∈ before.waiting ++ before.running, id < e.seq →
    id ∈ after.running
  prefill : ∀ id ∈ after.running, (after.seqs id).state = .prefill →
    Served after batch.entries id ∨ (batch.totalTokens = cfg.maxBatchTokens ∧
      ∀ e ∈ batch.entries, e.isPrefill = true → e.seq < id)
  decode : ∀ id ∈ after.running, (after.seqs id).state = .decode →
    (∃ e ∈ batch.entries, e.seq = id) ∨ (batch.totalTokens = cfg.maxBatchTokens ∧
      ∀ e ∈ batch.entries, e.isPrefill = false → e.seq < id)

theorem later_greater {visited skipped : List Int} (ordered : (visited ++ skipped).Pairwise (· < ·))
    {id other : Int} (late : id ∈ skipped) (early : other ∈ visited) : other < id :=
  (List.pairwise_append.mp ordered).2.2 other early id late

theorem decode_loop_spent (clock : Clock) (refs : List Int) {loop : BatchLoop cfg}
    (spent : loop.tokensBudget ≤ 0) : loop.decodeLoop clock refs = loop := by
  cases refs with
  | nil => rfl
  | cons id rest =>
      unfold BatchLoop.decodeLoop
      exact if_pos spent

theorem spent_total {loop : BatchLoop cfg} (sound : BatchSound loop)
    (spent : loop.tokensBudget ≤ 0) : loop.batch.totalTokens = cfg.maxBatchTokens := by
  have split := sound.spent
  have unspent := sound.unspent
  omega

/-- The prefill loop of `schedule` on a state whose promotions are done. -/
def prefillPhase (clock : Clock) (st : Scheduler cfg) : BatchLoop cfg :=
  st.startBatch.prefillLoop clock (st.running.filter (st.inState .prefill))

def bothPhases (clock : Clock) (st : Scheduler cfg) : BatchLoop cfg :=
  (prefillPhase clock st).decodeLoop clock (prefillPhase clock st).decodeSeqs

/-- What the two loops do, from a state with distinct running sequences. -/
structure Phases (clock : Clock) (st : Scheduler cfg) (popped preempted : List Int)
    (issued later : List BatchEntry) : Prop where
  first : PrefillEffect (st.running.filter (st.inState .prefill)) st.startBatch
    (prefillPhase clock st) popped issued
  second : DecodeEffect (prefillPhase clock st).decodeSeqs (prefillPhase clock st)
    (bothPhases clock st) preempted later
  remaining : (prefillPhase clock st).decodeSeqs.Nodup
  sound : BatchSound (bothPhases clock st)

theorem phases_of (limits : PositiveLimits cfg) (clock : Clock) {st : Scheduler cfg}
    (distinct : st.running.Nodup) :
    ∃ popped preempted issued later, Phases clock st popped preempted issued later := by
  have apart := prefill_apart_decode st
  have decodeDistinct : st.startBatch.decodeSeqs.Nodup := distinct.filter _
  obtain ⟨popped, issued, first⟩ := prefill_loop_effect clock _ _ decodeDistinct apart
  obtain ⟨prefillSound, unnamed⟩ := prefill_loop_sound clock _
    (sound_start st limits.batchTokens.le) decodeDistinct apart fun _ member => nomatch member
  have remaining : (prefillPhase clock st).decodeSeqs.Nodup :=
    decodeDistinct.sublist (prefill_effect_decode_seqs first)
  obtain ⟨preempted, later, second⟩ :=
    decode_loop_effect clock _ (prefillPhase clock st) remaining
  exact ⟨popped, preempted, issued, later, first, second, remaining,
    decode_loop_sound clock _ prefillSound remaining unnamed⟩

section Phases

variable {st : Scheduler cfg} {popped preempted : List Int} {issued later : List BatchEntry}
  (phases : Phases clock st popped preempted issued later)
include phases

theorem phases_kept (distinct : st.running.Nodup) {id : Int} {state : SeqState}
    (moving : state ≠ .waiting) (same : ((bothPhases clock st).sched.seqs id).state = state) :
    id ∉ popped ∧ (st.seqs id).state = state := by
  have effect := batch_effect_of phases.first phases.second (distinct.filter _)
    (distinct.filter _) (prefill_apart_decode st)
  by_cases gone : id ∈ popped ++ preempted
  · rw [effect.preempted_seq id gone] at same
    exact absurd same.symm moving
  · rcases effect.kept_seq id gone with ⟨ids, held⟩
    rw [held] at same
    exact ⟨fun member => gone (List.mem_append_left _ member), same⟩

theorem phases_entries (ordered : st.running.Pairwise (· < ·)) :
    ∃ prefills decodes, (bothPhases clock st).batch.entries = prefills ++ decodes ∧
      (∀ e ∈ prefills, e.isPrefill = true) ∧ (∀ e ∈ decodes, e.isPrefill = false) ∧
      (prefills.map BatchEntry.seq).Pairwise (· < ·) ∧
      (decodes.map BatchEntry.seq).Pairwise (· < ·) := by
  have entries : (bothPhases clock st).batch.entries = issued ++ later := by
    rw [phases.second.entries, phases.first.entries]
    rfl
  refine ⟨issued, later, entries, fun e member => (phases.first.issued_entry e member).1,
    fun e member => (phases.second.issued_entry e member).1, ?_, ?_⟩
  · exact List.Pairwise.sublist phases.first.sublist (ordered.filter _)
  · apply List.Pairwise.sublist phases.second.sublist
    exact List.Pairwise.sublist (prefill_effect_decode_seqs phases.first) (ordered.filter _)

theorem phases_prefill (limits : PositiveLimits cfg) (ordered : st.running.Pairwise (· < ·))
    {id : Int} (running : id ∈ st.running)
    (state : ((bothPhases clock st).sched.seqs id).state = .prefill) :
    Served (bothPhases clock st).sched (bothPhases clock st).batch.entries id ∨
      ((bothPhases clock st).batch.totalTokens = cfg.maxBatchTokens ∧
        ∀ e ∈ (bothPhases clock st).batch.entries, e.isPrefill = true → e.seq < id) := by
  have distinct : st.running.Nodup := ordered.imp ne_of_lt
  have apart := prefill_apart_decode st
  have sorted : (st.running.filter (st.inState .prefill)).Pairwise (· < ·) := ordered.filter _
  obtain ⟨visited, skipped, turns, budget, issuedTo, served⟩ :=
    prefill_loop_served limits clock _ st.startBatch sorted (distinct.filter _) apart
      (sound_start st limits.batchTokens.le) (fun _ member => nomatch member)
      (fun _ member => nomatch member)
  have listed : id ∈ st.running.filter (st.inState .prefill) :=
    (mem_in_state_iff _ _ _ _).mpr ⟨running, (phases_kept phases distinct (by decide) state).2⟩
  have outside : id ∉ (prefillPhase clock st).decodeSeqs := fun inside =>
    apart id listed ((prefill_effect_decode_seqs phases.first).subset inside)
  rw [turns] at listed
  rcases List.mem_append.mp listed with early | late
  · left
    rw [phases.second.entries]
    apply served_later (served id early) (phases.second.other_seq id outside)
    intro e member kind
    rw [(phases.second.issued_entry e member).1] at kind
    cases kind
  · right
    have spent := budget (List.ne_nil_of_mem late)
    have unchanged : bothPhases clock st = prefillPhase clock st :=
      decode_loop_spent clock _ spent
    refine ⟨spent_total phases.sound (unchanged ▸ spent), ?_⟩
    intro e member _
    rw [unchanged] at member
    rcases issuedTo e member with old | visitedEarlier
    · cases old
    · exact later_greater (turns ▸ sorted) late visitedEarlier

theorem phases_decode (ordered : st.running.Pairwise (· < ·)) {id : Int}
    (running : id ∈ st.running)
    (state : ((bothPhases clock st).sched.seqs id).state = .decode) :
    (∃ e ∈ (bothPhases clock st).batch.entries, e.seq = id) ∨
      ((bothPhases clock st).batch.totalTokens = cfg.maxBatchTokens ∧
        ∀ e ∈ (bothPhases clock st).batch.entries, e.isPrefill = false → e.seq < id) := by
  obtain ⟨visited, skipped, turns, budget, issuedTo, served⟩ :=
    decode_loop_served clock _ (prefillPhase clock st) phases.remaining
  obtain ⟨untouched, before⟩ := phases_kept phases (ordered.imp ne_of_lt) (by decide) state
  have listed : id ∈ st.startBatch.decodeSeqs := (mem_in_state_iff _ _ _ _).mpr ⟨running, before⟩
  rw [phases.first.decodeSeqs] at listed
  have left := (List.mem_append.mp listed).resolve_right untouched
  rw [turns] at left
  rcases List.mem_append.mp left with early | late
  · rcases served id early with entry | waiting
    · exact Or.inl entry
    · have contradiction := state.symm.trans waiting
      cases contradiction
  · refine Or.inr ⟨spent_total phases.sound (budget (List.ne_nil_of_mem late)), ?_⟩
    intro e member kind
    rcases issuedTo e member with inPrefill | visitedEarlier
    · rw [phases.first.entries] at inPrefill
      have wrong := (phases.first.issued_entry e inPrefill).1
      rw [kind] at wrong
      cases wrong
    · have sorted : (prefillPhase clock st).decodeSeqs.Pairwise (· < ·) :=
        List.Pairwise.sublist (prefill_effect_decode_seqs phases.first) (ordered.filter _)
      exact later_greater (turns ▸ sorted) late visitedEarlier

end Phases

end AmpFormal.SchedulerFairness
