import AmpFormal.SchedulerLifecycle
import AmpFormal.SchedulerPages

/-!
# Aborts between `schedule` and `step_complete`

A batch names its sequences by raw pointers. An abort in between may destroy a
sequence of the batch, and it returns pages to the pool. The batch stays valid
exactly under aborts that name no sequence of the batch and no page its decode
entries will touch.
-/

namespace AmpFormal.SchedulerAborts

open AmpFormal.PagePoolFastModel AmpFormal.PagePoolFastModel.PagePoolFast
open AmpFormal.PagePoolFastSequential AmpFormal.SchedulerModel AmpFormal.SchedulerModel.Scheduler
open AmpFormal.ScheduleEffects AmpFormal.StepCompleteEffects
open AmpFormal.TransitionRuns AmpFormal.SchedulerRuns
open AmpFormal.SchedulerLifecycle AmpFormal.SchedulerPages

set_option autoImplicit false

/-! ## The property -/

section Log

variable {pages : Nat}

def releasedAfter (released : List (Fin pages)) : Event pages → List (Fin pages)
  | .scheduled _ _ => []
  | .aborted _ given => released ++ given
  | _ => released

/-- The pages that aborts released since the last `schedule`; none of them has
been handed out again. -/
def releasedSince (log : List (Event pages)) : List (Fin pages) := log.foldl releasedAfter []

theorem released_since_append (log : List (Event pages)) (event : Event pages) :
    releasedSince (log ++ [event]) = releasedAfter (releasedSince log) event := by
  unfold releasedSince
  rw [List.foldl_append]
  rfl

end Log

variable {cfg : SchedulerConfig} {clock : Clock}

def touchedPages (st : Scheduler cfg) (batch : ScheduledBatch) : List (Fin cfg.pages) :=
  (batch.entries.filter fun e => !e.isPrefill).flatMap fun e => pagesOf st e.seq

/-- The pending batch names running sequences only and will touch no page that
an abort released. -/
structure Intact (d : Driver cfg) : Prop where
  owned : ∀ batch, d.pending = some batch → ∀ e ∈ batch.entries, e.seq ∈ d.sched.running
  untouched : ∀ batch, d.pending = some batch →
    (touchedPages d.sched batch).Disjoint (releasedSince d.log)

structure BatchesValid (clock : Clock) (d : Driver cfg) : Prop extends Intact d where
  updates : ∀ newTokens after, d.step clock (.stepComplete newTokens) = some after →
    ∀ id, id ∉ d.sched.running → after.sched.seqs id = d.sched.seqs id
  silent : (completedIds d.log).Disjoint (abortedIds d.log)

/-- An abort that finds its sequence neither destroys a sequence of the pending
batch nor releases a page that the batch will touch. -/
def AbortsClear (d : Driver cfg) : Call → Prop
  | .abortRequest seqId => queued d.sched seqId → ∀ batch ∈ d.pending,
      seqId ∉ batch.entries.map BatchEntry.seq ∧
        ∀ page ∈ pagesOf d.sched seqId, page ∉ touchedPages d.sched batch
  | _ => True

/-! ## Requests that are gone -/

/-- The ids that were completed or aborted are old and in no queue, and no id is
both. -/
structure Departed (d : Driver cfg) : Prop where
  old : ∀ id ∈ completedIds d.log ++ abortedIds d.log, id < d.sched.nextId
  unqueued : ∀ id ∈ completedIds d.log ++ abortedIds d.log,
    id ∉ d.sched.waiting ++ d.sched.running
  apart : (completedIds d.log).Disjoint (abortedIds d.log)

theorem completed_ids_append {pages : Nat} (log : List (Event pages)) (event : Event pages) :
    completedIds (log ++ [event]) = completedIds log ++ completedIds [event] := by
  unfold completedIds
  rw [completions_append, List.map_append]

theorem departed_frame {d after : Driver cfg} (departed : Departed d)
    (completed : completedIds after.log = completedIds d.log)
    (aborted : abortedIds after.log = abortedIds d.log)
    (nextId : d.sched.nextId ≤ after.sched.nextId)
    (queues : ∀ id ∈ after.sched.waiting ++ after.sched.running,
      id ∈ d.sched.waiting ++ d.sched.running ∨ d.sched.nextId ≤ id) : Departed after := by
  refine ⟨?_, ?_, ?_⟩
  · rw [completed, aborted]
    intro id gone
    exact (departed.old id gone).trans_le nextId
  · rw [completed, aborted]
    intro id gone later
    rcases queues id later with before | new
    · exact departed.unqueued id gone before
    · exact absurd (departed.old id gone) (not_lt.mpr new)
  · rw [completed, aborted]
    exact departed.apart

theorem departed_abort {d after : Driver cfg} (consistent : Consistent d) (departed : Departed d)
    {seqId : Int} (moved : d.step clock (.abortRequest seqId) = some after) : Departed after := by
  rcases step_abort_request consistent.unswapped moved with ⟨sched, _, logged⟩
  have effect := (abort_request_effect d.sched seqId consistent.unswapped consistent.distinct).1
  rw [← sched] at effect
  rcases logged with ⟨_, log⟩ | ⟨found, log⟩
  · apply departed_frame departed (by rw [log]) (by rw [log]) effect.nextId.ge
    intro id later
    exact Or.inl (abort_effect_queued effect later)
  · have completed : completedIds after.log = completedIds d.log := by
      rw [log, completed_ids_append]
      exact List.append_nil _
    have aborted : abortedIds after.log = abortedIds d.log ++ [seqId] := by
      rw [log, aborted_ids_append]
      rfl
    refine ⟨?_, ?_, ?_⟩
    · rw [completed, aborted, effect.nextId, ← List.append_assoc]
      intro id gone
      rcases List.mem_append.mp gone with before | new
      · exact departed.old id before
      · rw [List.mem_singleton.mp new]
        exact consistent.fresh seqId found
    · rw [completed, aborted, ← List.append_assoc]
      intro id gone later
      rcases List.mem_append.mp gone with before | new
      · exact departed.unqueued id before (abort_effect_queued effect later)
      · exact abort_effect_left effect consistent.distinct later (List.mem_singleton.mp new)
    · rw [completed, aborted, List.disjoint_append_right]
      refine ⟨departed.apart, ?_⟩
      rw [List.disjoint_singleton]
      intro member
      exact departed.unqueued seqId (List.mem_append_left _ member) found

theorem departed_step_complete {d after : Driver cfg} (consistent : Consistent d)
    (departed : Departed d) {newTokens : List Int}
    (moved : d.step clock (.stepComplete newTokens) = some after) : Departed after := by
  have later := consistent_step consistent moved
  rcases step_step_complete moved with ⟨batch, ⟨sched, callbacks⟩, pending, stepped, rfl⟩
  have effect := step_complete_effect (consistent.pending batch pending).distinct stepped
  generalize Driver.changedState d.sched sched .prefill .decode = entered at later ⊢
  have completed : completedIds (d.log ++ [.stepped batch newTokens callbacks entered]) =
      completedIds d.log ++ callbacks.map Prod.fst := by
    rw [completed_ids_append]
    simp [completedIds, completions]
  have aborted : abortedIds (d.log ++ [.stepped batch newTokens callbacks entered]) =
      abortedIds d.log := by
    rw [aborted_ids_append]
    exact List.append_nil _
  have called : ∀ id ∈ callbacks.map Prod.fst, id ∈ d.sched.running ∧
      Finishing d.sched batch newTokens id := by
    intro id member
    rcases List.mem_map.mp member with ⟨⟨_, toks⟩, given, rfl⟩
    rcases (step_callback_iff effect _ toks).mp given with ⟨tok, assigned, finished, _⟩
    rcases assigned_seq_mem assigned with ⟨e, inBatch, _, same⟩
    exact ⟨same ▸ effect.owned e inBatch, _, assigned, rfl, finished⟩
  refine ⟨?_, ?_, ?_⟩
  · rw [completed, aborted]
    change ∀ id ∈ _, id < sched.nextId
    rw [effect.nextId]
    intro id gone
    simp only [List.mem_append] at gone
    rcases gone with (before | new) | before
    · exact departed.old id (List.mem_append_left _ before)
    · exact consistent.fresh id (List.mem_append_right _ (called id new).1)
    · exact departed.old id (List.mem_append_right _ before)
  · rw [completed, aborted]
    change ∀ id ∈ _, id ∉ sched.waiting ++ sched.running
    intro id gone inQueues
    have stayed : queued sched id := List.mem_append_left _ inQueues
    have before : queued d.sched id := step_queued effect stayed
    unfold queued at before
    rw [consistent.unswapped, List.append_nil] at before
    simp only [List.mem_append] at gone
    rcases gone with (known | new) | known
    · exact departed.unqueued id (List.mem_append_left _ known) before
    · exact finishing_leaves consistent effect (called id new).2 stayed
    · exact departed.unqueued id (List.mem_append_right _ known) before
  · rw [completed, aborted, List.disjoint_append_left]
    refine ⟨departed.apart, ?_⟩
    intro id new known
    exact departed.unqueued id (List.mem_append_right _ known)
      (List.mem_append_right _ (called id new).1)

theorem departed_reached {allowed : Driver cfg → Call → Prop} {d : Driver cfg}
    (reached : Driver.Reached clock allowed d) : Departed d := by
  apply reaches_invariant (motive := Departed) _ _ reached
  · refine ⟨?_, ?_, ?_⟩
    all_goals simp [Driver.create, completedIds, completions, abortedIds]
  intro before call after prior departed _ moved
  have consistent := consistent_reached prior
  cases call with
  | addRequest promptTokens maxNewTokens eosTokenId =>
      rcases step_add_request moved with ⟨added, event, effect⟩
      have quiet : completedIds [event] = [] ∧ abortedIds [event] = [] :=
        add_effect_event effect
          (motive := fun event => completedIds [event] = [] ∧ abortedIds [event] = []) ⟨rfl, rfl⟩
          fun _ _ _ _ => ⟨rfl, rfl⟩
      apply departed_frame departed
      · rw [effect.log, completed_ids_append, quiet.1, List.append_nil]
      · rw [effect.log, aborted_ids_append, quiet.2, List.append_nil]
      · rw [effect.nextId]
        omega
      · intro id later
        rcases add_effect_queued effect later with old | ⟨new, _⟩
        · exact Or.inl old
        · exact Or.inr new.ge
  | abortRequest seqId => exact departed_abort consistent departed moved
  | schedule =>
      rcases step_schedule moved with ⟨_, rfl⟩
      rcases schedule_effect clock before.sched consistent.distinct with
        ⟨admitted, preempted, effect⟩
      apply departed_frame departed
      · rw [completed_ids_append]
        exact List.append_nil _
      · rw [aborted_ids_append]
        exact List.append_nil _
      · exact effect.nextId.ge
      · intro id later
        exact Or.inl ((schedule_queues_perm effect).mem_iff.mpr later)
  | stepComplete newTokens => exact departed_step_complete consistent departed moved

/-! ## The batch across one call -/

theorem mem_touched_iff (st : Scheduler cfg) (batch : ScheduledBatch) (page : Fin cfg.pages) :
    page ∈ touchedPages st batch ↔
      ∃ e ∈ batch.entries, e.isPrefill = false ∧ page ∈ pagesOf st e.seq := by
  unfold touchedPages
  simp [and_assoc]

theorem touch_entries_untouched (st : Scheduler cfg) (entries : List BatchEntry) (tick : Nat)
    (pool : PagePoolFast cfg.pages 16) {page : Fin cfg.pages}
    (spared : ∀ e ∈ entries, e.isPrefill = false → page ∉ pagesOf st e.seq) :
    (touchEntries clock st.seqs entries tick pool).touchUs page = pool.touchUs page := by
  induction entries generalizing tick pool with
  | nil => rfl
  | cons e rest ih =>
      have tail := fun tick pool => ih tick pool fun other member => spared other (by simp [member])
      unfold touchEntries
      cases kind : e.isPrefill with
      | true => exact tail tick pool
      | false =>
          rw [if_neg Bool.false_ne_true, tail, touch_stamps, if_neg]
          exact spared e (by simp) kind

theorem intact_idle {d : Driver cfg} (idle : d.pending = none) : Intact d := by
  constructor
  · intro batch pending
    rw [idle] at pending
    cases pending
  · intro batch pending
    rw [idle] at pending
    cases pending

theorem intact_frame {d after : Driver cfg} (intact : Intact d)
    (pending : after.pending = d.pending)
    (running : ∀ batch, d.pending = some batch → ∀ e ∈ batch.entries, e.seq ∈ after.sched.running)
    (pages : ∀ batch, d.pending = some batch → ∀ e ∈ batch.entries,
      pagesOf after.sched e.seq = pagesOf d.sched e.seq)
    (released : ∀ batch, d.pending = some batch → ∀ page ∈ releasedSince after.log,
      page ∈ releasedSince d.log ∨ page ∉ touchedPages d.sched batch) : Intact after := by
  refine ⟨fun batch same => running batch (pending ▸ same), ?_⟩
  intro batch same page touched given
  rw [pending] at same
  have before : page ∈ touchedPages d.sched batch := by
    rw [mem_touched_iff] at touched ⊢
    rcases touched with ⟨e, inBatch, kind, inside⟩
    rw [pages batch same e inBatch] at inside
    exact ⟨e, inBatch, kind, inside⟩
  rcases released batch same page given with old | spared
  · exact intact.untouched batch same before old
  · exact spared before

theorem intact_add_request {d after : Driver cfg} (consistent : Consistent d) (intact : Intact d)
    {promptTokens : List Int} {maxNewTokens eosTokenId : Int}
    (moved : d.step clock (.addRequest promptTokens maxNewTokens eosTokenId) = some after) :
    Intact after := by
  rcases step_add_request moved with ⟨added, event, effect⟩
  apply intact_frame intact effect.pending
  · intro batch pending e inBatch
    rw [effect.running]
    exact intact.owned batch pending e inBatch
  · intro batch pending e inBatch
    have running := intact.owned batch pending e inBatch
    unfold pagesOf
    rw [add_effect_old_seq consistent effect (List.mem_append_right _ running)]
  · intro _ _ page given
    left
    have kept := add_effect_event effect
      (motive := fun event => releasedAfter (releasedSince d.log) event = releasedSince d.log) rfl
      fun _ _ _ _ => rfl
    rwa [effect.log, released_since_append, kept] at given

/-- An abort leaves the batch intact exactly when it is clear of it. -/
theorem intact_abort_iff {d after : Driver cfg} (consistent : Consistent d) (intact : Intact d)
    {seqId : Int} (moved : d.step clock (.abortRequest seqId) = some after) :
    Intact after ↔ AbortsClear d (.abortRequest seqId) := by
  rcases step_abort_request consistent.unswapped moved with ⟨sched, samePending, logged⟩
  have effect := (abort_request_effect d.sched seqId consistent.unswapped consistent.distinct).1
  rw [← sched] at effect
  have found_iff : queued d.sched seqId ↔ seqId ∈ d.sched.waiting ++ d.sched.running := by
    unfold queued
    rw [consistent.unswapped, List.append_nil]
  have samePages : ∀ id, id ≠ seqId → pagesOf after.sched id = pagesOf d.sched id := by
    intro id different
    unfold pagesOf
    rw [effect.other_seq id different]
  constructor
  · intro still member batch pending
    have later : after.pending = some batch := samePending.trans pending
    rcases logged with ⟨absent, _⟩ | ⟨_, log⟩
    · exact absurd (found_iff.mp member) absent
    have unnamed : seqId ∉ batch.entries.map BatchEntry.seq := by
      intro named
      rcases List.mem_map.mp named with ⟨e, inBatch, same⟩
      have running := still.owned batch later e inBatch
      exact abort_effect_left effect consistent.distinct (List.mem_append_right _ running) same
    refine ⟨unnamed, ?_⟩
    intro page inside touched
    rcases (mem_touched_iff _ _ _).mp touched with ⟨e, inBatch, kind, held⟩
    have different : e.seq ≠ seqId := by
      intro same
      exact unnamed (same ▸ List.mem_map_of_mem inBatch)
    apply still.untouched batch later (a := page)
    · rw [mem_touched_iff]
      exact ⟨e, inBatch, kind, samePages e.seq different ▸ held⟩
    · rw [log, released_since_append]
      exact List.mem_append_right _ inside
  · intro clear
    have different : ∀ batch, d.pending = some batch → ∀ e ∈ batch.entries, e.seq ≠ seqId := by
      intro batch pending e inBatch same
      have inQueues := List.mem_append_right d.sched.waiting (intact.owned batch pending e inBatch)
      have named := List.mem_map_of_mem (f := BatchEntry.seq) inBatch
      rw [same] at inQueues named
      exact (clear (found_iff.mpr inQueues) batch pending).1 named
    apply intact_frame intact samePending
    · intro batch pending e inBatch
      rw [effect.running]
      exact (List.mem_erase_of_ne (different batch pending e inBatch)).mpr
        (intact.owned batch pending e inBatch)
    · intro batch pending e inBatch
      exact samePages e.seq (different batch pending e inBatch)
    · intro batch pending page given
      rcases logged with ⟨_, log⟩ | ⟨found, log⟩
      · rw [log] at given
        exact Or.inl given
      · rw [log, released_since_append] at given
        rcases List.mem_append.mp given with old | new
        · exact Or.inl old
        · exact Or.inr ((clear (found_iff.mpr found) batch pending).2 page new)

theorem intact_schedule {d after : Driver cfg} (consistent : Consistent d)
    (moved : d.step clock .schedule = some after) : Intact after := by
  rcases step_schedule moved with ⟨_, rfl⟩
  rcases schedule_effect clock d.sched consistent.distinct with ⟨admitted, preempted, effect⟩
  constructor
  · intro batch pending e inBatch
    cases pending
    cases kind : e.isPrefill with
    | true => exact (effect.entry_prefill e inBatch kind).1
    | false => exact (effect.entry_decode e inBatch kind).1
  · intro batch _
    rw [released_since_append]
    exact List.disjoint_nil_right _

theorem intact_step_complete {d after : Driver cfg} {newTokens : List Int}
    (moved : d.step clock (.stepComplete newTokens) = some after) : Intact after := by
  rcases step_step_complete moved with ⟨_, _, _, _, rfl⟩
  exact intact_idle rfl

theorem intact_step_iff {d after : Driver cfg} (consistent : Consistent d) (intact : Intact d)
    {call : Call} (moved : d.step clock call = some after) :
    Intact after ↔ AbortsClear d call := by
  cases call with
  | addRequest promptTokens maxNewTokens eosTokenId =>
      exact iff_of_true (intact_add_request consistent intact moved) trivial
  | abortRequest seqId => exact intact_abort_iff consistent intact moved
  | schedule => exact iff_of_true (intact_schedule consistent moved) trivial
  | stepComplete newTokens => exact iff_of_true (intact_step_complete moved) trivial

/-! ## Runs -/

theorem intact_reached {d : Driver cfg} (reached : Driver.Reached clock AbortsClear d) :
    Intact d := by
  apply reaches_invariant (motive := Intact) _ _ reached
  · exact intact_idle rfl
  · intro before call after prior intact clear moved
    exact (intact_step_iff (consistent_reached prior) intact moved).mpr clear

theorem batches_valid_iff_intact {allowed : Driver cfg → Call → Prop} {d : Driver cfg}
    (reached : Driver.Reached clock allowed d) : BatchesValid clock d ↔ Intact d := by
  constructor
  · intro valid
    exact valid.toIntact
  · intro intact
    refine ⟨intact, ?_, (departed_reached reached).apart⟩
    intro newTokens after moved id stranger
    have consistent := consistent_reached reached
    rcases step_step_complete moved with ⟨batch, ⟨sched, callbacks⟩, pending, stepped, rfl⟩
    have effect := step_complete_effect (consistent.pending batch pending).distinct stepped
    apply effect.other_seq id
    intro named
    rcases List.mem_map.mp named with ⟨e, inBatch, rfl⟩
    exact stranger (effect.owned e inBatch)

/-- In every run whose aborts are clear of the pending batch the batches are
valid, and a further call keeps them so exactly when it is clear as well. -/
theorem batches_valid_iff_aborts_clear {d : Driver cfg}
    (reached : Driver.Reached clock AbortsClear d) :
    BatchesValid clock d ∧ ∀ call after, d.step clock call = some after →
      (BatchesValid clock after ↔ AbortsClear d call) := by
  have intact := intact_reached reached
  refine ⟨(batches_valid_iff_intact reached).mpr intact, ?_⟩
  intro call after moved
  have anyReached : Driver.Reached clock (fun _ _ => True) after :=
    .call (reaches_weaken (fun _ _ _ => trivial) reached) call trivial moved
  rw [batches_valid_iff_intact anyReached]
  exact intact_step_iff (consistent_reached reached) intact moved

instance abortsClearDecidable (d : Driver cfg) : ∀ call, Decidable (AbortsClear d call)
  | .addRequest _ _ _ => inferInstanceAs (Decidable True)
  | .abortRequest seqId =>
      inferInstanceAs (Decidable (queued d.sched seqId → ∀ batch ∈ d.pending, _))
  | .schedule => inferInstanceAs (Decidable True)
  | .stepComplete _ => inferInstanceAs (Decidable True)

/-- One request is aborted while the other is in the pending batch. -/
theorem batches_valid_iff_aborts_clear_two_requests :
    let d := (runCalls (Driver.step tickingClock) AbortsClear
      (Driver.create { kvPageSizeTokens := 2, maxPagesTotal := 8, maxSeqsRunning := 1 })
      [.addRequest [7, 8, 9] 3 (-1), .addRequest [5] 3 (-1), .schedule]).get (by decide)
    BatchesValid tickingClock d ∧
      (BatchesValid tickingClock ((d.step tickingClock (.abortRequest 1)).get (by decide)) ↔
        AbortsClear d (.abortRequest 1)) := by
  intro d
  have valid := batches_valid_iff_aborts_clear (d := d) (reaches_of_run_get _ (by decide))
  exact ⟨valid.1, valid.2 (.abortRequest 1) _ (Option.some_get _).symm⟩

/-- The only request is aborted between `schedule` and `step_complete`. -/
theorem abort_destroys_batch :
    ¬∀ (cfg : SchedulerConfig) (clock : Clock) (d : Driver cfg),
      Driver.Reached clock (fun _ _ => True) d → BatchesValid clock d := by
  intro always
  have valid := always { kvPageSizeTokens := 2, maxPagesTotal := 4 } tickingClock _
    (reaches_of_run_get [.addRequest [7] 3 (-1), .schedule, .abortRequest 0] (by decide))
  have running := valid.owned _ (Option.some_get (by decide)).symm
    { seq := 0, nTokens := 1, isPrefill := true, prefillStart := 0 } (by decide)
  exact absurd running (by decide)

/-- With fresh pages it is enough that no sequence of the pending batch is
aborted: the pages of different sequences are different. -/
theorem batches_valid_while_fresh {d : Driver cfg}
    (reached : Driver.Reached clock (fun d call => d.SafeAbort call ∧ PagesStayFresh clock d call)
      d) : BatchesValid clock d := by
  rw [batches_valid_iff_intact reached]
  apply reaches_invariant (motive := Intact) (intact_idle rfl) _ reached
  intro before call after prior intact meets moved
  rw [intact_step_iff (consistent_reached prior) intact moved]
  cases call with
  | abortRequest seqId =>
      intro member batch pending
      have owned := pages_owned_reached (fun _ _ meets => meets.2) prior
      have unnamed : seqId ∉ batch.entries.map BatchEntry.seq :=
        fun named => meets.1 ⟨batch, pending, named⟩
      refine ⟨unnamed, ?_⟩
      intro page inside touched
      rcases (mem_touched_iff _ _ _).mp touched with ⟨e, inBatch, _, held⟩
      have other : queued before.sched e.seq := by
        unfold queued
        simp [intact.owned batch pending e inBatch]
      apply owned.ledger.disjoint seqId e.seq member other _ inside held
      intro same
      exact unnamed (same ▸ List.mem_map_of_mem inBatch)
  | addRequest promptTokens maxNewTokens eosTokenId => trivial
  | schedule => trivial
  | stepComplete newTokens => trivial

theorem released_page_not_stamped {d after : Driver cfg} (consistent : Consistent d)
    (intact : Intact d) {newTokens : List Int}
    (moved : d.step clock (.stepComplete newTokens) = some after) {page : Fin cfg.pages}
    (released : page ∈ releasedSince d.log) :
    after.sched.kvPool.touchUs page = d.sched.kvPool.touchUs page ∨
      after.sched.kvPool.touchUs page = 0 := by
  rcases step_step_complete moved with ⟨batch, ⟨sched, callbacks⟩, pending, stepped, rfl⟩
  change sched.kvPool.touchUs page = _ ∨ sched.kvPool.touchUs page = 0
  rw [(step_complete_pool (consistent.pending batch pending).distinct stepped).1, leak_scan_touch]
  split
  · exact Or.inr rfl
  · left
    apply touch_entries_untouched
    intro e inBatch kind inside
    exact intact.untouched batch pending ((mem_touched_iff _ _ _).mpr ⟨e, inBatch, kind, inside⟩)
      released

end AmpFormal.SchedulerAborts
