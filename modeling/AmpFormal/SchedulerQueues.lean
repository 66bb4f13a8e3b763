import AmpFormal.PageShortage
import AmpFormal.SchedulerRuns

/-!
# Queues and states

`preempt_sequence` resets a running sequence to WAITING but leaves it in
`running_`, where nothing looks for it again. Queue and state therefore agree
exactly as long as no call of `schedule` has to preempt, which the state before
the call decides: nothing decodes, or the free stacks hold all the pages the
call will ask for.
-/

namespace AmpFormal.SchedulerQueues

open AmpFormal.PagePoolFastModel AmpFormal.PagePoolFastSequential
open AmpFormal.SchedulerModel AmpFormal.SchedulerModel.Scheduler
open AmpFormal.ScheduleEffects AmpFormal.ScheduleTrace AmpFormal.StepCompleteEffects
open AmpFormal.PageDemand AmpFormal.PageShortage AmpFormal.TransitionRuns AmpFormal.SchedulerRuns

set_option autoImplicit false

variable {cfg : SchedulerConfig} {clock : Clock}

/-! ## The links of the pool -/

theorem free_pages_pool_sharded {st : Scheduler cfg} (sharded : Sharded st.kvPool) (id : Int) :
    Sharded (st.freePages id).kvPool := by
  unfold Scheduler.freePages
  split
  · exact sharded
  · exact free_pages_sharded sharded _

theorem micro_sharded {before after : Scheduler cfg} (micro : Micro clock before after)
    (sharded : Sharded before.kvPool) : Sharded after.kvPool := by
  cases micro with
  | alloc id nNewTokens queued => exact (try_alloc_pages_left clock before id nNewTokens sharded).1
  | preempt id running => exact free_pages_pool_sharded sharded id
  | promote front rest head => exact sharded

theorem touch_entries_sharded (seqs : Int → Sequence cfg.pages) (entries : List BatchEntry)
    (tick : Nat) {pool : PagePoolFast cfg.pages 16} (sharded : Sharded pool) :
    Sharded (touchEntries clock seqs entries tick pool) := by
  induction entries generalizing tick pool with
  | nil => exact sharded
  | cons e rest ih =>
      unfold touchEntries
      split
      · exact ih tick sharded
      · exact ih (tick + 1) (touch_sharded sharded _ _)

theorem sharded_step {d after : Driver cfg} (consistent : Consistent d)
    (sharded : Sharded d.sched.kvPool) {call : Call} (moved : d.step clock call = some after) :
    Sharded after.sched.kvPool := by
  cases call with
  | addRequest promptTokens maxNewTokens eosTokenId =>
      rcases step_add_request moved with ⟨added, event, effect⟩
      rw [effect.kvPool]
      exact sharded
  | abortRequest seqId =>
      rcases step_abort_request consistent.unswapped moved with ⟨sched, _, _⟩
      rcases abort_request_effect d.sched seqId consistent.unswapped consistent.distinct with
        ⟨_, ⟨_, same⟩ | ⟨_, pool, _⟩⟩
      · rw [sched, same]
        exact sharded
      · rw [sched, pool]
        exact free_pages_pool_sharded sharded seqId
  | schedule =>
      rcases step_schedule moved with ⟨_, rfl⟩
      exact trace_invariant (motive := fun st : Scheduler cfg => Sharded st.kvPool)
        (fun _ _ micro => micro_sharded micro) (schedule_trace d.sched consistent.distinct) sharded
  | stepComplete newTokens =>
      rcases step_step_complete moved with ⟨batch, ⟨sched, callbacks⟩, pending, stepped, rfl⟩
      have distinct := (consistent.pending batch pending).distinct
      change Sharded sched.kvPool
      rw [(step_complete_pool distinct stepped).1]
      exact free_pages_sharded (touch_entries_sharded _ _ _ sharded) _

theorem sharded_reached {allowed : Driver cfg → Call → Prop} {d : Driver cfg}
    (reached : Driver.Reached clock allowed d) : Sharded d.sched.kvPool :=
  reaches_invariant (motive := fun d : Driver cfg => Sharded d.sched.kvPool) create_sharded
    (fun _ _ _ prior sharded _ moved => sharded_step (consistent_reached prior) sharded moved)
    reached

/-! ## Queue and state agree -/

/-- The queue a sequence is in tells its state. -/
structure QueuesAgree (st : Scheduler cfg) : Prop where
  waiting : ∀ id ∈ st.waiting, (st.seqs id).state = .waiting ∧ (st.seqs id).kvPageIds = []
  running : ∀ id ∈ st.running, (st.seqs id).state = .prefill ∨ (st.seqs id).state = .decode
  only_waiting : ∀ id ∈ st.waiting ++ st.running ++ st.swapped,
    (st.seqs id).state = .waiting → id ∈ st.waiting

/-- Every `schedule` finds room for all it asks for. -/
def RoomyCalls (d : Driver cfg) : Call → Prop
  | .schedule => Roomy d.sched
  | _ => True

theorem queues_agree_of {st : Scheduler cfg} (unswapped : st.swapped = [])
    (waiting : ∀ id ∈ st.waiting, (st.seqs id).state = .waiting ∧ (st.seqs id).kvPageIds = [])
    (running : ∀ id ∈ st.running, (st.seqs id).state = .prefill ∨ (st.seqs id).state = .decode) :
    QueuesAgree st := by
  refine ⟨waiting, running, ?_⟩
  intro id owned state
  rw [unswapped, List.append_nil] at owned
  rcases List.mem_append.mp owned with here | elsewhere
  · exact here
  · rcases running id elsewhere with prefill | decode
    · rw [prefill] at state
      cases state
    · rw [decode] at state
      cases state

theorem agree_add_request {d after : Driver cfg} (consistent : Consistent d)
    (agree : QueuesAgree d.sched) {promptTokens : List Int} {maxNewTokens eosTokenId : Int}
    (moved : d.step clock (.addRequest promptTokens maxNewTokens eosTokenId) = some after) :
    QueuesAgree after.sched := by
  rcases step_add_request moved with ⟨added, event, effect⟩
  apply queues_agree_of (effect.swapped.trans consistent.unswapped)
  · intro id member
    rcases add_effect_waiting effect member with old | ⟨rfl, _, sequence⟩
    · rw [add_effect_old_seq consistent effect (List.mem_append_left _ old)]
      exact agree.waiting id old
    · rw [sequence]
      exact ⟨rfl, rfl⟩
  · intro id member
    rw [effect.running] at member
    rw [add_effect_old_seq consistent effect (List.mem_append_right _ member)]
    exact agree.running id member

theorem agree_abort_request {d after : Driver cfg} (consistent : Consistent d)
    (agree : QueuesAgree d.sched) {seqId : Int}
    (moved : d.step clock (.abortRequest seqId) = some after) : QueuesAgree after.sched := by
  rcases step_abort_request consistent.unswapped moved with ⟨sched, _, _⟩
  have effect := (abort_request_effect d.sched seqId consistent.unswapped consistent.distinct).1
  rw [← sched] at effect
  have whole := List.nodup_append.mp consistent.distinct
  apply queues_agree_of (effect.swapped.trans consistent.unswapped)
  · intro id member
    rw [effect.waiting, whole.1.mem_erase_iff] at member
    rw [effect.other_seq id member.1]
    exact agree.waiting id member.2
  · intro id member
    rw [effect.running, whole.2.1.mem_erase_iff] at member
    rw [effect.other_seq id member.1]
    exact agree.running id member.2

theorem agree_active {st : Scheduler cfg} (agree : QueuesAgree st) (id : Int)
    (running : id ∈ st.running) : (st.seqs id).state ≠ .waiting := by
  rcases agree.running id running with state | state
  · rw [state]
    exact SeqState.noConfusion
  · rw [state]
    exact SeqState.noConfusion

theorem agree_schedule {d after : Driver cfg} (consistent : Consistent d)
    (sharded : Sharded d.sched.kvPool) (agree : QueuesAgree d.sched) (roomy : Roomy d.sched)
    (moved : d.step clock .schedule = some after) : QueuesAgree after.sched := by
  rcases step_schedule moved with ⟨_, rfl⟩
  rcases schedule_effect clock d.sched consistent.distinct with
    ⟨admitted, preempted, effect⟩
  have kept := (nothing_reset_iff_roomy clock d.sched consistent.distinct sharded
    (agree_active agree)).mpr roomy
  have nobody : preempted = [] := by
    apply List.eq_nil_iff_forall_not_mem.mpr
    intro id member
    apply kept id (effect.preempted_from id member).1
    rw [effect.preempted_seq id member]
    rfl
  subst nobody
  apply queues_agree_of (effect.swapped.trans consistent.unswapped)
  · intro id member
    change id ∈ (d.sched.schedule clock).1.waiting at member
    have notRunning : id ∉ (d.sched.schedule clock).1.running := by
      intro running
      have distinct := (schedule_queues_perm effect).nodup_iff.mp consistent.distinct
      exact (List.nodup_append.mp distinct).2.2 id member id running rfl
    rw [effect.other_seq id notRunning]
    apply agree.waiting
    rw [effect.waiting]
    exact List.mem_append_right _ member
  · intro id member
    change id ∈ (d.sched.schedule clock).1.running at member
    rcases schedule_seq_cases effect id with
      ⟨gone, _⟩ | ⟨_, _, ids, same⟩ | ⟨_, old, ids, same⟩
    · cases gone
    · rw [same]
      exact Or.inl rfl
    · rw [same]
      apply agree.running
      rw [effect.running] at member
      exact (List.mem_append.mp member).resolve_right old

theorem roomy_of_agree {d after : Driver cfg} (consistent : Consistent d)
    (sharded : Sharded d.sched.kvPool) (before : QueuesAgree d.sched)
    (moved : d.step clock .schedule = some after) (agree : QueuesAgree after.sched) :
    Roomy d.sched := by
  rcases step_schedule moved with ⟨_, rfl⟩
  rcases schedule_effect clock d.sched consistent.distinct with
    ⟨admitted, preempted, effect⟩
  apply (nothing_reset_iff_roomy clock d.sched consistent.distinct sharded
    (agree_active before)).mp
  intro id running
  apply agree_active agree id
  change id ∈ (d.sched.schedule clock).1.running
  rw [effect.running]
  exact List.mem_append_left _ running

theorem agree_step_complete {d after : Driver cfg} (consistent : Consistent d)
    (agree : QueuesAgree d.sched) {newTokens : List Int}
    (moved : d.step clock (.stepComplete newTokens) = some after) : QueuesAgree after.sched := by
  rcases step_step_complete moved with ⟨batch, ⟨sched, callbacks⟩, pending, stepped, rfl⟩
  have valid := consistent.pending batch pending
  have effect := step_complete_effect valid.distinct stepped
  have whole := List.nodup_append.mp consistent.distinct
  apply queues_agree_of (effect.swapped.trans consistent.unswapped)
  · intro id member
    change id ∈ sched.waiting at member
    rw [effect.waiting] at member
    rw [effect.other_seq id]
    · exact agree.waiting id member
    · intro named
      rcases List.mem_map.mp named with ⟨e, inBatch, rfl⟩
      exact whole.2.2 e.seq member e.seq (effect.owned e inBatch) rfl
  · intro id member
    change id ∈ sched.running at member
    rw [effect.running, List.mem_filter] at member
    have before := agree.running id member.1
    rcases step_seq_cases effect id with
      ⟨tok, _, _, same⟩ | ⟨_, _, e, _, _, _, same⟩ | ⟨_, _, same⟩
    · have active := consistent.active id (List.mem_append_right _ member.1)
      have open_ended := member.2
      rw [same, decoded_form_done _ tok active, Bool.not_eq_true'] at open_ended
      rw [same, decoded_form_running open_ended]
      exact before
    · rcases advance_prefill_cases (d.sched.seqs id) e.nTokens with ⟨_, moved⟩ | ⟨_, moved⟩
      · rw [same, moved]
        exact Or.inr rfl
      · rw [same, moved]
        exact before
    · rw [same]
      exact before

theorem agree_create : QueuesAgree (Driver.create cfg).sched := by
  apply queues_agree_of rfl
  · intro id member
    cases member
  · intro id member
    cases member

theorem agree_step {d after : Driver cfg} (consistent : Consistent d)
    (sharded : Sharded d.sched.kvPool) (agree : QueuesAgree d.sched) {call : Call}
    (roomy : RoomyCalls d call) (moved : d.step clock call = some after) :
    QueuesAgree after.sched := by
  cases call with
  | addRequest promptTokens maxNewTokens eosTokenId =>
      exact agree_add_request consistent agree moved
  | abortRequest seqId => exact agree_abort_request consistent agree moved
  | schedule => exact agree_schedule consistent sharded agree roomy moved
  | stepComplete newTokens => exact agree_step_complete consistent agree moved

theorem agree_reached {allowed : Driver cfg → Call → Prop}
    (roomy : ∀ d call, allowed d call → RoomyCalls d call) {d : Driver cfg}
    (reached : Driver.Reached clock allowed d) : QueuesAgree d.sched :=
  reaches_invariant (motive := fun d : Driver cfg => QueuesAgree d.sched) agree_create
    (fun before call _ prior agree meets moved => agree_step (consistent_reached prior)
      (sharded_reached prior) agree (roomy before call meets) moved) reached

/-- As long as every `schedule` finds room for its demand, queue and state
agree after every call, and a further call keeps them so exactly when it finds
room as well. -/
theorem queues_agree_iff_roomy {d : Driver cfg} (reached : Driver.Reached clock RoomyCalls d) :
    QueuesAgree d.sched ∧ ∀ call after, d.step clock call = some after →
      (QueuesAgree after.sched ↔ RoomyCalls d call) := by
  have consistent := consistent_reached reached
  have sharded := sharded_reached reached
  have agree := agree_reached (fun _ _ meets => meets) reached
  refine ⟨agree, fun call after moved => ⟨?_, fun roomy => ?_⟩⟩
  · intro agreeAfter
    cases call with
    | addRequest promptTokens maxNewTokens eosTokenId => trivial
    | abortRequest seqId => trivial
    | schedule => exact roomy_of_agree consistent sharded agree moved agreeAfter
    | stepComplete newTokens => trivial
  · exact agree_step consistent sharded agree roomy moved

instance roomyCallsDecidable (d : Driver cfg) : ∀ call, Decidable (RoomyCalls d call)
  | .addRequest _ _ _ => inferInstanceAs (Decidable True)
  | .abortRequest _ => inferInstanceAs (Decidable True)
  | .schedule => inferInstanceAs (Decidable (Roomy d.sched))
  | .stepComplete _ => inferInstanceAs (Decidable True)

theorem queues_agree_iff_roomy_two_requests :
    let d := (runCalls (Driver.step tickingClock) RoomyCalls
      (Driver.create { kvPageSizeTokens := 1, maxPagesTotal := 8 })
      [.addRequest [7] 3 (-1), .addRequest [5] 3 (-1), .schedule, .stepComplete [],
        .schedule, .stepComplete [3, 4]]).get (by decide)
    QueuesAgree d.sched ∧ (QueuesAgree ((d.step tickingClock .schedule).get (by decide)).sched ↔
      RoomyCalls d .schedule) := by
  intro d
  have agree := queues_agree_iff_roomy (d := d) (reaches_of_run_get _ (by decide))
  exact ⟨agree.1, agree.2 .schedule _ (Option.some_get _).symm⟩

/-- Two requests of three tokens in a pool of four pages: the third `schedule`
preempts the first, which is then WAITING in `running_`. -/
theorem queues_disagree_after_preemption :
    ¬∀ (cfg : SchedulerConfig) (clock : Clock) (d : Driver cfg),
      Driver.Reached clock (fun _ _ => True) d → QueuesAgree d.sched := by
  intro always
  have agree := always { kvPageSizeTokens := 1, maxPagesTotal := 4 } tickingClock _
    (reaches_of_run_get [.addRequest [7] 3 (-1), .addRequest [5] 3 (-1), .schedule,
      .stepComplete [], .schedule, .stepComplete [3, 4], .schedule] (by decide))
  exact absurd (agree.running 0 (by decide)) (by decide)

end AmpFormal.SchedulerQueues
