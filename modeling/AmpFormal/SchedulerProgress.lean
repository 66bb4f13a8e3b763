import AmpFormal.SchedulerLifecycle
import AmpFormal.SchedulerQueues

/-!
# Progress

The driver loop takes an empty batch as the end of the work. A batch is empty
although a request is unfinished when that request was preempted (it stays in
`running_` as WAITING), or when the pages it needs are held by completed
sequences or by other sequences in prefill. The condition excludes both from the
state before each `schedule`; no run that meets it sees an empty batch too early.
-/

namespace AmpFormal.SchedulerProgress

open AmpFormal.SchedulerModel AmpFormal.SchedulerModel.Scheduler AmpFormal.ScheduleEffects
open AmpFormal.PageDemand AmpFormal.PageShortage AmpFormal.TransitionRuns AmpFormal.SchedulerRuns
open AmpFormal.SchedulerLifecycle AmpFormal.SchedulerQueues

set_option autoImplicit false

structure PositiveLimits (cfg : SchedulerConfig) : Prop where
  pageSize : 0 < cfg.kvPageSizeTokens
  pages : 0 < cfg.maxPagesTotal
  batchTokens : 0 < cfg.maxBatchTokens
  seqsRunning : 0 < cfg.maxSeqsRunning
  waitingSeqs : 0 < cfg.maxWaitingSeqs
  prefillTokens : 0 < cfg.maxPrefillTokensPerStep

variable {cfg : SchedulerConfig} {clock : Clock}

/-- Each request has a prompt, asks for a token and fits the pool alone. -/
def Serviceable (_ : Driver cfg) : Call → Prop
  | .addRequest promptTokens maxNewTokens _ => promptTokens ≠ [] ∧ 1 ≤ maxNewTokens ∧
      (promptTokens.length + maxNewTokens + cfg.kvPageSizeTokens - 1) / cfg.kvPageSizeTokens ≤
        cfg.maxPagesTotal
  | _ => True

/-- `schedule` finds room for all it asks for, and when nothing decodes but
something waits or prefills, for at least one first chunk. -/
def KeepsMoving (d : Driver cfg) : Call → Prop
  | .schedule => Roomy d.sched ∧ (decoders d.sched = [] →
      d.sched.waiting ++ d.sched.running.filter (d.sched.inState .prefill) ≠ [] →
      FirstChunkFits d.sched)
  | _ => True

def Steady (d : Driver cfg) (call : Call) : Prop := Serviceable d call ∧ KeepsMoving d call

/-- An accepted request that has neither completed nor been aborted. -/
structure Unfinished (d : Driver cfg) (id : Int) : Prop where
  accepted : id ∈ acceptedIds d.log
  uncompleted : id ∉ completedIds d.log
  unaborted : id ∉ abortedIds d.log

theorem steady_asks (d : Driver cfg) (call : Call) (meets : Steady d call) : call.AsksTokens := by
  cases call with
  | addRequest promptTokens maxNewTokens eosTokenId => exact meets.1.2.1
  | abortRequest seqId => trivial
  | schedule => trivial
  | stepComplete newTokens => trivial

theorem steady_roomy (d : Driver cfg) (call : Call) (meets : Steady d call) :
    RoomyCalls d call := by
  cases call with
  | addRequest promptTokens maxNewTokens eosTokenId => trivial
  | abortRequest seqId => trivial
  | schedule => exact meets.2.1
  | stepComplete newTokens => trivial

theorem steady_queues_agree {d : Driver cfg} (reached : Driver.Reached clock Steady d) :
    QueuesAgree d.sched :=
  agree_reached steady_roomy reached

theorem unfinished_queued {d : Driver cfg} (tracked : Tracked d) {id : Int}
    (unfinished : Unfinished d id) : id ∈ d.sched.waiting ++ d.sched.running := by
  have place := tracked.places.mem_iff.mpr unfinished.accepted
  simp only [List.mem_append] at place ⊢
  rcases place with (queued | completed) | aborted
  · exact queued
  · exact absurd completed unfinished.uncompleted
  · exact absurd aborted unfinished.unaborted

theorem unfinished_served {d : Driver cfg} (agree : QueuesAgree d.sched) {id : Int}
    (queued : id ∈ d.sched.waiting ++ d.sched.running) (idle : decoders d.sched = []) :
    d.sched.waiting ++ d.sched.running.filter (d.sched.inState .prefill) ≠ [] := by
  apply List.ne_nil_of_mem (a := id)
  rcases List.mem_append.mp queued with waiting | running
  · exact List.mem_append_left _ waiting
  · apply List.mem_append_right
    rw [mem_in_state_iff]
    rcases agree.running id running with prefill | decode
    · exact ⟨running, prefill⟩
    · have decoding : id ∈ decoders d.sched := (mem_in_state_iff _ _ _ _).mpr ⟨running, decode⟩
      rw [idle] at decoding
      cases decoding

/-- In every run of `Steady` calls, a `schedule` that meets the condition
returns a nonempty batch while some request is unfinished; when nothing decodes,
only such a `schedule` does. -/
theorem schedule_makes_progress (limits : PositiveLimits cfg) {d : Driver cfg}
    (reached : Driver.Reached clock Steady d) {id : Int} (unfinished : Unfinished d id) :
    (KeepsMoving d .schedule → (d.sched.schedule clock).2.entries ≠ []) ∧
      (decoders d.sched = [] →
        ((d.sched.schedule clock).2.entries ≠ [] ↔ KeepsMoving d .schedule)) := by
  have consistent := consistent_reached reached
  have sharded := sharded_reached reached
  have agree := steady_queues_agree reached
  have queued := unfinished_queued (tracked_reached steady_asks reached) unfinished
  have idle_iff : decoders d.sched = [] →
      ((d.sched.schedule clock).2.entries ≠ [] ↔ KeepsMoving d .schedule) := by
    intro idle
    rw [schedule_issues_iff_first_chunk clock d.sched consistent.distinct sharded idle]
    constructor
    · exact fun fits => ⟨Or.inl idle, fun _ _ => fits⟩
    · exact fun moving => moving.2 idle (unfinished_served agree queued idle)
  refine ⟨fun moving => ?_, idle_iff⟩
  by_cases idle : decoders d.sched = []
  · exact (idle_iff idle).mpr moving
  · have room := moving.1.resolve_left idle
    exact (schedule_room clock d.sched consistent.distinct sharded room).2 limits.batchTokens idle

instance serviceableDecidable (d : Driver cfg) : ∀ call, Decidable (Serviceable d call)
  | .addRequest _ _ _ => inferInstanceAs (Decidable (_ ∧ _))
  | .abortRequest _ => inferInstanceAs (Decidable True)
  | .schedule => inferInstanceAs (Decidable True)
  | .stepComplete _ => inferInstanceAs (Decidable True)

instance keepsMovingDecidable (d : Driver cfg) : ∀ call, Decidable (KeepsMoving d call)
  | .addRequest _ _ _ => inferInstanceAs (Decidable True)
  | .abortRequest _ => inferInstanceAs (Decidable True)
  | .schedule => inferInstanceAs (Decidable (_ ∧ _))
  | .stepComplete _ => inferInstanceAs (Decidable True)

instance steadyDecidable (d : Driver cfg) (call : Call) : Decidable (Steady d call) :=
  inferInstanceAs (Decidable (_ ∧ _))

theorem schedule_makes_progress_two_requests :
    let d := (runCalls (Driver.step tickingClock) Steady
      (Driver.create { kvPageSizeTokens := 1, maxPagesTotal := 8 })
      [.addRequest [7] 3 (-1), .addRequest [5] 3 (-1), .schedule, .stepComplete [],
        .schedule, .stepComplete [3, 4]]).get (by decide)
    (d.sched.schedule tickingClock).2.entries ≠ [] :=
  (schedule_makes_progress (by constructor <;> decide) (reaches_of_run_get _ (by decide))
    (show Unfinished _ 0 from ⟨by decide, by decide, by decide⟩)).1 (by decide)

/-- Two requests of three tokens, each fitting the pool of four pages alone: the
first is preempted, the second completes, and the batch is empty although the
first is unfinished. -/
theorem schedule_stalls_after_preemption :
    ¬∀ (cfg : SchedulerConfig) (clock : Clock) (d : Driver cfg) (id : Int), PositiveLimits cfg →
      Driver.Reached clock Serviceable d → d.pending = none → Unfinished d id →
      (d.sched.schedule clock).2.entries ≠ [] := by
  intro always
  exact always { kvPageSizeTokens := 1, maxPagesTotal := 4 } tickingClock _ 0
    (by constructor <;> decide)
    (reaches_of_run_get [.addRequest [7] 3 (-1), .addRequest [5] 3 (-1), .schedule,
      .stepComplete [], .schedule, .stepComplete [3, 4], .schedule, .stepComplete [8],
      .schedule, .stepComplete [9]] (by decide))
    (by decide) ⟨by decide, by decide, by decide⟩ (by decide)

end AmpFormal.SchedulerProgress
