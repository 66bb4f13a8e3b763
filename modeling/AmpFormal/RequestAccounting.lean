import AmpFormal.SchedulerLifecycle

/-!
# Where every request is counted

`add_request` moves the id and the request count before it finds the waiting queue
full and throws. So the requests counted are those queued, completed, aborted or
refused, and the statistics add up only while nothing has been refused.
-/

namespace AmpFormal.RequestAccounting

open AmpFormal.SchedulerModel AmpFormal.SchedulerModel.Scheduler AmpFormal.ScheduleEffects
open AmpFormal.StepCompleteEffects AmpFormal.TransitionRuns AmpFormal.SchedulerRuns
open AmpFormal.SchedulerLifecycle

set_option autoImplicit false

variable {cfg : SchedulerConfig} {clock : Clock}

/-- The calls of `add_request` that threw. -/
def rejections {pages : Nat} (log : List (Event pages)) : Nat :=
  log.countP fun
    | .rejected => true
    | _ => false

/-- The waiting queue has room for a request. -/
def HasRoom (st : Scheduler cfg) : Prop := (st.waiting.length : Int) < cfg.maxWaitingSeqs

/-- No request is submitted to a full queue. -/
def RequestsFit (d : Driver cfg) : Call → Prop
  | .addRequest _ _ _ => HasRoom d.sched
  | _ => True

theorem rejections_append {pages : Nat} (log : List (Event pages)) (event : Event pages) :
    rejections (log ++ [event]) = rejections log + rejections [event] :=
  List.countP_append

/-! ## One call -/

theorem refused_request (st : Scheduler cfg) (promptTokens : List Int)
    (maxNewTokens eosTokenId : Int) (full : ¬HasRoom st) :
    st.addRequest promptTokens maxNewTokens eosTokenId =
      ({ st with nextId := st.nextId + 1, totalRequests := st.totalRequests + 1 }, none) :=
  if_pos (not_lt.mp full)

theorem accepted_request (st : Scheduler cfg) (promptTokens : List Int)
    (maxNewTokens eosTokenId : Int) (room : HasRoom st) :
    (st.addRequest promptTokens maxNewTokens eosTokenId).2 = some st.nextId := by
  have open_queue : ¬(st.waiting.length : Int) ≥ cfg.maxWaitingSeqs := not_le.mpr room
  unfold addRequest
  dsimp only
  rw [if_neg open_queue]

/-- An exception leaves the scheduler alone only where there is none. -/
theorem exception_harmless_iff (st : Scheduler cfg) (promptTokens : List Int)
    (maxNewTokens eosTokenId : Int) :
    ((st.addRequest promptTokens maxNewTokens eosTokenId).2 = none →
        (st.addRequest promptTokens maxNewTokens eosTokenId).1 = st ∧
        (st.addRequest promptTokens maxNewTokens eosTokenId).1.getStats = st.getStats) ↔
      HasRoom st := by
  constructor
  · intro harmless
    by_contra full
    rw [refused_request st promptTokens maxNewTokens eosTokenId full] at harmless
    have counted := congrArg SchedulerStats.totalRequests (harmless rfl).2
    exact absurd counted (Nat.succ_ne_self st.totalRequests)
  · intro room thrown
    rw [accepted_request st promptTokens maxNewTokens eosTokenId room] at thrown
    cases thrown

/-! ## Runs -/

/-- Every request counted is completed, aborted, queued or was refused. -/
def Accounted (d : Driver cfg) : Prop :=
  d.sched.totalRequests = d.sched.completed + (abortedIds d.log).length + d.sched.waiting.length +
    d.sched.running.length + d.sched.swapped.length + rejections d.log

theorem accounted_add_request {d after : Driver cfg} (accounted : Accounted d)
    {promptTokens : List Int} {maxNewTokens eosTokenId : Int}
    (moved : d.step clock (.addRequest promptTokens maxNewTokens eosTokenId) = some after) :
    Accounted after := by
  obtain rfl := Option.some.inj moved
  unfold Accounted at accounted ⊢
  dsimp only
  rw [aborted_ids_append, rejections_append]
  by_cases room : HasRoom d.sched
  · have open_queue : ¬(d.sched.waiting.length : Int) ≥ cfg.maxWaitingSeqs := not_le.mpr room
    simp only [addRequest, if_neg open_queue, setSeq, List.length_append, List.length_singleton]
    simp only [abortedIds, rejections, List.filterMap_cons, List.filterMap_nil, List.length_nil,
      List.countP_cons, List.countP_nil, Bool.false_eq_true, if_false]
    unfold abortedIds rejections at accounted
    omega
  · rw [refused_request d.sched promptTokens maxNewTokens eosTokenId room]
    simp only [abortedIds, rejections, List.filterMap_cons, List.filterMap_nil, List.append_nil,
      List.countP_cons, List.countP_nil, if_true]
    unfold abortedIds rejections at accounted
    omega

theorem accounted_abort_request {d after : Driver cfg} (consistent : Consistent d)
    (accounted : Accounted d) {seqId : Int}
    (moved : d.step clock (.abortRequest seqId) = some after) : Accounted after := by
  obtain ⟨sched, -, found⟩ := step_abort_request consistent.unswapped moved
  have effect := (abort_request_effect d.sched seqId consistent.unswapped consistent.distinct).1
  rw [← sched] at effect
  unfold Accounted at accounted ⊢
  rw [effect.totalRequests, effect.completed, effect.swapped]
  rcases found with ⟨absent, log⟩ | ⟨queued, log⟩
  · rw [List.mem_append, not_or] at absent
    rw [effect.waiting, effect.running, log, List.erase_of_not_mem absent.1,
      List.erase_of_not_mem absent.2]
    exact accounted
  · have erased := (erase_queues_perm consistent.distinct queued).length_eq
    rw [List.length_cons, List.length_append, List.length_append, ← effect.waiting,
      ← effect.running] at erased
    rw [log, aborted_ids_append, rejections_append, List.length_append]
    have one : (abortedIds [Event.aborted seqId (d.sched.seqs seqId).kvPageIds]).length = 1 := rfl
    have none_refused : rejections [Event.aborted seqId (d.sched.seqs seqId).kvPageIds] = 0 := rfl
    omega

theorem accounted_schedule {d after : Driver cfg} (consistent : Consistent d)
    (accounted : Accounted d) (moved : d.step clock .schedule = some after) : Accounted after := by
  obtain ⟨-, rfl⟩ := step_schedule moved
  obtain ⟨admitted, preempted, effect⟩ := schedule_effect clock d.sched consistent.distinct
  have lengths := (schedule_queues_perm effect).length_eq
  rw [List.length_append, List.length_append] at lengths
  unfold Accounted at accounted ⊢
  dsimp only
  rw [effect.totalRequests, effect.completed, effect.swapped, aborted_ids_append,
    rejections_append, List.length_append]
  have none_aborted : ∀ batch preempted,
      (abortedIds [(Event.scheduled batch preempted : Event cfg.pages)]).length = 0 :=
    fun _ _ => rfl
  have none_refused : ∀ batch preempted,
      rejections [(Event.scheduled batch preempted : Event cfg.pages)] = 0 := fun _ _ => rfl
  rw [none_aborted, none_refused]
  omega

theorem accounted_step_complete {d after : Driver cfg} (consistent : Consistent d)
    (accounted : Accounted d) {newTokens : List Int}
    (moved : d.step clock (.stepComplete newTokens) = some after) : Accounted after := by
  obtain ⟨batch, ⟨sched, callbacks⟩, pending, stepped, rfl⟩ := step_step_complete moved
  have distinct := (consistent.pending batch pending).distinct
  have effect := step_complete_effect distinct stepped
  have removed := (callbacks_removed consistent distinct effect).length_eq
  rw [List.length_append, List.length_map] at removed
  generalize Driver.changedState d.sched sched .prefill .decode = entered
  unfold Accounted at accounted ⊢
  dsimp only
  rw [effect.totalRequests, effect.completed, effect.swapped, effect.waiting, aborted_ids_append,
    rejections_append, List.length_append]
  have none_aborted : (abortedIds
    [(Event.stepped batch newTokens callbacks entered : Event cfg.pages)]).length = 0 := rfl
  have none_refused : rejections
    [(Event.stepped batch newTokens callbacks entered : Event cfg.pages)] = 0 := rfl
  rw [none_aborted, none_refused]
  omega

theorem accounted_reached {allowed : Driver cfg → Call → Prop} {d : Driver cfg}
    (reached : Driver.Reached clock allowed d) : Accounted d := by
  have initial : Accounted (Driver.create cfg) := rfl
  refine reaches_invariant initial ?_ reached
  intro before call after prior accounted _ moved
  have consistent := consistent_reached prior
  cases call with
  | addRequest promptTokens maxNewTokens eosTokenId => exact accounted_add_request accounted moved
  | abortRequest seqId => exact accounted_abort_request consistent accounted moved
  | schedule => exact accounted_schedule consistent accounted moved
  | stepComplete newTokens => exact accounted_step_complete consistent accounted moved

theorem fitting_requests_accepted {d : Driver cfg}
    (reached : Driver.Reached clock RequestsFit d) : rejections d.log = 0 := by
  have initial : rejections (Driver.create cfg).log = 0 := rfl
  refine reaches_invariant (motive := fun d : Driver cfg => rejections d.log = 0) initial ?_ reached
  intro before call after prior none_refused fits moved
  have consistent := consistent_reached prior
  cases call with
  | addRequest promptTokens maxNewTokens eosTokenId =>
      obtain rfl := Option.some.inj moved
      dsimp only
      rw [rejections_append, none_refused, accepted_request _ _ _ _ fits]
      rfl
  | abortRequest seqId =>
      obtain ⟨-, -, found⟩ := step_abort_request consistent.unswapped moved
      rcases found with ⟨_, log⟩ | ⟨_, log⟩
      · rw [log]
        exact none_refused
      · rw [log, rejections_append, none_refused]
        rfl
  | schedule =>
      obtain ⟨-, rfl⟩ := step_schedule moved
      rw [rejections_append, none_refused]
      rfl
  | stepComplete newTokens =>
      obtain ⟨batch, result, -, -, rfl⟩ := step_step_complete moved
      rw [rejections_append, none_refused]
      rfl

def StatsAddUp (d : Driver cfg) : Prop :=
  (d.sched.getStats.totalRequests : Int) = d.sched.getStats.completed + (abortedIds d.log).length +
    d.sched.getStats.nWaiting + d.sched.getStats.nRunning + d.sched.getStats.nSwapped

theorem stats_add_up_iff {d : Driver cfg} (accounted : Accounted d) :
    StatsAddUp d ↔ rejections d.log = 0 := by
  unfold Accounted at accounted
  unfold StatsAddUp getStats
  dsimp only
  omega

/-- In every state of every run a throwing `add_request` would be harmless exactly when
the queue has room, that is, when it does not throw; and the statistics add up exactly
when no request has been refused, as in every run whose requests all find room. -/
theorem requests_accounted_iff {d : Driver cfg}
    (reached : Driver.Reached clock (fun _ _ => True) d) :
    (∀ promptTokens maxNewTokens eosTokenId,
      ((d.sched.addRequest promptTokens maxNewTokens eosTokenId).2 = none →
          (d.sched.addRequest promptTokens maxNewTokens eosTokenId).1 = d.sched ∧
          (d.sched.addRequest promptTokens maxNewTokens eosTokenId).1.getStats =
            d.sched.getStats) ↔ HasRoom d.sched) ∧
    (StatsAddUp d ↔ rejections d.log = 0) ∧
    (Driver.Reached clock RequestsFit d → StatsAddUp d) := by
  have counted := stats_add_up_iff (accounted_reached reached)
  exact ⟨exception_harmless_iff d.sched, counted, fun fitting =>
    counted.mpr (fitting_requests_accepted fitting)⟩

instance requestsFitDecidable (d : Driver cfg) : ∀ call, Decidable (RequestsFit d call)
  | .addRequest _ _ _ => inferInstanceAs (Decidable (_ < cfg.maxWaitingSeqs))
  | .abortRequest _ => isTrue trivial
  | .schedule => isTrue trivial
  | .stepComplete _ => isTrue trivial

/-- A queue of one request, filled three times: one request completes and one is aborted. -/
def fittingCalls : List Call :=
  [.addRequest [7] 1 (-1), .schedule, .stepComplete [], .addRequest [5] 3 (-1), .abortRequest 1,
    .addRequest [6] 2 (-1), .schedule, .stepComplete [4]]

theorem requests_accounted_iff_fitting :
    ∃ d : Driver { maxPagesTotal := 8, maxWaitingSeqs := 1 },
      Driver.Reached tickingClock RequestsFit d ∧ StatsAddUp d := by
  have fitting := reaches_of_run_get fittingCalls
    (show (runCalls (Driver.step tickingClock) RequestsFit
      (Driver.create { maxPagesTotal := 8, maxWaitingSeqs := 1 }) fittingCalls).isSome by
        decide +kernel)
  exact ⟨_, fitting, (requests_accounted_iff (reaches_weaken (fun _ _ _ => trivial) fitting)).2.2
    fitting⟩

/-- The second request finds the queue of one full. -/
theorem refusal_is_counted :
    ∃ d after : Driver { maxPagesTotal := 8, maxWaitingSeqs := 1 },
      Driver.Reached tickingClock (fun _ _ => True) d ∧
      Driver.Reached tickingClock (fun _ _ => True) after ∧
      d.step tickingClock (.addRequest [5] 3 (-1)) = some after ∧
      (d.sched.addRequest [5] 3 (-1)).2 = none ∧
      (d.sched.addRequest [5] 3 (-1)).1 ≠ d.sched ∧
      (d.sched.addRequest [5] 3 (-1)).1.getStats ≠ d.sched.getStats ∧ ¬StatsAddUp after := by
  refine ⟨_, _, .call .start (.addRequest [7] 1 (-1)) trivial rfl,
    .call (.call .start (.addRequest [7] 1 (-1)) trivial rfl) (.addRequest [5] 3 (-1)) trivial rfl,
    rfl, rfl, fun same => ?_, fun same => ?_, fun sum => ?_⟩
  · exact absurd (congrArg Scheduler.nextId same) (by decide)
  · exact absurd (congrArg SchedulerStats.totalRequests same) (by decide)
  · exact absurd sum (by unfold StatsAddUp; decide)

end AmpFormal.RequestAccounting
