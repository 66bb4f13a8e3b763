import AmpFormal.SchedulerCompletion

/-!
# Batched generation is generation alone

The forward pass is a function from a prompt and the tokens after it to the next token,
and `step_complete` is given its answers for the decode entries of the batch. However the
requests share the batches, and whatever is aborted or preempted, the completion callback
gets the tokens the function generates for that prompt on its own.
-/

namespace AmpFormal.SchedulerGeneration

open AmpFormal.SchedulerModel AmpFormal.SchedulerModel.Scheduler
open AmpFormal.ScheduleEffects AmpFormal.StepCompleteEffects
open AmpFormal.TransitionRuns AmpFormal.SchedulerRuns AmpFormal.SchedulerLifecycle
open AmpFormal.SchedulerProgress AmpFormal.SchedulerCompletion

set_option autoImplicit false

/-! ## Generation for one prompt -/

section Alone

variable (next : List Int → Int) (promptTokens : List Int)

def continuation : Nat → List Int
  | 0 => []
  | n + 1 => continuation n ++ [next (promptTokens ++ continuation n)]

def generateFrom (eosTokenId : Int) : Nat → List Int → List Int
  | 0, outputTokens => outputTokens
  | budget + 1, outputTokens =>
      let tok := next (promptTokens ++ outputTokens)
      if 0 ≤ eosTokenId ∧ tok = eosTokenId then outputTokens ++ [tok]
      else generateFrom eosTokenId budget (outputTokens ++ [tok])

/-- One token at a time, up to the end-of-sequence token or the limit. -/
def generate (maxNewTokens eosTokenId : Int) : List Int :=
  generateFrom next promptTokens eosTokenId maxNewTokens.toNat []

variable {next promptTokens}

theorem generate_from_unfinished {eosTokenId : Int} {limit : Nat} (n : Nat) (inside : n ≤ limit)
    (unfinished : 0 ≤ eosTokenId → eosTokenId ∉ continuation next promptTokens n) :
    generateFrom next promptTokens eosTokenId limit [] =
      generateFrom next promptTokens eosTokenId (limit - n)
        (continuation next promptTokens n) := by
  induction n with
  | zero => rfl
  | succ n ih =>
      unfold continuation at unfinished ⊢
      rw [ih (by omega) fun valid member => unfinished valid (List.mem_append_left _ member),
        show limit - n = limit - (n + 1) + 1 by omega]
      apply if_neg
      rintro ⟨valid, same⟩
      apply unfinished valid
      rw [← same]
      exact List.mem_append_right _ (List.mem_singleton_self _)

/-- A continuation that ends as a request may end is all that is generated. -/
theorem generate_eq_continuation {maxNewTokens eosTokenId : Int} {tokens : List Int}
    (ends : EndsWell maxNewTokens eosTokenId tokens)
    (computed : tokens = continuation next promptTokens tokens.length) :
    tokens = generate next promptTokens maxNewTokens eosTokenId := by
  obtain ⟨n, length⟩ : ∃ n, tokens.length = n + 1 :=
    Nat.exists_eq_succ_of_ne_zero (Nat.ne_of_gt ends.nonempty)
  rw [length] at computed
  have before : tokens.dropLast = continuation next promptTokens n := by
    rw [computed]
    exact List.dropLast_concat
  have bounded := ends.bounded
  unfold generate
  rw [generate_from_unfinished n (by omega) fun valid => before ▸ ends.eos_last valid,
    show maxNewTokens.toNat - n = maxNewTokens.toNat - (n + 1) + 1 by omega]
  unfold generateFrom
  dsimp only
  split
  case isTrue => exact computed
  case isFalse unended =>
    -- the last token does not end the request, so the limit does
    have full : (tokens.length : Int) = maxNewTokens := by
      refine ends.reason.resolve_left ?_
      rintro ⟨valid, last⟩
      apply unended
      refine ⟨valid, ?_⟩
      rw [computed] at last
      exact Option.some.inj (List.getLast?_concat.symm.trans last)
    rw [show maxNewTokens.toNat - (n + 1) = 0 by omega]
    exact computed

end Alone

/-! ## The answers of the forward pass -/

variable {cfg : SchedulerConfig} {clock : Clock} {next : List Int → Int}

def nextTokenOf {pages : Nat} (next : List Int → Int) (s : Sequence pages) : Int :=
  next (s.promptTokens ++ s.outputTokens)

def answersTo (next : List Int → Int) (st : Scheduler cfg) (batch : ScheduledBatch) : List Int :=
  (batch.entries.filter fun e => !e.isPrefill).map fun e => nextTokenOf next (st.seqs e.seq)

/-- Requests ask for a token, and `step_complete` is given the answers to its batch. -/
def Answers (next : List Int → Int) (d : Driver cfg) : Call → Prop
  | .addRequest _ maxNewTokens _ => 1 ≤ maxNewTokens
  | .stepComplete newTokens => ∀ batch ∈ d.pending, newTokens = answersTo next d.sched batch
  | _ => True

instance answersDecidable (next : List Int → Int) (d : Driver cfg) :
    ∀ call, Decidable (Answers next d call)
  | .addRequest _ maxNewTokens _ => inferInstanceAs (Decidable (1 ≤ maxNewTokens))
  | .stepComplete newTokens =>
      inferInstanceAs (Decidable (∀ batch ∈ d.pending, newTokens = answersTo next d.sched batch))
  | .abortRequest _ => inferInstanceAs (Decidable True)
  | .schedule => inferInstanceAs (Decidable True)

theorem answers_asks (d : Driver cfg) (call : Call) (meets : Answers next d call) :
    call.AsksTokens := by
  cases call with
  | addRequest promptTokens maxNewTokens eosTokenId => exact meets
  | abortRequest seqId => trivial
  | schedule => trivial
  | stepComplete newTokens => trivial

theorem assigned_answer {st : Scheduler cfg} {batch : ScheduledBatch} {id tok : Int}
    (assigned : (id, tok) ∈ assignedTokens batch (answersTo next st batch)) :
    tok = nextTokenOf next (st.seqs id) := by
  unfold assignedTokens assignedFrom answersTo at assigned
  obtain ⟨⟨e, j⟩, member, same⟩ := List.mem_map.mp assigned
  obtain ⟨inside, here⟩ := List.mem_zipIdx' member
  obtain ⟨rfl, rfl⟩ := Prod.mk.inj same
  dsimp only
  rw [List.getD_eq_getElem _ _ (by rw [List.length_map]; exact inside), List.getElem_map, ← here]

def Follows {pages : Nat} (next : List Int → Int) (s : Sequence pages) : Prop :=
  s.outputTokens = continuation next s.promptTokens s.outputTokens.length

theorem follows_answer {pages : Nat} {s : Sequence pages} (follows : Follows next s) :
    Follows next (s.appendToken (nextTokenOf next s)) := by
  have longer : (s.outputTokens ++ [nextTokenOf next s]).length = s.outputTokens.length + 1 :=
    List.length_append
  change s.outputTokens ++ [nextTokenOf next s] =
    continuation next s.promptTokens (s.outputTokens ++ [nextTokenOf next s]).length
  rw [longer, continuation, ← follows]
  rfl

theorem follows_advance {pages : Nat} {s : Sequence pages} (follows : Follows next s) (n : Int) :
    Follows next (s.advancePrefill n) := by
  obtain ⟨_, same⟩ | ⟨_, same⟩ := advance_prefill_cases s n
  · rw [same]
    exact follows
  · rw [same]
    exact follows

/-! ## The invariant -/

/-- Every queued sequence follows its prompt, and every completed one was given all that
is generated for the prompt it was accepted with. -/
structure Generated (next : List Int → Int) (d : Driver cfg) : Prop where
  queued : ∀ id ∈ d.sched.waiting ++ d.sched.running, Follows next (d.sched.seqs id)
  completed : ∀ id tokens, (id, tokens) ∈ completions d.log →
    ∃ promptTokens maxNewTokens eosTokenId,
      Event.accepted id promptTokens maxNewTokens eosTokenId ∈ d.log ∧
        tokens = generate next promptTokens maxNewTokens eosTokenId

theorem completed_frame {d after : Driver cfg} (generated : Generated next d)
    {events : List (Event cfg.pages)} (log : after.log = d.log ++ events)
    (none_completed : completions events = []) :
    ∀ id tokens, (id, tokens) ∈ completions after.log →
      ∃ promptTokens maxNewTokens eosTokenId,
        Event.accepted id promptTokens maxNewTokens eosTokenId ∈ after.log ∧
          tokens = generate next promptTokens maxNewTokens eosTokenId := by
  intro id tokens member
  have same : completions after.log = completions d.log := by
    rw [log, completions, List.flatMap_append]
    change _ ++ completions events = _
    rw [none_completed]
    exact List.append_nil _
  rw [same] at member
  obtain ⟨promptTokens, maxNewTokens, eosTokenId, accepted, all⟩ :=
    generated.completed id tokens member
  refine ⟨promptTokens, maxNewTokens, eosTokenId, ?_, all⟩
  rw [log]
  exact List.mem_append_left _ accepted

theorem generated_create : Generated next (Driver.create cfg) :=
  ⟨fun _ member => (nomatch member), fun _ _ member => nomatch member⟩

theorem generated_add_request {d after : Driver cfg} (consistent : Consistent d)
    (generated : Generated next d) {promptTokens : List Int} {maxNewTokens eosTokenId : Int}
    (moved : d.step clock (.addRequest promptTokens maxNewTokens eosTokenId) = some after) :
    Generated next after := by
  obtain ⟨added, event, effect⟩ := step_add_request moved
  have noneCompleted : completions [event] = [] :=
    add_effect_event effect (motive := fun event => completions [event] = []) rfl
      fun _ _ _ _ => rfl
  constructor
  · intro id queued
    rcases add_effect_queued effect queued with old | ⟨rfl, _, sequence⟩
    · rw [add_effect_old_seq consistent effect old]
      exact generated.queued id old
    · rw [sequence]
      rfl
  · exact completed_frame generated effect.log noneCompleted

theorem generated_abort_request {d after : Driver cfg} (consistent : Consistent d)
    (generated : Generated next d) {seqId : Int}
    (moved : d.step clock (.abortRequest seqId) = some after) : Generated next after := by
  obtain ⟨sched, _, found⟩ := step_abort_request consistent.unswapped moved
  have effect := (abort_request_effect d.sched seqId consistent.unswapped consistent.distinct).1
  rw [← sched] at effect
  constructor
  · intro id queued
    rw [effect.other_seq id (abort_effect_left effect consistent.distinct queued)]
    exact generated.queued id (abort_effect_queued effect queued)
  · rcases found with ⟨_, log⟩ | ⟨_, log⟩
    · exact completed_frame generated (log.trans (List.append_nil _).symm) rfl
    · exact completed_frame generated log rfl

theorem generated_schedule {d after : Driver cfg} (consistent : Consistent d)
    (generated : Generated next d) (moved : d.step clock .schedule = some after) :
    Generated next after := by
  obtain ⟨_, rfl⟩ := step_schedule moved
  obtain ⟨admitted, preempted, effect⟩ := schedule_effect clock d.sched consistent.distinct
  constructor
  · intro id queued
    have follows := generated.queued id ((schedule_queues_perm effect).mem_iff.mpr queued)
    dsimp only
    rcases schedule_seq_cases effect id with
      ⟨_, _, _, same⟩ | ⟨_, _, ids, same⟩ | ⟨_, _, ids, same⟩
    · rw [same]
      rfl
    · rw [same]
      exact follows
    · rw [same]
      exact follows
  · exact completed_frame generated rfl rfl

theorem follows_step_complete {d : Driver cfg} (consistent : Consistent d) (tracked : Tracked d)
    (generated : Generated next d) {sched : Scheduler cfg} {batch : ScheduledBatch}
    {callbacks : List (Int × List Int)} (distinct : (batch.entries.map BatchEntry.seq).Nodup)
    (effect : StepEffect d.sched batch (answersTo next d.sched batch) sched callbacks) {id : Int}
    (queued : id ∈ sched.waiting ++ sched.running) : Follows next (sched.seqs id) := by
  have live := live_step_complete consistent tracked [] distinct effect queued
  rw [effect.waiting, effect.running] at queued
  have before : id ∈ d.sched.waiting ++ d.sched.running :=
    ((List.Sublist.refl _).append List.filter_sublist).subset queued
  have follows := generated.queued id before
  rcases step_seq_cases effect id with
    ⟨tok, assigned, _, same⟩ | ⟨_, _, e, _, _, _, same⟩ | ⟨_, _, same⟩
  · have unfinished := live.active
    rw [same, decoded_form_done _ tok (consistent.active id before)] at unfinished
    rw [same, decoded_form_running unfinished, assigned_answer assigned]
    exact follows_answer follows
  · rw [same]
    exact follows_advance follows e.nTokens
  · rw [same]
    exact follows

theorem generated_step_complete {d after : Driver cfg} (consistent : Consistent d)
    (tracked : Tracked d) (generated : Generated next d) {newTokens : List Int}
    (answers : Answers next d (.stepComplete newTokens))
    (moved : d.step clock (.stepComplete newTokens) = some after) : Generated next after := by
  obtain ⟨batch, ⟨sched, callbacks⟩, pending, stepped, rfl⟩ := step_step_complete moved
  have distinct := (consistent.pending batch pending).distinct
  obtain rfl := answers batch pending
  have effect := step_complete_effect distinct stepped
  constructor
  · intro id queued
    exact follows_step_complete consistent tracked generated distinct effect queued
  · intro id tokens member
    dsimp only at member ⊢
    rw [completions_append, List.mem_append] at member
    rcases member with old | new
    · obtain ⟨promptTokens, maxNewTokens, eosTokenId, accepted, all⟩ :=
        generated.completed id tokens old
      exact ⟨promptTokens, maxNewTokens, eosTokenId, List.mem_append_left _ accepted, all⟩
    · have called : (id, tokens) ∈ callbacks := by simpa [completions] using new
      obtain ⟨tok, assigned, finished, rfl⟩ := (step_callback_iff effect id tokens).mp called
      obtain ⟨e, inBatch, _, owner⟩ := assigned_seq_mem assigned
      have queued : id ∈ d.sched.waiting ++ d.sched.running :=
        List.mem_append_right _ (owner ▸ effect.owned e inBatch : (id, tok).1 ∈ d.sched.running)
      have live := tracked.live id queued
      have ends := finishes_ends_well live finished
      obtain rfl := assigned_answer assigned
      exact ⟨_, _, _, List.mem_append_left _ live.accepted,
        generate_eq_continuation ends (follows_answer (generated.queued id queued))⟩

theorem generated_reached {d : Driver cfg} (reached : Driver.Reached clock (Answers next) d) :
    Generated next d := by
  apply reaches_invariant generated_create _ reached
  intro before call after prior generated meets moved
  have consistent := consistent_reached prior
  cases call with
  | addRequest promptTokens maxNewTokens eosTokenId =>
      exact generated_add_request consistent generated moved
  | abortRequest seqId => exact generated_abort_request consistent generated moved
  | schedule => exact generated_schedule consistent generated moved
  | stepComplete newTokens =>
      exact generated_step_complete consistent (tracked_reached answers_asks prior) generated meets
        moved

/-- Every completion of any run, whatever else the scheduler served, aborted or preempted. -/
theorem completions_are_generated {d : Driver cfg}
    (reached : Driver.Reached clock (Answers next) d) {id : Int} {tokens : List Int}
    (completed : (id, tokens) ∈ completions d.log) :
    ∃ promptTokens maxNewTokens eosTokenId,
      Event.accepted id promptTokens maxNewTokens eosTokenId ∈ d.log ∧
        tokens = generate next promptTokens maxNewTokens eosTokenId :=
  (generated_reached reached).completed id tokens completed

/-- The first of two requests is preempted while the second goes on. -/
theorem completions_are_generated_after_preemption :
    let d := (runCalls (Driver.step tickingClock) (Answers List.sum)
      (Driver.create { kvPageSizeTokens := 1, maxPagesTotal := 4 })
      [.addRequest [7] 3 (-1), .addRequest [5] 3 10, .schedule, .stepComplete [],
        .schedule, .stepComplete [7, 5], .schedule, .stepComplete [10]]).get (by decide)
    ∃ promptTokens maxNewTokens eosTokenId,
      Event.accepted 1 promptTokens maxNewTokens eosTokenId ∈ d.log ∧
        [5, 10] = generate List.sum promptTokens maxNewTokens eosTokenId := by
  intro d
  exact completions_are_generated (d := d) (reaches_of_run_get _ (by decide)) (by decide)

/-! ## The loop -/

/-- Every round of the loop feeds back the answers to its batch. -/
def RoundsAnswered (next : List Int → Int) (clock : Clock) : Driver cfg → List (List Int) → Prop
  | _, [] => True
  | d, newTokens :: rest => ∀ planned ∈ d.step clock .schedule,
      Answers next planned (.stepComplete newTokens) ∧
        ∀ after ∈ planned.step clock (.stepComplete newTokens),
          RoundsAnswered next clock after rest

theorem submits_answers (d : Driver cfg) (call : Call) (meets : Submits d call) :
    Answers next d call := by
  cases call with
  | addRequest promptTokens maxNewTokens eosTokenId => exact meets.2
  | abortRequest seqId => trivial
  | schedule => trivial
  | stepComplete newTokens => exact meets.elim

theorem loop_round_accepted {d after : Driver cfg} {newTokens : List Int}
    (round : loopRound clock d newTokens = some after) {id : Int} {promptTokens : List Int}
    {maxNewTokens eosTokenId : Int} :
    Event.accepted id promptTokens maxNewTokens eosTokenId ∈ after.log ↔
      Event.accepted id promptTokens maxNewTokens eosTokenId ∈ d.log := by
  obtain ⟨planned, moved, stepped⟩ := Option.bind_eq_some_iff.mp round
  obtain ⟨_, rfl⟩ := step_schedule moved
  obtain ⟨batch, result, _, _, rfl⟩ := step_step_complete stepped
  simp

/-- The rounds are calls of a run in which every batch is answered. -/
theorem loop_rounds_answered (rounds : List (List Int)) {d final : Driver cfg}
    (reached : Driver.Reached clock (Answers next) d)
    (answered : RoundsAnswered next clock d rounds)
    (executed : loopRounds clock d rounds = some final) :
    Driver.Reached clock (Answers next) final ∧
      ∀ id promptTokens maxNewTokens eosTokenId,
        Event.accepted id promptTokens maxNewTokens eosTokenId ∈ final.log ↔
          Event.accepted id promptTokens maxNewTokens eosTokenId ∈ d.log := by
  induction rounds generalizing d with
  | nil =>
      cases executed
      exact ⟨reached, fun _ _ _ _ => Iff.rfl⟩
  | cons newTokens rest ih =>
      obtain ⟨after, round, later⟩ := Option.bind_eq_some_iff.mp executed
      obtain ⟨planned, moved, stepped⟩ := Option.bind_eq_some_iff.mp round
      obtain ⟨answers, answeredLater⟩ := answered planned moved
      have plannedReached := Reaches.call reached .schedule trivial moved
      have afterReached := Reaches.call plannedReached (.stepComplete newTokens) answers stepped
      obtain ⟨finalReached, same⟩ := ih afterReached (answeredLater after stepped) later
      refine ⟨finalReached, ?_⟩
      intro id promptTokens maxNewTokens eosTokenId
      rw [same]
      exact loop_round_accepted round

theorem accepted_once {pages : Nat} {log : List (Event pages)} (distinct : (acceptedIds log).Nodup)
    {id : Int} {promptTokens promptTokens' : List Int}
    {maxNewTokens maxNewTokens' eosTokenId eosTokenId' : Int}
    (first : Event.accepted id promptTokens maxNewTokens eosTokenId ∈ log)
    (second : Event.accepted id promptTokens' maxNewTokens' eosTokenId' ∈ log) :
    promptTokens = promptTokens' ∧ maxNewTokens = maxNewTokens' ∧ eosTokenId = eosTokenId' := by
  unfold acceptedIds at distinct
  rw [List.Nodup, List.pairwise_filterMap, List.pairwise_iff_getElem] at distinct
  obtain ⟨i, insideI, here⟩ := List.getElem_of_mem first
  obtain ⟨j, insideJ, there⟩ := List.getElem_of_mem second
  rcases Nat.lt_trichotomy i j with earlier | rfl | later
  · exact absurd rfl (distinct i j insideI insideJ earlier id (by rw [here]) id (by rw [there]))
  · cases here.symm.trans there
    exact ⟨rfl, rfl, rfl⟩
  · exact absurd rfl (distinct j i insideJ insideI later id (by rw [there]) id (by rw [here]))

/-- Requests submitted before the first round, with room for all of them: after one round for
each prompt token and each token asked for, every one of them has its generated tokens. -/
theorem driver_loop_generates (limits : PositiveLimits cfg) {d : Driver cfg}
    (reached : Reaches (Driver.step clock) Submits (Driver.create cfg) d)
    (enough : pagesDemanded cfg (acceptedRequests d.log) ≤ cfg.maxPagesTotal)
    (rounds : List (List Int)) (quiet : NothingExpires clock d rounds)
    (answered : RoundsAnswered next clock d rounds)
    (long : roundsDemanded (acceptedRequests d.log) ≤ rounds.length) :
    ∃ final, loopRounds clock d rounds = some final ∧
      ∀ id promptTokens maxNewTokens eosTokenId,
        Event.accepted id promptTokens maxNewTokens eosTokenId ∈ d.log →
          (id, generate next promptTokens maxNewTokens eosTokenId) ∈ completions final.log := by
  have submitted := submitted_reached reached
  obtain ⟨final, executed, track, bound⟩ := on_track_rounds limits rounds
    (submitted_on_track limits reached enough) submitted.idle quiet
  have work := submitted_work submitted
  rw [← submitted.accepted] at work
  obtain ⟨finalReached, same⟩ :=
    loop_rounds_answered rounds (reaches_weaken submits_answers reached) answered executed
  refine ⟨final, executed, ?_⟩
  intro id promptTokens maxNewTokens eosTokenId accepted
  have known : Event.accepted id promptTokens maxNewTokens eosTokenId ∈ final.log :=
    (same id promptTokens maxNewTokens eosTokenId).mpr accepted
  have listed : id ∈ acceptedIds final.log := List.mem_filterMap.mpr ⟨_, known, rfl⟩
  obtain ⟨⟨_, tokens⟩, completed, rfl⟩ :=
    List.mem_map.mp (on_track_completed track (by omega) id listed)
  obtain ⟨promptTokens', maxNewTokens', eosTokenId', accepted', all⟩ :=
    (generated_reached finalReached).completed _ tokens completed
  obtain ⟨rfl, rfl, rfl⟩ := accepted_once
    (tracked_reached answers_asks finalReached).distinct known accepted'
  rw [← all]
  exact completed

instance roundsAnsweredDecidable (next : List Int → Int) (clock : Clock) :
    ∀ (d : Driver cfg) (rounds : List (List Int)), Decidable (RoundsAnswered next clock d rounds)
  | _, [] => inferInstanceAs (Decidable True)
  | d, newTokens :: rest =>
      letI (after : Driver cfg) : Decidable (RoundsAnswered next clock after rest) :=
        roundsAnsweredDecidable next clock after rest
      inferInstanceAs (Decidable (∀ planned ∈ d.step clock .schedule,
        Answers next planned (.stepComplete newTokens) ∧
          ∀ after ∈ planned.step clock (.stepComplete newTokens),
            RoundsAnswered next clock after rest))

/-- Two requests in the pages they may need, the second ended by its first token. -/
theorem driver_loop_generates_two_requests :
    let d := (runCalls (Driver.step tickingClock) Submits
      (Driver.create { kvPageSizeTokens := 1, maxPagesTotal := 7 })
      [.addRequest [7, 7] 2 (-1), .addRequest [5] 2 5]).get (by decide)
    ∃ final, loopRounds tickingClock d [[], [14, 5], [28], [], [], [], []] = some final ∧
      ∀ id promptTokens maxNewTokens eosTokenId,
        Event.accepted id promptTokens maxNewTokens eosTokenId ∈ d.log →
          (id, generate List.sum promptTokens maxNewTokens eosTokenId) ∈
            completions final.log := by
  intro d
  exact driver_loop_generates (d := d) (by constructor <;> decide)
    (reaches_of_run_get _ (by decide)) (by decide +kernel)
    [[], [14, 5], [28], [], [], [], []] (by decide +kernel) (by decide +kernel) (by decide +kernel)

end AmpFormal.SchedulerGeneration
