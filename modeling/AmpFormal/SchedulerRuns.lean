import AmpFormal.ScheduleEffects
import AmpFormal.StepCompleteEffects
import AmpFormal.TransitionRuns

/-!
# Runs of the scheduler and what its caller sees

A `Driver` is a scheduler together with the batch that was scheduled last and
not yet completed, and the log of everything that passed between the scheduler
and its caller: ids handed out, aborts that found their request, batches,
tokens fed back, completion callbacks. Two observations of the state are logged
with the call that causes them: which running sequences a `schedule` preempted,
and which ones a `step_complete` moved to DECODE.
-/

namespace AmpFormal.SchedulerRuns

open AmpFormal.PagePoolFastModel AmpFormal.SchedulerModel AmpFormal.SchedulerModel.Scheduler
open AmpFormal.ScheduleEffects AmpFormal.StepCompleteEffects AmpFormal.TransitionRuns

set_option autoImplicit false

inductive Call where
  | addRequest (promptTokens : List Int) (maxNewTokens eosTokenId : Int)
  | abortRequest (seqId : Int)
  | schedule
  | stepComplete (newTokens : List Int)
  deriving DecidableEq, Repr

def Call.AsksTokens : Call → Prop
  | .addRequest _ maxNewTokens _ => 1 ≤ maxNewTokens
  | _ => True

inductive Event (pages : Nat) where
  | accepted (id : Int) (promptTokens : List Int) (maxNewTokens eosTokenId : Int)
  | rejected
  | aborted (id : Int) (released : List (Fin pages))
  | scheduled (batch : ScheduledBatch) (preempted : List Int)
  | stepped (batch : ScheduledBatch) (newTokens : List Int)
      (callbacks : List (Int × List Int)) (entered : List Int)
  deriving DecidableEq

structure Driver (cfg : SchedulerConfig) where
  sched : Scheduler cfg
  pending : Option ScheduledBatch
  log : List (Event cfg.pages)

namespace Driver

variable {cfg : SchedulerConfig}

def create (cfg : SchedulerConfig) : Driver cfg where
  sched := Scheduler.create cfg
  pending := none
  log := []

/-- The running sequences that changed from one state to another. -/
def changedState (before after : Scheduler cfg) (source target : SeqState) : List Int :=
  before.running.filter fun id => before.inState source id && after.inState target id

/-- One call. `schedule` and `step_complete` alternate; a `step_complete` that
would use freed memory has no successor. -/
def step (clock : Clock) (d : Driver cfg) : Call → Option (Driver cfg)
  | .addRequest promptTokens maxNewTokens eosTokenId =>
      let added := d.sched.addRequest promptTokens maxNewTokens eosTokenId
      some { d with
        sched := added.1
        log := d.log ++ [match added.2 with
          | some id => .accepted id promptTokens maxNewTokens eosTokenId
          | none => .rejected] }
  | .abortRequest seqId =>
      let found := seqId ∈ d.sched.waiting ++ d.sched.running ++ d.sched.swapped
      some { d with
        sched := d.sched.abortRequest seqId
        log := if found then d.log ++ [.aborted seqId (d.sched.seqs seqId).kvPageIds] else d.log }
  | .schedule =>
      match d.pending with
      | some _ => none
      | none =>
          let planned := d.sched.schedule clock
          some { sched := planned.1
                 pending := some planned.2
                 log := d.log ++ [.scheduled planned.2
                   (changedState d.sched planned.1 .decode .waiting)] }
  | .stepComplete newTokens =>
      match d.pending with
      | none => none
      | some batch =>
          match d.sched.stepComplete clock batch newTokens with
          | none => none
          | some result =>
              some { sched := result.1
                     pending := none
                     log := d.log ++ [.stepped batch newTokens result.2
                       (changedState d.sched result.1 .prefill .decode)] }

/-- A batch that still waits for its `step_complete` names the sequence. -/
def inPending (d : Driver cfg) (id : Int) : Prop :=
  ∃ batch, d.pending = some batch ∧ id ∈ batch.entries.map BatchEntry.seq

def SafeAbort (d : Driver cfg) : Call → Prop
  | .abortRequest seqId => ¬d.inPending seqId
  | _ => True

/-- No abort falls between a `schedule` and its `step_complete`. -/
def AbortsIdle (d : Driver cfg) : Call → Prop
  | .abortRequest _ => d.pending = none
  | _ => True

instance abortsIdleDecidable (d : Driver cfg) : ∀ call, Decidable (AbortsIdle d call)
  | .addRequest _ _ _ => inferInstanceAs (Decidable True)
  | .abortRequest _ => inferInstanceAs (Decidable (d.pending = none))
  | .schedule => inferInstanceAs (Decidable True)
  | .stepComplete _ => inferInstanceAs (Decidable True)

/-- The states reached by runs whose calls are all `allowed`. -/
abbrev Reached (clock : Clock) (allowed : Driver cfg → Call → Prop) (d : Driver cfg) : Prop :=
  Reaches (step clock) allowed (create cfg) d

end Driver

/-! ## What each call does to a driver -/

section Calls

variable {cfg : SchedulerConfig} {clock : Clock}

/-- `add_request` takes the next id in any case and queues `added`, which is
that id or nothing. -/
structure AddEffect (d : Driver cfg) (promptTokens : List Int) (maxNewTokens eosTokenId : Int)
    (after : Driver cfg) (added : List Int) (event : Event cfg.pages) : Prop where
  pending : after.pending = d.pending
  log : after.log = d.log ++ [event]
  waiting : after.sched.waiting = d.sched.waiting ++ added
  running : after.sched.running = d.sched.running
  swapped : after.sched.swapped = d.sched.swapped
  nextId : after.sched.nextId = d.sched.nextId + 1
  kvPool : after.sched.kvPool = d.sched.kvPool
  ticks : after.sched.ticks = d.sched.ticks
  other_seq : ∀ id, id ≠ d.sched.nextId → after.sched.seqs id = d.sched.seqs id
  outcome : (added = [] ∧ event = .rejected) ∨
    (added = [d.sched.nextId] ∧
      event = .accepted d.sched.nextId promptTokens maxNewTokens eosTokenId ∧
      after.sched.seqs d.sched.nextId = { promptTokens, maxNewTokens, eosTokenId })

theorem step_add_request {d after : Driver cfg} {promptTokens : List Int}
    {maxNewTokens eosTokenId : Int}
    (moved : d.step clock (.addRequest promptTokens maxNewTokens eosTokenId) = some after) :
    ∃ added event, AddEffect d promptTokens maxNewTokens eosTokenId after added event := by
  simp only [Driver.step, Option.some.injEq] at moved
  subst moved
  by_cases full : (d.sched.waiting.length : Int) ≥ cfg.maxWaitingSeqs
  · refine ⟨[], .rejected, ?_⟩
    simp only [Scheduler.addRequest, full, if_true]
    exact ⟨rfl, rfl, (List.append_nil _).symm, rfl, rfl, rfl, rfl, rfl, fun _ _ => rfl,
      Or.inl ⟨rfl, rfl⟩⟩
  · refine ⟨[d.sched.nextId], .accepted d.sched.nextId promptTokens maxNewTokens eosTokenId, ?_⟩
    simp only [Scheduler.addRequest, full, if_false]
    exact ⟨rfl, rfl, rfl, rfl, rfl, rfl, rfl, rfl,
      fun id different => Function.update_of_ne different _ _,
      Or.inr ⟨rfl, rfl, Function.update_self _ _ _⟩⟩

theorem add_effect_waiting {d after : Driver cfg} {promptTokens : List Int}
    {maxNewTokens eosTokenId : Int} {added : List Int} {event : Event cfg.pages}
    (effect : AddEffect d promptTokens maxNewTokens eosTokenId after added event) {id : Int}
    (member : id ∈ after.sched.waiting) :
    id ∈ d.sched.waiting ∨ (id = d.sched.nextId ∧
      event = .accepted d.sched.nextId promptTokens maxNewTokens eosTokenId ∧
      after.sched.seqs d.sched.nextId = { promptTokens, maxNewTokens, eosTokenId }) := by
  rw [effect.waiting, List.mem_append] at member
  rcases member with old | new
  · exact Or.inl old
  · rcases effect.outcome with ⟨nothing, _⟩ | ⟨one, accepted, sequence⟩
    · rw [nothing] at new
      cases new
    · rw [one, List.mem_singleton] at new
      exact Or.inr ⟨new, accepted, sequence⟩

theorem add_effect_queued {d after : Driver cfg} {promptTokens : List Int}
    {maxNewTokens eosTokenId : Int} {added : List Int} {event : Event cfg.pages}
    (effect : AddEffect d promptTokens maxNewTokens eosTokenId after added event) {id : Int}
    (queued : id ∈ after.sched.waiting ++ after.sched.running) :
    id ∈ d.sched.waiting ++ d.sched.running ∨ (id = d.sched.nextId ∧
      event = .accepted d.sched.nextId promptTokens maxNewTokens eosTokenId ∧
      after.sched.seqs d.sched.nextId = { promptTokens, maxNewTokens, eosTokenId }) := by
  rcases List.mem_append.mp queued with waiting | running
  · exact (add_effect_waiting effect waiting).imp_left (List.mem_append_left _)
  · rw [effect.running] at running
    exact Or.inl (List.mem_append_right _ running)

theorem add_effect_event {d after : Driver cfg} {promptTokens : List Int}
    {maxNewTokens eosTokenId : Int} {added : List Int} {event : Event cfg.pages}
    (effect : AddEffect d promptTokens maxNewTokens eosTokenId after added event)
    {motive : Event cfg.pages → Prop} (rejected : motive .rejected)
    (accepted : ∀ id promptTokens maxNewTokens eosTokenId,
      motive (.accepted id promptTokens maxNewTokens eosTokenId)) : motive event := by
  rcases effect.outcome with ⟨_, rfl⟩ | ⟨_, rfl, _⟩
  · exact rejected
  · exact accepted _ _ _ _

theorem add_effect_accepted {d after : Driver cfg} {promptTokens : List Int}
    {maxNewTokens eosTokenId : Int} {added : List Int} {event : Event cfg.pages}
    (effect : AddEffect d promptTokens maxNewTokens eosTokenId after added event) {id : Int}
    {prompt : List Int} {maxNew eos : Int}
    (member : Event.accepted id prompt maxNew eos ∈ after.log) :
    Event.accepted id prompt maxNew eos ∈ d.log ∨
      (id = d.sched.nextId ∧ (after.sched.seqs d.sched.nextId).promptTokens = prompt) := by
  rw [effect.log, List.mem_append, List.mem_singleton] at member
  rcases member with old | new
  · exact Or.inl old
  · rcases effect.outcome with ⟨_, rejected⟩ | ⟨_, accepted, sequence⟩
    · cases new.trans rejected
    · cases new.trans accepted
      exact Or.inr ⟨rfl, by rw [sequence]⟩

theorem add_effect_reads {Item : Type} {d after : Driver cfg} {promptTokens : List Int}
    {maxNewTokens eosTokenId : Int} {added : List Int} {event : Event cfg.pages}
    (effect : AddEffect d promptTokens maxNewTokens eosTokenId after added event)
    (read : Event cfg.pages → List Item) (rejected : read .rejected = [])
    (accepted : ∀ id promptTokens maxNewTokens eosTokenId,
      read (.accepted id promptTokens maxNewTokens eosTokenId) = []) :
    after.log.flatMap read = d.log.flatMap read := by
  have nothing := add_effect_event effect (motive := fun event => read event = []) rejected accepted
  rw [effect.log, List.flatMap_append, List.flatMap_singleton, nothing, List.append_nil]

theorem abort_sequence_seqs (st : Scheduler cfg) (id : Int) :
    (st.abortSequence id).seqs = Function.update st.seqs id
      { st.seqs id with state := .aborted, kvPageIds := [] } := by
  simp only [abortSequence, setSeq, free_pages_seqs, Function.update_idem, Function.update_self]
  rfl

theorem abort_sequence_same_queues (st : Scheduler cfg) (id : Int) :
    SameQueues st (st.abortSequence id) := by
  have freed := free_pages_same_queues st id
  exact ⟨freed.waiting, freed.running, freed.swapped, freed.nextId, freed.totalRequests,
    freed.completed⟩

/-- Removing an id from the queues. With the queues disjoint this is all that
`abort_request` does to them. -/
structure AbortEffect (before : Scheduler cfg) (seqId : Int) (after : Scheduler cfg) : Prop where
  waiting : after.waiting = before.waiting.erase seqId
  running : after.running = before.running.erase seqId
  swapped : after.swapped = before.swapped
  nextId : after.nextId = before.nextId
  totalRequests : after.totalRequests = before.totalRequests
  completed : after.completed = before.completed
  other_seq : ∀ id, id ≠ seqId → after.seqs id = before.seqs id

theorem abort_effect_queued {before after : Scheduler cfg} {seqId id : Int}
    (effect : AbortEffect before seqId after) (queued : id ∈ after.waiting ++ after.running) :
    id ∈ before.waiting ++ before.running := by
  rw [effect.waiting, effect.running] at queued
  rcases List.mem_append.mp queued with waiting | running
  · exact List.mem_append_left _ (List.mem_of_mem_erase waiting)
  · exact List.mem_append_right _ (List.mem_of_mem_erase running)

theorem abort_effect_left {before after : Scheduler cfg} {seqId id : Int}
    (effect : AbortEffect before seqId after)
    (distinct : (before.waiting ++ before.running).Nodup)
    (queued : id ∈ after.waiting ++ after.running) : id ≠ seqId := by
  rw [effect.waiting, effect.running, List.mem_append] at queued
  rcases List.nodup_append.mp distinct with ⟨waitingDistinct, runningDistinct, _⟩
  rw [waitingDistinct.mem_erase_iff, runningDistinct.mem_erase_iff] at queued
  exact queued.elim And.left And.left

theorem abort_request_effect (st : Scheduler cfg) (seqId : Int) (unswapped : st.swapped = [])
    (distinct : (st.waiting ++ st.running).Nodup) :
    AbortEffect st seqId (st.abortRequest seqId) ∧
      ((seqId ∉ st.waiting ++ st.running ∧ st.abortRequest seqId = st) ∨
       (seqId ∈ st.waiting ++ st.running ∧
        (st.abortRequest seqId).kvPool = (st.abortSequence seqId).kvPool ∧
        (st.abortRequest seqId).ticks = (st.abortSequence seqId).ticks ∧
        (st.abortRequest seqId).seqs = (st.abortSequence seqId).seqs)) := by
  have queues := abort_sequence_same_queues st seqId
  have seqs := abort_sequence_seqs st seqId
  have otherSeq : ∀ id, id ≠ seqId → (st.abortSequence seqId).seqs id = st.seqs id := by
    intro id different
    rw [seqs, Function.update_of_ne different]
  by_cases inWaiting : seqId ∈ st.waiting
  · have notRunning : seqId ∉ st.running := by
      intro inRunning
      exact (List.nodup_append.mp distinct).2.2 seqId inWaiting seqId inRunning rfl
    have result : st.abortRequest seqId =
        { st.abortSequence seqId with waiting := st.waiting.erase seqId } := by
      simp [abortRequest, inWaiting, queues.running, queues.swapped, notRunning, unswapped]
    rw [result]
    refine ⟨⟨rfl, ?_, queues.swapped, queues.nextId, queues.totalRequests, queues.completed,
      otherSeq⟩, Or.inr ⟨by simp [inWaiting], rfl, rfl, rfl⟩⟩
    rw [List.erase_of_not_mem notRunning]
    exact queues.running
  · by_cases inRunning : seqId ∈ st.running
    · have result : st.abortRequest seqId =
          { st.abortSequence seqId with running := st.running.erase seqId } := by
        simp [abortRequest, inWaiting, inRunning, queues.swapped, unswapped]
      rw [result]
      refine ⟨⟨?_, rfl, queues.swapped, queues.nextId, queues.totalRequests, queues.completed,
        otherSeq⟩, Or.inr ⟨by simp [inRunning], rfl, rfl, rfl⟩⟩
      rw [List.erase_of_not_mem inWaiting]
      exact queues.waiting
    · have result : st.abortRequest seqId = st := by
        simp [abortRequest, inWaiting, inRunning, unswapped]
      rw [result]
      refine ⟨⟨?_, ?_, rfl, rfl, rfl, rfl, fun _ _ => rfl⟩,
        Or.inl ⟨by simp [inWaiting, inRunning], rfl⟩⟩
      · rw [List.erase_of_not_mem inWaiting]
      · rw [List.erase_of_not_mem inRunning]

theorem step_abort_request {d after : Driver cfg} {seqId : Int} (unswapped : d.sched.swapped = [])
    (moved : d.step clock (.abortRequest seqId) = some after) :
    after.sched = d.sched.abortRequest seqId ∧ after.pending = d.pending ∧
      ((seqId ∉ d.sched.waiting ++ d.sched.running ∧ after.log = d.log) ∨
       (seqId ∈ d.sched.waiting ++ d.sched.running ∧
        after.log = d.log ++ [.aborted seqId (d.sched.seqs seqId).kvPageIds])) := by
  simp only [Driver.step, unswapped, List.append_nil, Option.some.injEq] at moved
  subst moved
  refine ⟨rfl, rfl, ?_⟩
  by_cases found : seqId ∈ d.sched.waiting ++ d.sched.running
  · right
    exact ⟨found, if_pos found⟩
  · left
    exact ⟨found, if_neg found⟩

theorem step_abort_reads {Item : Type} {d after : Driver cfg} {seqId : Int}
    (unswapped : d.sched.swapped = [])
    (moved : d.step clock (.abortRequest seqId) = some after) (read : Event cfg.pages → List Item)
    (aborted : ∀ id pages, read (.aborted id pages) = []) :
    after.log.flatMap read = d.log.flatMap read := by
  rcases step_abort_request unswapped moved with ⟨_, _, ⟨_, log⟩ | ⟨_, log⟩⟩
  · rw [log]
  · rw [log, List.flatMap_append, List.flatMap_singleton, aborted, List.append_nil]

theorem step_abort_events {d after : Driver cfg} {seqId : Int} (unswapped : d.sched.swapped = [])
    (moved : d.step clock (.abortRequest seqId) = some after) {event : Event cfg.pages}
    (different : ∀ id pages, event ≠ .aborted id pages) (member : event ∈ after.log) :
    event ∈ d.log := by
  rcases step_abort_request unswapped moved with ⟨_, _, ⟨_, log⟩ | ⟨_, log⟩⟩
  · rwa [log] at member
  · rw [log, List.mem_append, List.mem_singleton] at member
    exact member.resolve_right (different _ _)

theorem step_schedule {d after : Driver cfg}
    (moved : d.step clock .schedule = some after) :
    d.pending = none ∧ after = { sched := (d.sched.schedule clock).1
                                 pending := some (d.sched.schedule clock).2
                                 log := d.log ++ [.scheduled (d.sched.schedule clock).2
                                   (Driver.changedState d.sched (d.sched.schedule clock).1
                                     .decode .waiting)] } := by
  cases pending : d.pending with
  | some batch => simp [Driver.step, pending] at moved
  | none =>
      simp only [Driver.step, pending, Option.some.injEq] at moved
      exact ⟨rfl, moved.symm⟩

theorem step_step_complete {d after : Driver cfg} {newTokens : List Int}
    (moved : d.step clock (.stepComplete newTokens) = some after) :
    ∃ batch result, d.pending = some batch ∧
      d.sched.stepComplete clock batch newTokens = some result ∧
      after = { sched := result.1
                pending := none
                log := d.log ++ [.stepped batch newTokens result.2
                  (Driver.changedState d.sched result.1 .prefill .decode)] } := by
  cases pending : d.pending with
  | none => simp [Driver.step, pending] at moved
  | some batch =>
      cases stepped : d.sched.stepComplete clock batch newTokens with
      | none => simp [Driver.step, pending, stepped] at moved
      | some result =>
          simp only [Driver.step, pending, stepped, Option.some.injEq] at moved
          exact ⟨batch, result, rfl, stepped, moved.symm⟩

end Calls

/-! ## The consistency every run keeps -/

/-- A batch whose `step_complete` is still to come. An entry whose sequence is
still in `running_` finds it as `schedule` left it. -/
structure PendingValid {cfg : SchedulerConfig} (st : Scheduler cfg) (batch : ScheduledBatch) :
    Prop where
  distinct : (batch.entries.map BatchEntry.seq).Nodup
  prefill : ∀ e ∈ batch.entries, e.seq ∈ st.running → e.isPrefill = true →
    (st.seqs e.seq).state = .prefill ∧ e.prefillStart = (st.seqs e.seq).prefillCursor ∧
      0 < e.nTokens ∧ e.nTokens ≤ (st.seqs e.seq).remainingPrefill
  decode : ∀ e ∈ batch.entries, e.seq ∈ st.running → e.isPrefill = false →
    (st.seqs e.seq).state = .decode

structure Consistent {cfg : SchedulerConfig} (d : Driver cfg) : Prop where
  unswapped : d.sched.swapped = []
  distinct : (d.sched.waiting ++ d.sched.running).Nodup
  fresh : ∀ id ∈ d.sched.waiting ++ d.sched.running, id < d.sched.nextId
  active : ∀ id ∈ d.sched.waiting ++ d.sched.running, (d.sched.seqs id).isDone = false
  pending : ∀ batch, d.pending = some batch → PendingValid d.sched batch

section Invariant

variable {cfg : SchedulerConfig} {clock : Clock}

/-- Calls that leave the remaining running sequences alone keep a pending batch
valid. -/
theorem pending_valid_frame {before after : Scheduler cfg} {batch : ScheduledBatch}
    (valid : PendingValid before batch)
    (same : ∀ e ∈ batch.entries, e.seq ∈ after.running →
      e.seq ∈ before.running ∧ after.seqs e.seq = before.seqs e.seq) :
    PendingValid after batch := by
  refine ⟨valid.distinct, ?_, ?_⟩
  · intro e member running kind
    rcases same e member running with ⟨owned, unchanged⟩
    rw [unchanged]
    exact valid.prefill e member owned kind
  · intro e member running kind
    rcases same e member running with ⟨owned, unchanged⟩
    rw [unchanged]
    exact valid.decode e member owned kind

theorem consistent_create : Consistent (Driver.create cfg) :=
  ⟨rfl, List.nodup_nil, by simp [Driver.create, Scheduler.create],
    by simp [Driver.create, Scheduler.create], by simp [Driver.create]⟩

theorem consistent_stranger {d : Driver cfg} (consistent : Consistent d) :
    d.sched.nextId ∉ d.sched.waiting ++ d.sched.running :=
  fun member => lt_irrefl _ (consistent.fresh _ member)

theorem add_effect_old_seq {d after : Driver cfg} (consistent : Consistent d)
    {promptTokens : List Int} {maxNewTokens eosTokenId : Int} {added : List Int}
    {event : Event cfg.pages}
    (effect : AddEffect d promptTokens maxNewTokens eosTokenId after added event) {id : Int}
    (queued : id ∈ d.sched.waiting ++ d.sched.running) :
    after.sched.seqs id = d.sched.seqs id :=
  effect.other_seq id fun same => consistent_stranger consistent (same ▸ queued)

theorem consistent_add_request {d after : Driver cfg} (consistent : Consistent d)
    {promptTokens : List Int} {maxNewTokens eosTokenId : Int}
    (moved : d.step clock (.addRequest promptTokens maxNewTokens eosTokenId) = some after) :
    Consistent after := by
  rcases step_add_request moved with ⟨added, event, effect⟩
  have stranger := consistent_stranger consistent
  refine ⟨effect.swapped.trans consistent.unswapped, ?_, ?_, ?_, ?_⟩
  · have whole := consistent.distinct
    rw [effect.waiting, effect.running, List.append_assoc]
    rcases effect.outcome with ⟨nothing, _⟩ | ⟨one, _⟩
    · rw [nothing]
      exact whole
    · rw [one]
      exact List.nodup_middle.mpr (List.nodup_cons.mpr ⟨stranger, whole⟩)
  · intro id queued
    rw [effect.nextId]
    rcases add_effect_queued effect queued with old | ⟨new, _⟩
    · exact (consistent.fresh id old).trans (lt_add_one _)
    · omega
  · intro id queued
    rcases add_effect_queued effect queued with old | ⟨new, _, sequence⟩
    · rw [add_effect_old_seq consistent effect old]
      exact consistent.active id old
    · rw [new, sequence]
      rfl
  · intro batch pending
    rw [effect.pending] at pending
    apply pending_valid_frame (consistent.pending batch pending)
    intro e _ running
    rw [effect.running] at running
    exact ⟨running, add_effect_old_seq consistent effect (List.mem_append_right _ running)⟩

theorem consistent_abort_request {d after : Driver cfg} (consistent : Consistent d) {seqId : Int}
    (moved : d.step clock (.abortRequest seqId) = some after) : Consistent after := by
  rcases step_abort_request consistent.unswapped moved with ⟨sched, samePending, _⟩
  have effect := (abort_request_effect d.sched seqId consistent.unswapped consistent.distinct).1
  rw [← sched] at effect
  refine ⟨effect.swapped.trans consistent.unswapped, ?_, ?_, ?_, ?_⟩
  · rw [effect.waiting, effect.running]
    exact consistent.distinct.sublist ((List.erase_sublist).append (List.erase_sublist))
  · intro id member
    rw [effect.nextId]
    exact consistent.fresh id (abort_effect_queued effect member)
  · intro id member
    have different := abort_effect_left effect consistent.distinct member
    rw [effect.other_seq id different]
    exact consistent.active id (abort_effect_queued effect member)
  · intro batch pending
    rw [samePending] at pending
    apply pending_valid_frame (consistent.pending batch pending)
    intro e _ running
    have distinctRunning := (List.nodup_append.mp consistent.distinct).2.1
    rw [effect.running, distinctRunning.mem_erase_iff] at running
    exact ⟨running.2, effect.other_seq e.seq running.1⟩

theorem schedule_effect_pending {before after : Scheduler cfg} {batch : ScheduledBatch}
    {admitted preempted : List Int}
    (effect : ScheduleEffect before after batch admitted preempted) : PendingValid after batch := by
  refine ⟨effect.entries_nodup, ?_, ?_⟩
  · intro e member _ kind
    exact (effect.entry_prefill e member kind).2
  · intro e member _ kind
    exact (effect.entry_decode e member kind).2.1

theorem consistent_schedule {d after : Driver cfg} (consistent : Consistent d)
    (moved : d.step clock .schedule = some after) : Consistent after := by
  rcases step_schedule moved with ⟨_, rfl⟩
  rcases schedule_effect clock d.sched consistent.distinct with
    ⟨admitted, preempted, effect⟩
  have moves := schedule_queues_perm effect
  refine ⟨effect.swapped.trans consistent.unswapped, moves.nodup_iff.mp consistent.distinct,
    ?_, ?_, ?_⟩
  · intro id member
    change id < (d.sched.schedule clock).1.nextId
    rw [effect.nextId]
    exact consistent.fresh id (moves.mem_iff.mpr member)
  · intro id member
    change ((d.sched.schedule clock).1.seqs id).isDone = false
    rcases schedule_seq_cases effect id with
      ⟨_, _, _, same⟩ | ⟨_, _, ids, same⟩ | ⟨_, _, ids, same⟩
    · rw [same]
      rfl
    · rw [same]
      rfl
    · rw [same]
      exact consistent.active id (moves.mem_iff.mpr member)
  · intro batch pending
    cases pending
    exact schedule_effect_pending effect

theorem consistent_step_complete {d after : Driver cfg} (consistent : Consistent d)
    {newTokens : List Int} (moved : d.step clock (.stepComplete newTokens) = some after) :
    Consistent after := by
  rcases step_step_complete moved with ⟨batch, ⟨sched, callbacks⟩, pending, stepped, rfl⟩
  have effect := step_complete_effect (consistent.pending batch pending).distinct stepped
  refine ⟨effect.swapped.trans consistent.unswapped, ?_, ?_, ?_, by simp⟩
  · change (sched.waiting ++ sched.running).Nodup
    rw [effect.waiting, effect.running]
    exact consistent.distinct.sublist ((List.Sublist.refl _).append List.filter_sublist)
  · intro id member
    change id < sched.nextId
    change id ∈ sched.waiting ++ sched.running at member
    rw [effect.waiting, effect.running] at member
    rw [effect.nextId]
    apply consistent.fresh id
    rcases List.mem_append.mp member with waiting | running
    · exact List.mem_append_left _ waiting
    · exact List.mem_append_right _ (List.mem_of_mem_filter running)
  · intro id member
    change id ∈ sched.waiting ++ sched.running at member
    change (sched.seqs id).isDone = false
    rw [effect.waiting, effect.running] at member
    rcases List.mem_append.mp member with waiting | kept
    · have unnamed : id ∉ batch.entries.map BatchEntry.seq := by
        intro named
        rcases List.mem_map.mp named with ⟨e, inBatch, rfl⟩
        exact (List.nodup_append.mp consistent.distinct).2.2 e.seq waiting e.seq
          (effect.owned e inBatch) rfl
      rw [effect.other_seq id unnamed]
      exact consistent.active id (List.mem_append_left _ waiting)
    · simpa using (List.mem_filter.mp kept).2

theorem consistent_step {d after : Driver cfg} (consistent : Consistent d) {call : Call}
    (moved : d.step clock call = some after) : Consistent after := by
  cases call with
  | addRequest promptTokens maxNewTokens eosTokenId => exact consistent_add_request consistent moved
  | abortRequest seqId => exact consistent_abort_request consistent moved
  | schedule => exact consistent_schedule consistent moved
  | stepComplete newTokens => exact consistent_step_complete consistent moved

theorem consistent_reached {allowed : Driver cfg → Call → Prop} {d : Driver cfg}
    (reached : Driver.Reached clock allowed d) : Consistent d :=
  reaches_invariant consistent_create
    (fun _ _ _ _ consistent _ moved => consistent_step consistent moved) reached

end Invariant

end AmpFormal.SchedulerRuns
