import AmpFormal.IntervalTiling
import AmpFormal.SchedulerRuns

/-!
# Chunked prefill

The prefill entries a sequence receives tile its prompt from the start, and the
sequence enters DECODE when the chunks processed so far reach the end of the
prompt. A sequence with an empty prompt never gets a chunk, so it never enters
DECODE although nothing is left to process.
-/

namespace AmpFormal.SchedulerPrefill

open AmpFormal.IntervalTiling AmpFormal.SchedulerModel AmpFormal.SchedulerModel.Scheduler
open AmpFormal.ScheduleEffects AmpFormal.StepCompleteEffects
open AmpFormal.TransitionRuns AmpFormal.SchedulerRuns

set_option autoImplicit false

/-! ## Reading the log -/

section Log

variable {pages : Nat}

def batchChunks (id : Int) (batch : ScheduledBatch) : List (Int × Int) :=
  (batch.entries.filter fun e => e.isPrefill && e.seq == id).map
    fun e => (e.prefillStart, e.nTokens)

def issuedChunks (id : Int) (log : List (Event pages)) : List (Int × Int) :=
  log.flatMap fun
    | .scheduled batch _ => batchChunks id batch
    | _ => []

/-- The chunks of a sequence that `step_complete` has processed, in order. -/
def processedChunks (id : Int) (log : List (Event pages)) : List (Int × Int) :=
  log.flatMap fun
    | .stepped batch _ _ _ => batchChunks id batch
    | _ => []

def enteredIds (log : List (Event pages)) : List Int :=
  log.flatMap fun
    | .stepped _ _ _ entered => entered
    | _ => []

theorem issued_chunks_append (id : Int) (log : List (Event pages)) (event : Event pages) :
    issuedChunks id (log ++ [event]) = issuedChunks id log ++ issuedChunks id [event] :=
  List.flatMap_append

theorem processed_chunks_append (id : Int) (log : List (Event pages)) (event : Event pages) :
    processedChunks id (log ++ [event]) = processedChunks id log ++ processedChunks id [event] :=
  List.flatMap_append

theorem entered_ids_append (log : List (Event pages)) (event : Event pages) :
    enteredIds (log ++ [event]) = enteredIds log ++ enteredIds [event] :=
  List.flatMap_append

theorem batch_chunks_cases (id : Int) (batch : ScheduledBatch)
    (distinct : (batch.entries.map BatchEntry.seq).Nodup) :
    (∃ e ∈ batch.entries, e.seq = id ∧ e.isPrefill = true ∧
      batchChunks id batch = [(e.prefillStart, e.nTokens)]) ∨
    (batchChunks id batch = [] ∧ ∀ e ∈ batch.entries, e.seq = id → e.isPrefill = false) := by
  unfold batchChunks
  generalize batch.entries = entries at distinct
  induction entries with
  | nil => exact Or.inr ⟨rfl, by simp⟩
  | cons first rest ih =>
      rw [List.map_cons, List.nodup_cons] at distinct
      by_cases here : first.isPrefill = true ∧ first.seq = id
      · left
        have none_later : (rest.filter fun e => e.isPrefill && e.seq == id) = [] := by
          apply List.filter_eq_nil_iff.mpr
          intro e member
          have different : e.seq ≠ id := by
            intro same
            exact distinct.1 (here.2 ▸ same ▸ List.mem_map_of_mem member)
          simp [different]
        refine ⟨first, by simp, here.2, here.1, ?_⟩
        rw [List.filter_cons_of_pos (by simp [here]), none_later]
        rfl
      · have skipped : ((first :: rest).filter fun e => e.isPrefill && e.seq == id) =
            rest.filter fun e => e.isPrefill && e.seq == id :=
          List.filter_cons_of_neg (by simpa using here)
        rw [skipped]
        rcases ih distinct.2 with ⟨e, member, found⟩ | ⟨nothing, others⟩
        · exact Or.inl ⟨e, by simp [member], found⟩
        · right
          refine ⟨nothing, ?_⟩
          intro e member same
          rcases List.mem_cons.mp member with rfl | later
          · by_contra prefill
            exact here ⟨by simpa using prefill, same⟩
          · exact others e later same

end Log

/-! ## The property -/

/-- The decode entries of a sequence come after it entered DECODE. -/
def DecodesAfterEntering {pages : Nat} (log : List (Event pages)) (id : Int) : Prop :=
  ∀ before batch preempted after, log = before ++ .scheduled batch preempted :: after →
    ∀ e ∈ batch.entries, e.seq = id → e.isPrefill = false → id ∈ enteredIds before

/-- What the log says about the prefill of one accepted request. -/
structure PromptTiled {pages : Nat} (log : List (Event pages)) (id : Int)
    (promptTokens : List Int) : Prop where
  contiguous : ∃ reach : Int, Tiles 0 (issuedChunks id log) reach ∧ reach ≤ promptTokens.length
  enters : id ∈ enteredIds log ↔ Covers (processedChunks id log) 0 promptTokens.length
  decodes : DecodesAfterEntering log id

/-! ## The invariant -/

/-- A sequence that has not entered DECODE: its cursor is where the processed
chunks end. -/
structure Prefilling {pages : Nat} (log : List (Event pages)) (id : Int) (s : Sequence pages) :
    Prop where
  processed : Tiles 0 (processedChunks id log) s.prefillCursor
  short : s.prefillCursor = 0 ∨ s.prefillCursor < s.promptTokens.length
  outside : id ∉ enteredIds log

/-- A prompt of this length is processed and the sequence has entered DECODE. -/
structure Entered {pages : Nat} (log : List (Event pages)) (id : Int) (length : Int) : Prop where
  processed : Tiles 0 (processedChunks id log) length
  positive : 0 < length
  inside : id ∈ enteredIds log

/-- Either stage, for a request that may be gone from the queues. -/
def Settled {pages : Nat} (log : List (Event pages)) (id : Int) (length : Int) : Prop :=
  (∃ reach, Tiles 0 (processedChunks id log) reach ∧ (reach = 0 ∨ reach < length) ∧
    id ∉ enteredIds log) ∨ Entered log id length

def Stage {pages : Nat} (log : List (Event pages)) (id : Int) (s : Sequence pages) : Prop :=
  (s.state = .prefill ∧ Prefilling log id s) ∨
    (s.state ≠ .prefill ∧ Entered log id s.promptTokens.length)

def pendingChunks (id : Int) : Option ScheduledBatch → List (Int × Int)
  | some batch => batchChunks id batch
  | none => []

structure PrefillTracked {cfg : SchedulerConfig} (d : Driver cfg) : Prop where
  issued : ∀ id, issuedChunks id d.log = processedChunks id d.log ++ pendingChunks id d.pending
  born : ∀ id promptTokens maxNewTokens eosTokenId,
    Event.accepted id promptTokens maxNewTokens eosTokenId ∈ d.log → id < d.sched.nextId
  unborn : ∀ id, d.sched.nextId ≤ id → issuedChunks id d.log = [] ∧ id ∉ enteredIds d.log
  prompt : ∀ id ∈ d.sched.waiting ++ d.sched.running,
    ∀ promptTokens maxNewTokens eosTokenId,
      Event.accepted id promptTokens maxNewTokens eosTokenId ∈ d.log →
        promptTokens = (d.sched.seqs id).promptTokens
  waiting : ∀ id ∈ d.sched.waiting, Prefilling d.log id (d.sched.seqs id)
  running : ∀ id ∈ d.sched.running,
    ((d.sched.seqs id).state = .prefill ∧ Prefilling d.log id (d.sched.seqs id)) ∨
    ((d.sched.seqs id).state ≠ .prefill ∧
      Entered d.log id (d.sched.seqs id).promptTokens.length)
  settled : ∀ id promptTokens maxNewTokens eosTokenId,
    Event.accepted id promptTokens maxNewTokens eosTokenId ∈ d.log →
      Settled d.log id promptTokens.length
  bounded : ∀ id promptTokens maxNewTokens eosTokenId,
    Event.accepted id promptTokens maxNewTokens eosTokenId ∈ d.log →
      ∃ reach : Int, Tiles 0 (issuedChunks id d.log) reach ∧ reach ≤ promptTokens.length
  decodes : ∀ id, DecodesAfterEntering d.log id

theorem settled_enters_iff {pages : Nat} {log : List (Event pages)} {id length : Int}
    (settled : Settled log id length) (nonnegative : 0 ≤ length) :
    (id ∈ enteredIds log ↔ Covers (processedChunks id log) 0 length) ↔ 0 < length := by
  rcases settled with ⟨reach, tiles, short, outside⟩ | entered
  · rw [tiles_covers_iff tiles]
    constructor
    · intro exact_entry
      by_contra empty
      have start := tiles_le tiles
      exact outside (exact_entry.mpr (by omega))
    · intro positive
      constructor
      · intro inside
        exact absurd inside outside
      · intro covered
        omega
  · rw [tiles_covers_iff entered.processed]
    constructor
    · intro _
      exact entered.positive
    · intro _
      exact ⟨fun _ => le_refl _, fun _ => entered.inside⟩

/-! ## What the log keeps -/

section Frames

variable {pages : Nat} {log later : List (Event pages)} {id : Int}

theorem decodes_append {event : Event pages} (decodes : DecodesAfterEntering log id)
    (last : ∀ batch preempted, event = .scheduled batch preempted →
      ∀ e ∈ batch.entries, e.seq = id → e.isPrefill = false → id ∈ enteredIds log) :
    DecodesAfterEntering (log ++ [event]) id := by
  intro before batch preempted after whole e member same kind
  rcases List.eq_nil_or_concat after with rfl | ⟨shorter, final, rfl⟩
  · rcases List.append_inj' whole rfl with ⟨rfl, single⟩
    exact last batch preempted (List.singleton_inj.mp single) e member same kind
  · rw [List.concat_eq_append, ← List.cons_append, ← List.append_assoc] at whole
    exact decodes before batch preempted shorter (List.append_inj' whole rfl).1 e member same kind

theorem prefilling_frame {s changed : Sequence pages} (prefilling : Prefilling log id s)
    (processed : processedChunks id later = processedChunks id log)
    (entered : id ∈ enteredIds later ↔ id ∈ enteredIds log)
    (cursor : changed.prefillCursor = s.prefillCursor)
    (prompt : changed.promptTokens = s.promptTokens) : Prefilling later id changed := by
  refine ⟨?_, ?_, entered.not.mpr prefilling.outside⟩
  · rw [processed, cursor]
    exact prefilling.processed
  · rw [cursor, prompt]
    exact prefilling.short

theorem entered_frame {length : Int} (given : Entered log id length)
    (processed : processedChunks id later = processedChunks id log)
    (entered : id ∈ enteredIds later ↔ id ∈ enteredIds log) : Entered later id length :=
  ⟨processed ▸ given.processed, given.positive, entered.mpr given.inside⟩

theorem settled_frame {length : Int} (given : Settled log id length)
    (processed : processedChunks id later = processedChunks id log)
    (entered : id ∈ enteredIds later ↔ id ∈ enteredIds log) : Settled later id length := by
  rcases given with ⟨reach, tiles, short, outside⟩ | done
  · exact Or.inl ⟨reach, processed ▸ tiles, short, entered.not.mpr outside⟩
  · exact Or.inr (entered_frame done processed entered)

theorem stage_frame {s changed : Sequence pages} (stage : Stage log id s)
    (processed : processedChunks id later = processedChunks id log)
    (entered : id ∈ enteredIds later ↔ id ∈ enteredIds log)
    (cursor : changed.prefillCursor = s.prefillCursor)
    (prompt : changed.promptTokens = s.promptTokens)
    (state : changed.state = .prefill ↔ s.state = .prefill) : Stage later id changed := by
  rcases stage with ⟨here, prefilling⟩ | ⟨past, done⟩
  · exact Or.inl ⟨state.mpr here, prefilling_frame prefilling processed entered cursor prompt⟩
  · refine Or.inr ⟨state.not.mpr past, ?_⟩
    rw [prompt]
    exact entered_frame done processed entered

theorem stage_settled {s : Sequence pages} (stage : Stage log id s) :
    Settled log id s.promptTokens.length := by
  rcases stage with ⟨_, prefilling⟩ | ⟨_, done⟩
  · exact Or.inl ⟨_, prefilling.processed, prefilling.short, prefilling.outside⟩
  · exact Or.inr done

end Frames

/-! ## The calls -/

section Invariant

variable {cfg : SchedulerConfig} {clock : Clock}

theorem prefill_create : PrefillTracked (Driver.create cfg) := by
  refine ⟨fun _ => rfl, ?_, fun _ _ => ⟨rfl, List.not_mem_nil⟩, ?_, ?_, ?_, ?_, ?_, ?_⟩
  · intro id promptTokens maxNewTokens eosTokenId member
    cases member
  · intro id member
    cases member
  · intro id member
    cases member
  · intro id member
    cases member
  · intro id promptTokens maxNewTokens eosTokenId member
    cases member
  · intro id promptTokens maxNewTokens eosTokenId member
    cases member
  · intro id before batch preempted after whole
    simp [Driver.create] at whole

theorem unborn_unprocessed {d : Driver cfg} (tracked : PrefillTracked d) :
    processedChunks d.sched.nextId d.log = [] ∧ d.sched.nextId ∉ enteredIds d.log := by
  have fresh := tracked.unborn d.sched.nextId (le_refl _)
  have whole := tracked.issued d.sched.nextId
  rw [fresh.1] at whole
  exact ⟨(List.append_eq_nil_iff.mp whole.symm).1, fresh.2⟩

theorem prefill_add_request {d after : Driver cfg} (consistent : Consistent d)
    (tracked : PrefillTracked d) {promptTokens : List Int} {maxNewTokens eosTokenId : Int}
    (moved : d.step clock (.addRequest promptTokens maxNewTokens eosTokenId) = some after) :
    PrefillTracked after := by
  rcases step_add_request moved with ⟨added, event, effect⟩
  have issued : ∀ id, issuedChunks id after.log = issuedChunks id d.log :=
    fun id => add_effect_reads effect _ rfl fun _ _ _ _ => rfl
  have processed : ∀ id, processedChunks id after.log = processedChunks id d.log :=
    fun id => add_effect_reads effect _ rfl fun _ _ _ _ => rfl
  have entered : enteredIds after.log = enteredIds d.log :=
    add_effect_reads effect _ rfl fun _ _ _ _ => rfl
  have enteredIff : ∀ id, id ∈ enteredIds after.log ↔ id ∈ enteredIds d.log :=
    fun id => by rw [entered]
  -- nothing is processed of the new request
  obtain ⟨untouched, outside⟩ := unborn_unprocessed tracked
  have fresh : Tiles 0 (processedChunks d.sched.nextId after.log) 0 := by
    rw [processed, untouched]
    exact rfl
  have absent : d.sched.nextId ∉ enteredIds after.log := entered ▸ outside
  refine ⟨?_, ?_, ?_, ?_, ?_, ?_, ?_, ?_, ?_⟩
  · intro id
    rw [issued, processed, effect.pending]
    exact tracked.issued id
  · intro id p m e member
    rw [effect.nextId]
    rcases add_effect_accepted effect member with old | ⟨new, _⟩
    · exact (tracked.born id p m e old).trans (lt_add_one _)
    · omega
  · intro id unborn
    rw [effect.nextId] at unborn
    rw [issued, enteredIff]
    exact tracked.unborn id (by omega)
  · intro id queued p m e member
    rcases add_effect_accepted effect member with old | ⟨rfl, prompt⟩
    · have known : id ∈ d.sched.waiting ++ d.sched.running := by
        rcases add_effect_queued effect queued with known | ⟨new, _⟩
        · exact known
        · have bound := tracked.born id p m e old
          omega
      rw [add_effect_old_seq consistent effect known]
      exact tracked.prompt id known p m e old
    · exact prompt.symm
  · intro id member
    rcases add_effect_waiting effect member with old | ⟨rfl, _, sequence⟩
    · have same := add_effect_old_seq consistent effect (List.mem_append_left _ old)
      exact prefilling_frame (tracked.waiting id old) (processed id) (enteredIff id)
        (by rw [same]) (by rw [same])
    · rw [sequence]
      exact ⟨fresh, Or.inl rfl, absent⟩
  · intro id member
    rw [effect.running] at member
    rw [add_effect_old_seq consistent effect (List.mem_append_right _ member)]
    exact stage_frame (tracked.running id member) (processed id) (enteredIff id) rfl rfl Iff.rfl
  · intro id p m e member
    rcases add_effect_accepted effect member with old | ⟨rfl, _⟩
    · exact settled_frame (tracked.settled id p m e old) (processed id) (enteredIff id)
    · exact Or.inl ⟨0, fresh, Or.inl rfl, absent⟩
  · intro id p m e member
    rw [issued]
    rcases add_effect_accepted effect member with old | ⟨rfl, _⟩
    · exact tracked.bounded id p m e old
    · rw [(tracked.unborn d.sched.nextId (le_refl _)).1]
      exact ⟨0, rfl, Int.natCast_nonneg _⟩
  · intro id
    rw [effect.log]
    apply decodes_append (tracked.decodes id)
    intro batch preempted
    exact add_effect_event effect (motive := fun event => event = .scheduled batch preempted → _)
      (fun same => (nomatch same)) fun _ _ _ _ same => (nomatch same)

theorem prefill_abort_request {d after : Driver cfg} (consistent : Consistent d)
    (tracked : PrefillTracked d) {seqId : Int}
    (moved : d.step clock (.abortRequest seqId) = some after) : PrefillTracked after := by
  rcases step_abort_request consistent.unswapped moved with ⟨sched, pending, found⟩
  have effect := (abort_request_effect d.sched seqId consistent.unswapped consistent.distinct).1
  rw [← sched] at effect
  have whole := List.nodup_append.mp consistent.distinct
  have issued : ∀ id, issuedChunks id after.log = issuedChunks id d.log :=
    fun id => step_abort_reads consistent.unswapped moved _ fun _ _ => rfl
  have processed : ∀ id, processedChunks id after.log = processedChunks id d.log :=
    fun id => step_abort_reads consistent.unswapped moved _ fun _ _ => rfl
  have entered : enteredIds after.log = enteredIds d.log :=
    step_abort_reads consistent.unswapped moved _ fun _ _ => rfl
  have enteredIff : ∀ id, id ∈ enteredIds after.log ↔ id ∈ enteredIds d.log :=
    fun id => by rw [entered]
  have accepted : ∀ id p m e, Event.accepted id p m e ∈ after.log →
      Event.accepted id p m e ∈ d.log :=
    fun _ _ _ _ => step_abort_events consistent.unswapped moved fun _ _ same => (nomatch same)
  refine ⟨?_, ?_, ?_, ?_, ?_, ?_, ?_, ?_, ?_⟩
  · intro id
    rw [issued, processed, pending]
    exact tracked.issued id
  · intro id p m e member
    rw [effect.nextId]
    exact tracked.born id p m e (accepted id p m e member)
  · intro id unborn
    rw [effect.nextId] at unborn
    rw [issued, enteredIff]
    exact tracked.unborn id unborn
  · intro id queued p m e member
    rw [effect.other_seq id (abort_effect_left effect consistent.distinct queued)]
    exact tracked.prompt id (abort_effect_queued effect queued) p m e (accepted id p m e member)
  · intro id member
    rw [effect.waiting, whole.1.mem_erase_iff] at member
    rw [effect.other_seq id member.1]
    exact prefilling_frame (tracked.waiting id member.2) (processed id) (enteredIff id) rfl rfl
  · intro id member
    rw [effect.running, whole.2.1.mem_erase_iff] at member
    rw [effect.other_seq id member.1]
    exact stage_frame (tracked.running id member.2) (processed id) (enteredIff id) rfl rfl Iff.rfl
  · intro id p m e member
    exact settled_frame (tracked.settled id p m e (accepted id p m e member)) (processed id)
      (enteredIff id)
  · intro id p m e member
    rw [issued]
    exact tracked.bounded id p m e (accepted id p m e member)
  · intro id
    rcases found with ⟨_, log⟩ | ⟨_, log⟩
    · rw [log]
      exact tracked.decodes id
    · rw [log]
      apply decodes_append (tracked.decodes id)
      intro batch preempted same
      cases same

/-- What the log says after a `schedule`, before whose call nothing was pending. -/
structure PlanLogged (d : Driver cfg) (batch : ScheduledBatch) (log : List (Event cfg.pages)) :
    Prop where
  before : ∀ id, issuedChunks id d.log = processedChunks id d.log
  issued : ∀ id, issuedChunks id log = processedChunks id d.log ++ batchChunks id batch
  processed : ∀ id, processedChunks id log = processedChunks id d.log
  entered : ∀ id, id ∈ enteredIds log ↔ id ∈ enteredIds d.log
  accepted : ∀ id p m e, Event.accepted id p m e ∈ log → Event.accepted id p m e ∈ d.log

theorem plan_logged {d : Driver cfg} (tracked : PrefillTracked d) (idle : d.pending = none)
    (batch : ScheduledBatch) (preempted : List Int) :
    PlanLogged d batch (d.log ++ [.scheduled batch preempted]) := by
  have before : ∀ id, issuedChunks id d.log = processedChunks id d.log := by
    intro id
    rw [tracked.issued id, idle]
    exact List.append_nil _
  refine ⟨before, ?_, ?_, ?_, ?_⟩
  · intro id
    rw [issued_chunks_append, before]
    simp [issuedChunks]
  · intro id
    rw [processed_chunks_append]
    exact List.append_nil _
  · intro id
    rw [entered_ids_append]
    simp [enteredIds]
  · intro id p m e member
    simpa using member

theorem schedule_prompt {before after : Scheduler cfg} {batch : ScheduledBatch}
    {admitted preempted : List Int}
    (effect : ScheduleEffect before after batch admitted preempted) (id : Int) :
    (after.seqs id).promptTokens = (before.seqs id).promptTokens := by
  rcases schedule_seq_cases effect id with
    ⟨_, _, _, same⟩ | ⟨_, _, ids, same⟩ | ⟨_, _, ids, same⟩
  · rw [same]
    rfl
  · rw [same]
    rfl
  · rw [same]
    rfl

theorem schedule_stage {d : Driver cfg} (tracked : PrefillTracked d) {sched : Scheduler cfg}
    {batch : ScheduledBatch} {admitted preempted : List Int} {log : List (Event cfg.pages)}
    (effect : ScheduleEffect d.sched sched batch admitted preempted)
    (logged : PlanLogged d batch log) {id : Int} (member : id ∈ sched.running) :
    Stage log id (sched.seqs id) := by
  rcases schedule_seq_cases effect id with
    ⟨_, before, state, same⟩ | ⟨_, before, ids, same⟩ | ⟨_, old, ids, same⟩
  · right
    rw [same]
    refine ⟨SeqState.noConfusion, ?_⟩
    rcases tracked.running id before with ⟨prefill, _⟩ | ⟨_, done⟩
    · rw [state] at prefill
      cases prefill
    · exact entered_frame done (logged.processed id) (logged.entered id)
  · left
    rw [same]
    exact ⟨rfl, prefilling_frame (tracked.waiting id before) (logged.processed id)
      (logged.entered id) rfl rfl⟩
  · rw [effect.running] at member
    have before := (List.mem_append.mp member).resolve_right old
    rw [same]
    exact stage_frame (tracked.running id before) (logged.processed id) (logged.entered id) rfl rfl
      Iff.rfl

/-- The chunk a `schedule` issues continues the chunks processed so far. -/
theorem schedule_bounded {d : Driver cfg} (tracked : PrefillTracked d) {sched : Scheduler cfg}
    {batch : ScheduledBatch} {admitted preempted : List Int} {log : List (Event cfg.pages)}
    (effect : ScheduleEffect d.sched sched batch admitted preempted)
    (logged : PlanLogged d batch log) {id : Int} {promptTokens : List Int}
    {maxNewTokens eosTokenId : Int}
    (accepted : Event.accepted id promptTokens maxNewTokens eosTokenId ∈ d.log) :
    ∃ reach : Int, Tiles 0 (issuedChunks id log) reach ∧ reach ≤ promptTokens.length := by
  rw [logged.issued]
  rcases batch_chunks_cases id batch effect.entries_nodup with
    ⟨entry, inBatch, rfl, kind, chunks⟩ | ⟨nothing, _⟩
  · rcases effect.entry_prefill entry inBatch kind with ⟨owned, state, start, positive, bound⟩
    rcases schedule_stage tracked effect logged owned with ⟨_, prefilling⟩ | ⟨wrong, _⟩
    · have queued : entry.seq ∈ d.sched.waiting ++ d.sched.running :=
        (schedule_queues_perm effect).mem_iff.mpr (List.mem_append_right _ owned)
      have prompt_eq := tracked.prompt entry.seq queued promptTokens _ _ accepted
      have tiles := tiles_concat prefilling.processed positive
      rw [logged.processed] at tiles
      rw [chunks, start]
      refine ⟨_, tiles, ?_⟩
      unfold Sequence.remainingPrefill at bound
      rw [prompt_eq, ← schedule_prompt effect entry.seq]
      omega
    · exact absurd state wrong
  · rw [nothing, List.append_nil, ← logged.before]
    exact tracked.bounded id promptTokens _ _ accepted

theorem prefill_schedule {d after : Driver cfg} (consistent : Consistent d)
    (tracked : PrefillTracked d) (moved : d.step clock .schedule = some after) :
    PrefillTracked after := by
  rcases step_schedule moved with ⟨idle, rfl⟩
  rcases schedule_effect clock d.sched consistent.distinct with ⟨admitted, preempted, effect⟩
  have logged := plan_logged tracked idle (d.sched.schedule clock).2
    (Driver.changedState d.sched (d.sched.schedule clock).1 .decode .waiting)
  generalize Driver.changedState d.sched (d.sched.schedule clock).1 .decode .waiting = seen
    at logged ⊢
  generalize (d.sched.schedule clock).1 = sched at effect ⊢
  generalize (d.sched.schedule clock).2 = batch at effect logged ⊢
  generalize log_eq : d.log ++ [.scheduled batch seen] = log at logged ⊢
  have moves := schedule_queues_perm effect
  refine ⟨?_, ?_, ?_, ?_, ?_, fun id => schedule_stage tracked effect logged, ?_, ?_, ?_⟩
  · intro id
    change _ = _ ++ batchChunks id batch
    rw [logged.issued, logged.processed]
  · intro id p m e member
    rw [effect.nextId]
    exact tracked.born id p m e (logged.accepted id p m e member)
  · intro id unborn
    rw [effect.nextId] at unborn
    rcases tracked.unborn id unborn with ⟨none_issued, outside⟩
    refine ⟨?_, (logged.entered id).not.mpr outside⟩
    rw [logged.issued, ← logged.before, none_issued, List.nil_append]
    rcases batch_chunks_cases id batch effect.entries_nodup with ⟨e, member, same, kind, _⟩ | none
    · have owned := (effect.entry_prefill e member kind).1
      have known := consistent.fresh id (moves.mem_iff.mpr
        (List.mem_append_right _ (same ▸ owned)))
      omega
    · exact none.1
  · intro id queued p m e member
    rw [schedule_prompt effect id]
    exact tracked.prompt id (moves.mem_iff.mpr queued) p m e (logged.accepted id p m e member)
  · intro id member
    have notRunning : id ∉ sched.running := by
      intro inside
      exact (List.nodup_append.mp (moves.nodup_iff.mp consistent.distinct)).2.2 id member id inside
        rfl
    have before : id ∈ d.sched.waiting := by
      rw [effect.waiting]
      exact List.mem_append_right _ member
    have same := effect.other_seq id notRunning
    exact prefilling_frame (tracked.waiting id before) (logged.processed id) (logged.entered id)
      (by rw [same]) (by rw [same])
  · intro id p m e member
    exact settled_frame (tracked.settled id p m e (logged.accepted id p m e member))
      (logged.processed id) (logged.entered id)
  · intro id p m e member
    exact schedule_bounded tracked effect logged (logged.accepted id p m e member)
  · intro id
    change DecodesAfterEntering log id
    rw [← log_eq]
    apply decodes_append (tracked.decodes id)
    intro issuedBatch preemptedNow same e member owner kind
    cases same
    rcases effect.entry_decode e member kind with ⟨owned, state, _⟩
    rw [owner] at owned state
    rcases schedule_stage tracked effect logged owned with ⟨wrong, _⟩ | ⟨_, done⟩
    · rw [state] at wrong
      cases wrong
    · exact (logged.entered id).mp done.inside

/-- What the log and the prompts say after a `step_complete`. -/
structure StepLogged (d : Driver cfg) (batch : ScheduledBatch) (sched : Scheduler cfg)
    (entering : List Int) (log : List (Event cfg.pages)) : Prop where
  issued : ∀ id, issuedChunks id log = issuedChunks id d.log
  processed : ∀ id, processedChunks id log = processedChunks id d.log ++ batchChunks id batch
  entered : ∀ id, id ∈ enteredIds log ↔ id ∈ enteredIds d.log ∨ id ∈ entering
  accepted : ∀ id p m e, Event.accepted id p m e ∈ log → Event.accepted id p m e ∈ d.log
  entering_iff : ∀ id, id ∈ entering ↔ id ∈ d.sched.running ∧
    (d.sched.seqs id).state = .prefill ∧ (sched.seqs id).state = .decode
  prompt : ∀ id, (sched.seqs id).promptTokens = (d.sched.seqs id).promptTokens

theorem step_logged {d : Driver cfg} {batch : ScheduledBatch} {newTokens : List Int}
    {sched : Scheduler cfg} {callbacks : List (Int × List Int)}
    (effect : StepEffect d.sched batch newTokens sched callbacks) :
    StepLogged d batch sched (Driver.changedState d.sched sched .prefill .decode)
      (d.log ++ [.stepped batch newTokens callbacks
        (Driver.changedState d.sched sched .prefill .decode)]) := by
  refine ⟨?_, ?_, ?_, ?_, ?_, ?_⟩
  · intro id
    rw [issued_chunks_append]
    exact List.append_nil _
  · intro id
    rw [processed_chunks_append]
    simp [processedChunks]
  · intro id
    rw [entered_ids_append]
    simp [enteredIds]
  · intro id p m e member
    simpa using member
  · intro id
    unfold Driver.changedState
    rw [List.mem_filter]
    simp [inState]
  · intro id
    rcases step_seq_cases effect id with
      ⟨tok, _, _, same⟩ | ⟨_, _, e, _, _, _, same⟩ | ⟨_, _, same⟩
    · rw [same, (decoded_form_fields _ tok).1]
    · rw [same, (advance_prefill_fields _ e.nTokens).1]
    · rw [same]

structure Unchunked (d : Driver cfg) (sched : Scheduler cfg) (log : List (Event cfg.pages))
    (id : Int) : Prop where
  processed : processedChunks id log = processedChunks id d.log
  entered : id ∈ enteredIds log ↔ id ∈ enteredIds d.log
  cursor : (sched.seqs id).prefillCursor = (d.sched.seqs id).prefillCursor
  state : (sched.seqs id).state = .prefill ↔ (d.sched.seqs id).state = .prefill

/-- Without a chunk a sequence neither enters DECODE nor leaves its stage. -/
theorem step_unchunked {d : Driver cfg} {batch : ScheduledBatch} {newTokens : List Int}
    {sched : Scheduler cfg} {callbacks : List (Int × List Int)} {entering : List Int}
    {log : List (Event cfg.pages)} (valid : PendingValid d.sched batch)
    (effect : StepEffect d.sched batch newTokens sched callbacks)
    (logged : StepLogged d batch sched entering log) {id : Int} (nothing : batchChunks id batch = [])
    (others : ∀ e ∈ batch.entries, e.seq = id → e.isPrefill = false) : Unchunked d sched log id := by
  have processed : processedChunks id log = processedChunks id d.log := by
    rw [logged.processed, nothing, List.append_nil]
  have entered : id ∉ entering → (id ∈ enteredIds log ↔ id ∈ enteredIds d.log) := by
    intro outside
    rw [logged.entered, or_iff_left outside]
  rcases step_seq_cases effect id with
    ⟨tok, assigned, owned, same⟩ | ⟨_, _, e, inBatch, owner, kind, _⟩ | ⟨_, _, same⟩
  · rcases assigned_seq_mem assigned with ⟨e, inBatch, kind, owner⟩
    have state := valid.decode e inBatch (effect.owned e inBatch) kind
    rw [owner] at state
    rcases decoded_form_fields (d.sched.seqs id) tok with ⟨_, cursor, _, after⟩
    refine ⟨processed, entered ?_, by rw [same, cursor], ?_⟩
    · rw [logged.entering_iff, state]
      exact fun inside => SeqState.noConfusion inside.2.1
    · rw [same, state]
      rcases after with kept | done
      · rw [kept, state]
      · rw [done]
        exact iff_of_false SeqState.noConfusion SeqState.noConfusion
  · rw [others e inBatch owner] at kind
    cases kind
  · refine ⟨processed, entered ?_, by rw [same], by rw [same]⟩
    rw [logged.entering_iff, same]
    intro inside
    rw [inside.2.1] at inside
    cases inside.2.2

theorem step_chunked {d : Driver cfg} (tracked : PrefillTracked d) {batch : ScheduledBatch}
    {newTokens : List Int} {sched : Scheduler cfg} {callbacks : List (Int × List Int)}
    {entering : List Int} {log : List (Event cfg.pages)} (valid : PendingValid d.sched batch)
    (effect : StepEffect d.sched batch newTokens sched callbacks)
    (logged : StepLogged d batch sched entering log) {e : BatchEntry} (inBatch : e ∈ batch.entries)
    (kind : e.isPrefill = true) (chunks : batchChunks e.seq batch = [(e.prefillStart, e.nTokens)]) :
    Stage log e.seq (sched.seqs e.seq) := by
  have owned := effect.owned e inBatch
  rcases valid.prefill e inBatch owned kind with ⟨state, start, positive, bound⟩
  rcases tracked.running e.seq owned with ⟨_, prefilling⟩ | ⟨wrong, _⟩
  · have tiles := tiles_concat prefilling.processed positive
    have first := tiles_le prefilling.processed
    rw [← start] at tiles first
    have same := effect.prefill_seq e inBatch kind
    have chunkTiles : Tiles 0 (processedChunks e.seq log) (e.prefillStart + e.nTokens) := by
      rw [logged.processed, chunks]
      exact tiles
    unfold Sequence.remainingPrefill at bound
    rw [← start] at bound
    rcases advance_prefill_cases (d.sched.seqs e.seq) e.nTokens with
      ⟨reached, advanced⟩ | ⟨unreached, advanced⟩
    · right
      unfold Sequence.remainingPrefill at reached
      rw [← start] at reached
      have finish : e.prefillStart + e.nTokens =
          (d.sched.seqs e.seq).promptTokens.length := by omega
      rw [logged.prompt, ← finish, same, advanced]
      refine ⟨SeqState.noConfusion, chunkTiles, by omega, ?_⟩
      rw [logged.entered, logged.entering_iff, same, advanced]
      exact Or.inr ⟨owned, state, rfl⟩
    · left
      unfold Sequence.remainingPrefill at unreached
      rw [← start] at unreached
      rw [same, advanced]
      refine ⟨state, ?_, Or.inr ?_, ?_⟩
      · rw [← start]
        exact chunkTiles
      · dsimp only
        rw [← start]
        omega
      · rw [logged.entered, logged.entering_iff, same, advanced]
        rintro (before | ⟨_, _, decoding⟩)
        · exact prefilling.outside before
        · rw [state] at decoding
          cases decoding
  · exact absurd state wrong

theorem step_stage {d : Driver cfg} (tracked : PrefillTracked d) {batch : ScheduledBatch}
    {newTokens : List Int} {sched : Scheduler cfg} {callbacks : List (Int × List Int)}
    {entering : List Int} {log : List (Event cfg.pages)} (valid : PendingValid d.sched batch)
    (effect : StepEffect d.sched batch newTokens sched callbacks)
    (logged : StepLogged d batch sched entering log) {id : Int} (member : id ∈ d.sched.running) :
    Stage log id (sched.seqs id) := by
  rcases batch_chunks_cases id batch valid.distinct with
    ⟨e, inBatch, rfl, kind, chunks⟩ | ⟨nothing, others⟩
  · exact step_chunked tracked valid effect logged inBatch kind chunks
  · have unchunked := step_unchunked valid effect logged nothing others
    exact stage_frame (tracked.running id member) unchunked.processed unchunked.entered
      unchunked.cursor (logged.prompt id) unchunked.state

theorem prefill_step_complete {d after : Driver cfg} (consistent : Consistent d)
    (tracked : PrefillTracked d) {newTokens : List Int}
    (moved : d.step clock (.stepComplete newTokens) = some after) : PrefillTracked after := by
  rcases step_step_complete moved with ⟨batch, ⟨sched, callbacks⟩, pending, stepped, rfl⟩
  have valid := consistent.pending batch pending
  have effect := step_complete_effect valid.distinct stepped
  have logged := step_logged effect
  dsimp only
  generalize Driver.changedState d.sched sched .prefill .decode = entering at logged ⊢
  generalize log_eq : d.log ++ [.stepped batch newTokens callbacks entering] = log at logged ⊢
  have wasRunning : ∀ id ∈ sched.running, id ∈ d.sched.running := by
    intro id member
    rw [effect.running] at member
    exact List.mem_of_mem_filter member
  have wasQueued : ∀ id ∈ sched.waiting ++ sched.running,
      id ∈ d.sched.waiting ++ d.sched.running := by
    intro id queued
    rw [effect.waiting] at queued
    exact List.mem_append.mpr ((List.mem_append.mp queued).imp_right (wasRunning id))
  refine ⟨?_, ?_, ?_, ?_, ?_,
    fun id member => step_stage tracked valid effect logged (wasRunning id member), ?_, ?_, ?_⟩
  · intro id
    change _ = _ ++ []
    rw [logged.issued, logged.processed, List.append_nil, tracked.issued id, pending]
    rfl
  · intro id p m e member
    rw [effect.nextId]
    exact tracked.born id p m e (logged.accepted id p m e member)
  · intro id unborn
    rw [effect.nextId] at unborn
    rcases tracked.unborn id unborn with ⟨none_issued, outside⟩
    refine ⟨(logged.issued id).trans none_issued, ?_⟩
    rw [logged.entered]
    rintro (before | now)
    · exact outside before
    · have bound := consistent.fresh id
        (List.mem_append_right _ ((logged.entering_iff id).mp now).1)
      omega
  · intro id queued p m e member
    rw [logged.prompt id]
    exact tracked.prompt id (wasQueued id queued) p m e (logged.accepted id p m e member)
  · intro id member
    change id ∈ sched.waiting at member
    rw [effect.waiting] at member
    have unowned : ∀ e ∈ batch.entries, e.seq ≠ id := by
      intro e inBatch same
      exact (List.nodup_append.mp consistent.distinct).2.2 id member id
        (same ▸ effect.owned e inBatch) rfl
    have nothing : batchChunks id batch = [] := by
      rcases batch_chunks_cases id batch valid.distinct with ⟨e, inBatch, same, _⟩ | none
      · exact absurd same (unowned e inBatch)
      · exact none.1
    have unchunked := step_unchunked valid effect logged nothing
      (fun e inBatch same => absurd same (unowned e inBatch))
    exact prefilling_frame (tracked.waiting id member) unchunked.processed unchunked.entered
      unchunked.cursor (logged.prompt id)
  · intro id p m e member
    have known := logged.accepted id p m e member
    rcases batch_chunks_cases id batch valid.distinct with
      ⟨entry, inBatch, rfl, kind, chunks⟩ | ⟨nothing, others⟩
    · have owned := List.mem_append_right d.sched.waiting (effect.owned entry inBatch)
      rw [tracked.prompt entry.seq owned p m e known, ← logged.prompt entry.seq]
      exact stage_settled (step_chunked tracked valid effect logged inBatch kind chunks)
    · have unchunked := step_unchunked valid effect logged nothing others
      exact settled_frame (tracked.settled id p m e known) unchunked.processed unchunked.entered
  · intro id p m e member
    rw [logged.issued]
    exact tracked.bounded id p m e (logged.accepted id p m e member)
  · intro id
    change DecodesAfterEntering log id
    rw [← log_eq]
    apply decodes_append (tracked.decodes id)
    intro other preempted same
    cases same

theorem prefill_tracked_reached {allowed : Driver cfg → Call → Prop} {d : Driver cfg}
    (reached : Driver.Reached clock allowed d) : PrefillTracked d := by
  apply reaches_invariant prefill_create _ reached
  intro before call after prior tracked _ moved
  have consistent := consistent_reached prior
  cases call with
  | addRequest promptTokens maxNewTokens eosTokenId =>
      exact prefill_add_request consistent tracked moved
  | abortRequest seqId => exact prefill_abort_request consistent tracked moved
  | schedule => exact prefill_schedule consistent tracked moved
  | stepComplete newTokens => exact prefill_step_complete consistent tracked moved

/-- In every run without aborts inside a step, the chunks of an accepted request
tile its prompt and lead to DECODE exactly when the prompt is not empty. -/
theorem prompt_tiled_iff_nonempty {d : Driver cfg}
    (reached : Driver.Reached clock Driver.AbortsIdle d) {id : Int} {promptTokens : List Int}
    {maxNewTokens eosTokenId : Int}
    (accepted : Event.accepted id promptTokens maxNewTokens eosTokenId ∈ d.log) :
    PromptTiled d.log id promptTokens ↔ promptTokens ≠ [] := by
  have tracked := prefill_tracked_reached reached
  have settled := settled_enters_iff (tracked.settled _ _ _ _ accepted) (Int.natCast_nonneg _)
  have positive : 0 < (promptTokens.length : Int) ↔ promptTokens ≠ [] := by
    rw [Int.natCast_pos, List.length_pos_iff]
  constructor
  · intro tiled
    exact positive.mp (settled.mp tiled.enters)
  · intro nonempty
    exact ⟨tracked.bounded _ _ _ _ accepted, settled.mpr (positive.mpr nonempty),
      tracked.decodes id⟩

/-- A prompt of three tokens in chunks of two. -/
theorem prompt_tiled_iff_nonempty_two_chunks :
    PromptTiled ((runCalls (Driver.step tickingClock) Driver.AbortsIdle
      (Driver.create { kvPageSizeTokens := 4, maxPagesTotal := 4, maxPrefillTokensPerStep := 2 })
      [.addRequest [5, 6, 7] 3 (-1), .schedule, .stepComplete [], .schedule, .stepComplete [],
        .schedule]).get (by decide)).log 0 [5, 6, 7] ↔ [5, 6, 7] ≠ ([] : List Int) :=
  prompt_tiled_iff_nonempty (reaches_of_run_get _ (by decide))
    (show Event.accepted 0 [5, 6, 7] 3 (-1) ∈ _ from by decide)

/-- A request with an empty prompt: nothing is left to process, but it never
enters DECODE. -/
theorem empty_prompt_not_tiled :
    ¬∀ (cfg : SchedulerConfig) (clock : Clock) (d : Driver cfg) (id : Int)
      (promptTokens : List Int) (maxNewTokens eosTokenId : Int),
      0 < cfg.maxPrefillTokensPerStep → 0 < cfg.maxBatchTokens →
      Driver.Reached clock Driver.AbortsIdle d →
      Event.accepted id promptTokens maxNewTokens eosTokenId ∈ d.log →
      PromptTiled d.log id promptTokens := by
  intro always
  have tiled := always { kvPageSizeTokens := 4, maxPagesTotal := 4 } tickingClock _ 0 [] 3 (-1)
    (by decide) (by decide)
    (reaches_of_run_get [.addRequest [] 3 (-1), .schedule, .stepComplete [], .schedule]
      (by decide)) (by decide)
  have entered := tiled.enters.mpr fun position lower upper => absurd lower (not_le.mpr upper)
  exact absurd entered (by decide)

end Invariant

end AmpFormal.SchedulerPrefill
