import AmpFormal.PageBudget

/-!
# The driver loop finishes

Rounds of `schedule` and `step_complete` on requests accepted before the first
round. While no page goes stale the budget of `PageBudget` is kept, so every
round that finds a request unfinished issues an entry, and every entry lowers
the number of tokens left.
-/

namespace AmpFormal.SchedulerCompletion

open AmpFormal.PagePoolFastModel AmpFormal.PagePoolFastSequential
open AmpFormal.SchedulerModel AmpFormal.SchedulerModel.Scheduler
open AmpFormal.ScheduleEffects AmpFormal.StepCompleteEffects AmpFormal.PageDemand
open AmpFormal.TransitionRuns AmpFormal.SchedulerRuns AmpFormal.SchedulerLifecycle
open AmpFormal.SchedulerQueues AmpFormal.SchedulerProgress AmpFormal.SchedulerBatches
open AmpFormal.PageBudget

set_option autoImplicit false

variable {cfg : SchedulerConfig} {clock : Clock}

/-! ## The loop -/

/-- A request with a prompt that asks for a token. -/
def Submits (_ : Driver cfg) : Call → Prop
  | .addRequest promptTokens maxNewTokens _ => promptTokens ≠ [] ∧ 1 ≤ maxNewTokens
  | _ => False

def loopRound (clock : Clock) (d : Driver cfg) (newTokens : List Int) : Option (Driver cfg) :=
  (d.step clock .schedule).bind fun planned => planned.step clock (.stepComplete newTokens)

/-- One round for each list of tokens fed back. -/
def loopRounds (clock : Clock) : Driver cfg → List (List Int) → Option (Driver cfg)
  | d, [] => some d
  | d, newTokens :: rest =>
      (loopRound clock d newTokens).bind fun after => loopRounds clock after rest

/-- The `leak_scan` of the next `step_complete` finds no page past the limit. -/
def ScanFindsNothing (clock : Clock) (d : Driver cfg) (newTokens : List Int) : Prop :=
  ∀ batch ∈ d.pending,
    let done := (d.sched.completeEntries clock batch.entries newTokens).sched
    done.kvPool.orphans 30000 (clock done.ticks) = []

def NothingExpires (clock : Clock) : Driver cfg → List (List Int) → Prop
  | _, [] => True
  | d, newTokens :: rest => ∀ planned ∈ d.step clock .schedule,
      ScanFindsNothing clock planned newTokens ∧
        ∀ after ∈ planned.step clock (.stepComplete newTokens), NothingExpires clock after rest

/-- Prompt length and token limit of every accepted request. -/
def acceptedRequests {pages : Nat} (log : List (Event pages)) : List (Int × Int) :=
  log.filterMap fun
    | .accepted _ promptTokens maxNewTokens _ => some (promptTokens.length, maxNewTokens)
    | _ => none

def pagesDemanded (cfg : SchedulerConfig) (requests : List (Int × Int)) : Int :=
  (requests.map fun request => pageBound cfg request.1 request.2).sum

def roundsDemanded (requests : List (Int × Int)) : Int :=
  (requests.map fun request => request.1 + request.2).sum

/-! ## The tokens left -/

def workOf {pages : Nat} (s : Sequence pages) : Nat :=
  (s.remainingPrefill + (s.maxNewTokens - s.outputTokens.length)).toNat

/-- The tokens a request still waits for, none once it has left the queues. -/
def workLeft (st : Scheduler cfg) (id : Int) : Nat :=
  if id ∈ st.waiting ++ st.running then workOf (st.seqs id) else 0

def totalWork (ids : List Int) (st : Scheduler cfg) : Nat := (ids.map (workLeft st)).sum

section Sequences

variable {pages : Nat} {s : Sequence pages}

theorem course_work_positive (course : OnCourse s) : 0 < workOf s := by
  obtain ⟨short, _, inside, _⟩ := course
  unfold workOf Sequence.remainingPrefill
  omega

theorem course_advance (course : OnCourse s) (prefill : s.state = .prefill) {nTokens : Int}
    (positive : 0 < nTokens) (remaining : nTokens ≤ s.remainingPrefill) :
    OnCourse (s.advancePrefill nTokens) ∧ workOf (s.advancePrefill nTokens) < workOf s ∧
      ((s.advancePrefill nTokens).state = .prefill ∨
        (s.advancePrefill nTokens).state = .decode) := by
  obtain ⟨short, started, inside, unprefilled⟩ := course
  obtain ⟨empty, _⟩ := unprefilled (by rw [prefill]; exact SeqState.noConfusion)
  obtain ⟨reached, same⟩ | ⟨unreached, same⟩ := advance_prefill_cases s nTokens
  · rw [same]
    unfold Sequence.remainingPrefill at reached remaining
    refine ⟨⟨short, ?_, ?_, fun different => (different rfl).elim⟩, ?_, Or.inr rfl⟩
    · change 0 ≤ s.prefillCursor + nTokens
      omega
    · change s.prefillCursor + nTokens ≤ s.promptTokens.length
      omega
    · unfold workOf Sequence.remainingPrefill
      dsimp only
      omega
  · rw [same]
    unfold Sequence.remainingPrefill at unreached
    refine ⟨⟨short, ?_, ?_, fun _ => ⟨empty, ?_⟩⟩, ?_, Or.inl prefill⟩
    · change 0 ≤ s.prefillCursor + nTokens
      omega
    · change s.prefillCursor + nTokens ≤ s.promptTokens.length
      omega
    · change s.prefillCursor + nTokens < s.promptTokens.length
      omega
    · unfold workOf Sequence.remainingPrefill
      dsimp only
      omega

theorem work_append_token (course : OnCourse s) (tok : Int) :
    workOf (s.appendToken tok) < workOf s := by
  obtain ⟨short, _, inside, _⟩ := course
  unfold workOf Sequence.remainingPrefill Sequence.appendToken
  simp only [List.length_append, List.length_singleton, Nat.cast_add, Nat.cast_one]
  omega

theorem course_decoded (course : OnCourse s) (decode : s.state = .decode) (tok : Int) :
    (decodedForm s tok).isDone = true ∨
      (OnCourse (decodedForm s tok) ∧ workOf (decodedForm s tok) < workOf s ∧
        (decodedForm s tok).state = .decode) := by
  cases finished : (s.appendToken tok).finishes tok with
  | true =>
      left
      rw [decoded_form_finished finished]
      rfl
  | false =>
      right
      rw [decoded_form_running finished]
      have unfinished : ¬s.maxNewTokens ≤ ((s.appendToken tok).outputTokens.length : Int) := by
        intro long
        rw [(finishes_iff _ tok).mpr (Or.inl long)] at finished
        cases finished
      exact ⟨⟨not_le.mp unfinished, course.started, course.inside,
        fun different => (different decode).elim⟩, work_append_token course tok, decode⟩

end Sequences

/-! ## The invariant -/

/-- A state of the loop: all of `ids` were accepted, nothing was preempted, and
the queues hold sequences on course. -/
structure OnTrack (clock : Clock) (ids : List Int) (d : Driver cfg) : Prop where
  reached : Driver.Reached clock (fun _ call => call.AsksTokens) d
  accepted : acceptedIds d.log = ids
  unaborted : abortedIds d.log = []
  preemptions : d.sched.preemptions = 0
  budget : Budgeted ids d.sched
  waiting : ∀ id ∈ d.sched.waiting, (d.sched.seqs id).state = .waiting
  running : ∀ id ∈ d.sched.running,
    (d.sched.seqs id).state = .prefill ∨ (d.sched.seqs id).state = .decode
  course : ∀ id ∈ d.sched.waiting ++ d.sched.running, OnCourse (d.sched.seqs id)

theorem on_track_tracked {ids : List Int} {d : Driver cfg} (track : OnTrack clock ids d) :
    Tracked d :=
  tracked_reached (fun _ _ asks => asks) track.reached

theorem on_track_members {ids : List Int} {d : Driver cfg} (track : OnTrack clock ids d) :
    ∀ id ∈ d.sched.waiting ++ d.sched.running, id ∈ ids ∧ OnCourse (d.sched.seqs id) := by
  intro id queued
  refine ⟨?_, track.course id queued⟩
  rw [← track.accepted]
  exact tracked_queued_accepted (on_track_tracked track) queued

theorem on_track_completed {ids : List Int} {d : Driver cfg} (track : OnTrack clock ids d)
    (finished : totalWork ids d.sched = 0) :
    ∀ id ∈ acceptedIds d.log, id ∈ completedIds d.log := by
  intro id member
  by_contra uncompleted
  have unaborted : id ∉ abortedIds d.log := by
    rw [track.unaborted]
    exact List.not_mem_nil
  have queued := unfinished_queued (on_track_tracked track) ⟨member, uncompleted, unaborted⟩
  rw [track.accepted] at member
  have nothing := List.sum_eq_zero_iff.mp finished (workLeft d.sched id)
    (List.mem_map_of_mem member)
  rw [workLeft, if_pos queued] at nothing
  exact (course_work_positive (track.course id queued)).ne' nothing

theorem total_work_queued {ids : List Int} {st : Scheduler cfg}
    (some_work : totalWork ids st ≠ 0) : st.waiting ++ st.running ≠ [] := by
  intro empty
  apply some_work
  apply List.sum_eq_zero
  intro work member
  obtain ⟨id, _, rfl⟩ := List.mem_map.mp member
  rw [workLeft, empty, if_neg List.not_mem_nil]

/-! ## `schedule` in the loop -/

section Unpreempted

variable {before after : Scheduler cfg} {batch : ScheduledBatch} {admitted : List Int}

theorem unpreempted_seq_cases (effect : ScheduleEffect before after batch admitted []) (id : Int) :
    (id ∈ admitted ∧ id ∈ before.waiting ∧
      ∃ given, after.seqs id = admittedForm (before.seqs id) given) ∨
    (id ∉ admitted ∧ ∃ given, after.seqs id = withPages (before.seqs id) given) := by
  obtain ⟨gone, _⟩ | new | ⟨_, old, kept⟩ := schedule_seq_cases effect id
  · cases gone
  · exact .inl new
  · exact .inr ⟨old, kept⟩

theorem unpreempted_waiting (effect : ScheduleEffect before after batch admitted [])
    (distinct : before.waiting.Nodup)
    (waiting : ∀ id ∈ before.waiting, (before.seqs id).state = .waiting) :
    ∀ id ∈ after.waiting, (after.seqs id).state = .waiting := by
  intro id member
  have queued : id ∈ before.waiting := by
    rw [effect.waiting]
    exact List.mem_append_right _ member
  obtain ⟨new, _⟩ | ⟨_, given, same⟩ := unpreempted_seq_cases effect id
  · rw [effect.waiting] at distinct
    exact ((List.nodup_append.mp distinct).2.2 id new id member rfl).elim
  · rw [same]
    exact waiting id queued

theorem unpreempted_running (effect : ScheduleEffect before after batch admitted [])
    (running : ∀ id ∈ before.running,
      (before.seqs id).state = .prefill ∨ (before.seqs id).state = .decode) :
    ∀ id ∈ after.running, (after.seqs id).state = .prefill ∨ (after.seqs id).state = .decode := by
  intro id member
  obtain ⟨_, _, given, same⟩ | ⟨old, given, same⟩ := unpreempted_seq_cases effect id
  · rw [same]
    exact Or.inl rfl
  · have ran : id ∈ before.running :=
      (List.mem_append.mp (effect.running ▸ member)).resolve_right old
    rw [same]
    exact running id ran

theorem unpreempted_course (effect : ScheduleEffect before after batch admitted [])
    (waiting : ∀ id ∈ before.waiting, (before.seqs id).state = .waiting) {id : Int}
    (course : OnCourse (before.seqs id)) : OnCourse (after.seqs id) := by
  obtain ⟨_, queued, given, same⟩ | ⟨_, given, same⟩ := unpreempted_seq_cases effect id
  · rw [same]
    exact course_admitted course (waiting id queued) given
  · rw [same]
    exact course_with_pages course given

theorem unpreempted_work (effect : ScheduleEffect before after batch admitted [])
    (ids : List Int) : totalWork ids after = totalWork ids before := by
  have work : ∀ id, workOf (after.seqs id) = workOf (before.seqs id) := by
    intro id
    obtain ⟨_, _, given, same⟩ | ⟨_, given, same⟩ := unpreempted_seq_cases effect id
    · rw [same]
      rfl
    · rw [same]
      rfl
  unfold totalWork
  congr 1
  apply List.map_congr_left
  intro id _
  unfold workLeft
  rw [work id]
  congr 1
  exact propext (schedule_queues_perm effect).mem_iff.symm

end Unpreempted

theorem on_track_schedule (limits : PositiveLimits cfg) {ids : List Int} {d : Driver cfg}
    (track : OnTrack clock ids d) (idle : d.pending = none) :
    ∃ planned batch, d.step clock .schedule = some planned ∧ OnTrack clock ids planned ∧
      planned.pending = some batch ∧ (∀ e ∈ batch.entries, e.seq ∈ planned.sched.running) ∧
      totalWork ids planned.sched = totalWork ids d.sched ∧
      (totalWork ids d.sched ≠ 0 → batch.entries ≠ []) := by
  have consistent := consistent_reached track.reached
  obtain ⟨budget, preemptions, ⟨admitted, effect⟩, issued⟩ := schedule_granted limits clock
    track.budget consistent.distinct track.waiting track.running (on_track_members track)
  have moved : d.step clock .schedule = some
      { sched := (d.sched.schedule clock).1
        pending := some (d.sched.schedule clock).2
        log := d.log ++ [.scheduled (d.sched.schedule clock).2
          (Driver.changedState d.sched (d.sched.schedule clock).1 .decode .waiting)] } := by
    simp [Driver.step, idle]
  have waitingDistinct := (List.nodup_append.mp consistent.distinct).1
  refine ⟨_, _, moved, ⟨.call track.reached .schedule trivial moved, ?_, ?_,
    preemptions.trans track.preemptions, budget,
    unpreempted_waiting effect waitingDistinct track.waiting,
    unpreempted_running effect track.running, ?_⟩, rfl, ?_, unpreempted_work effect ids, ?_⟩
  · rw [accepted_ids_append]
    exact (List.append_nil _).trans track.accepted
  · rw [aborted_ids_append]
    exact (List.append_nil _).trans track.unaborted
  · intro id member
    have queued := (schedule_queues_perm effect).mem_iff.mpr member
    exact unpreempted_course effect track.waiting (track.course id queued)
  · intro e member
    cases kind : e.isPrefill with
    | true => exact (effect.entry_prefill e member kind).1
    | false => exact (effect.entry_decode e member kind).1
  · exact fun some_work => issued (total_work_queued some_work)

/-! ## `step_complete` in the loop -/

theorem touch_entries_available (seqs : Int → Sequence cfg.pages) (entries : List BatchEntry)
    (tick : Nat) (pool : PagePoolFast cfg.pages 16) :
    available (touchEntries clock seqs entries tick pool) = available pool := by
  induction entries generalizing tick pool with
  | nil => rfl
  | cons e rest ih =>
      unfold touchEntries
      split
      · exact ih tick pool
      · exact ih (tick + 1) _

/-- A scan that finds nothing leaves the free stacks alone. -/
theorem quiet_step_pool {st after : Scheduler cfg} {batch : ScheduledBatch}
    {newTokens : List Int} {callbacks : List (Int × List Int)}
    (distinct : (batch.entries.map BatchEntry.seq).Nodup)
    (stepped : st.stepComplete clock batch newTokens = some (after, callbacks))
    (quiet : let done := (st.completeEntries clock batch.entries newTokens).sched
      done.kvPool.orphans 30000 (clock done.ticks) = []) (sharded : Sharded st.kvPool) :
    Sharded after.kvPool ∧ available after.kvPool = available st.kvPool := by
  obtain ⟨pool, ticks⟩ := complete_entries_pool clock batch.entries newTokens distinct
    { sched := st }
  change (st.completeEntries clock batch.entries newTokens).sched.kvPool = _ at pool
  change (st.completeEntries clock batch.entries newTokens).sched.ticks = _ at ticks
  dsimp only at quiet
  rw [pool, ticks] at quiet
  have afterPool := (step_complete_pool distinct stepped).1
  unfold PagePoolFast.leakScan at afterPool
  dsimp only at afterPool quiet
  rw [quiet] at afterPool
  rw [afterPool]
  constructor
  · exact free_pages_sharded (touch_entries_sharded _ _ _ sharded) []
  · exact touch_entries_available st.seqs batch.entries st.ticks st.kvPool

theorem step_complete_preemptions {st after : Scheduler cfg} {batch : ScheduledBatch}
    {newTokens : List Int} {callbacks : List (Int × List Int)}
    (stepped : st.stepComplete clock batch newTokens = some (after, callbacks)) :
    after.preemptions = st.preemptions := by
  unfold stepComplete at stepped
  split at stepped
  case isFalse => cases stepped
  case isTrue =>
    simp only [Option.some.injEq, Prod.mk.injEq] at stepped
    obtain ⟨rfl, _⟩ := stepped
    exact (complete_entries_queues clock newTokens batch.entries { sched := st }).2.2.2.2

structure StepCourse (batch : ScheduledBatch) (before after : Scheduler cfg) (id : Int) : Prop where
  course : OnCourse (after.seqs id)
  work : workOf (after.seqs id) ≤ workOf (before.seqs id)
  named : id ∈ batch.entries.map BatchEntry.seq →
    workOf (after.seqs id) < workOf (before.seqs id)
  running : id ∈ after.running →
    (after.seqs id).state = .prefill ∨ (after.seqs id).state = .decode

theorem step_complete_course {ids : List Int} {d : Driver cfg} (track : OnTrack clock ids d)
    {batch : ScheduledBatch} (pending : d.pending = some batch) {newTokens : List Int}
    {after : Scheduler cfg} {callbacks : List (Int × List Int)}
    (effect : StepEffect d.sched batch newTokens after callbacks) {id : Int}
    (queued : id ∈ after.waiting ++ after.running) : StepCourse batch d.sched after id := by
  have consistent := consistent_reached track.reached
  have valid := consistent.pending batch pending
  have before := step_still_queued effect queued
  have course := track.course id before
  obtain ⟨tok, member, running, same⟩ | ⟨_, running, e, inBatch, rfl, kind, same⟩ |
    ⟨_, unnamed, same⟩ := step_seq_cases effect id
  · obtain ⟨e, inBatch, kind, here⟩ := assigned_seq_mem member
    dsimp only at here
    have decode := valid.decode e inBatch (here ▸ running) kind
    rw [here] at decode
    obtain ⟨finished⟩ | ⟨later, work, state⟩ := course_decoded course decode tok
    · exfalso
      rw [effect.waiting, effect.running] at queued
      rcases List.mem_append.mp queued with waiting | kept
      · exact (List.nodup_append.mp consistent.distinct).2.2 id waiting id running rfl
      · have active := (List.mem_filter.mp kept).2
        rw [same, finished] at active
        cases active
    · rw [← same] at later work state
      exact ⟨later, work.le, fun _ => work, fun _ => Or.inr state⟩
  · obtain ⟨state, _, positive, remaining⟩ := valid.prefill e inBatch running kind
    obtain ⟨later, work, states⟩ := course_advance course state positive remaining
    rw [← same] at later work states
    exact ⟨later, work.le, fun _ => work, fun _ => states⟩
  · refine ⟨same.symm ▸ course, (congrArg workOf same).le, fun named => absurd named unnamed, ?_⟩
    intro running
    rw [same]
    rw [effect.running] at running
    exact track.running id (List.mem_of_mem_filter running)

theorem step_complete_fields {before after : Scheduler cfg} {batch : ScheduledBatch}
    {newTokens : List Int} {callbacks : List (Int × List Int)}
    (effect : StepEffect before batch newTokens after callbacks) (id : Int) :
    heldNow after id = heldNow before id ∧
      boundOf cfg (after.seqs id) = boundOf cfg (before.seqs id) := by
  obtain ⟨tok, _, _, same⟩ | ⟨_, _, e, _, _, _, same⟩ | ⟨_, _, same⟩ := step_seq_cases effect id
  · cases finished : ((before.seqs id).appendToken tok).finishes tok with
    | true =>
        unfold heldNow
        rw [same, decoded_form_finished finished]
        exact ⟨rfl, rfl⟩
    | false =>
        unfold heldNow
        rw [same, decoded_form_running finished]
        exact ⟨rfl, rfl⟩
  · obtain ⟨_, form⟩ | ⟨_, form⟩ := advance_prefill_cases (before.seqs id) e.nTokens
    · unfold heldNow
      rw [same, form]
      exact ⟨rfl, rfl⟩
    · unfold heldNow
      rw [same, form]
      exact ⟨rfl, rfl⟩
  · unfold heldNow
    rw [same]
    exact ⟨rfl, rfl⟩

/-- Every entry takes work away, by its tokens or by ending its sequence. -/
theorem step_complete_work {ids : List Int} {d : Driver cfg} (track : OnTrack clock ids d)
    {batch : ScheduledBatch} (pending : d.pending = some batch) {newTokens : List Int}
    {after : Scheduler cfg} {callbacks : List (Int × List Int)}
    (effect : StepEffect d.sched batch newTokens after callbacks) :
    totalWork ids after ≤ totalWork ids d.sched ∧
      (batch.entries ≠ [] → totalWork ids after < totalWork ids d.sched) := by
  have fewer : ∀ id, workLeft after id ≤ workLeft d.sched id := by
    intro id
    unfold workLeft
    by_cases queued : id ∈ after.waiting ++ after.running
    · rw [if_pos queued, if_pos (step_still_queued effect queued)]
      exact (step_complete_course track pending effect queued).work
    · rw [if_neg queued]
      exact Nat.zero_le _
  refine ⟨List.sum_le_sum fun id _ => fewer id, fun some_entry => ?_⟩
  obtain ⟨e, inBatch⟩ := List.exists_mem_of_ne_nil _ some_entry
  have before : e.seq ∈ d.sched.waiting ++ d.sched.running :=
    List.mem_append_right _ (effect.owned e inBatch)
  apply List.sum_lt_sum _ _ fun id _ => fewer id
  refine ⟨e.seq, (on_track_members track e.seq before).1, ?_⟩
  unfold workLeft
  rw [if_pos before]
  by_cases queued : e.seq ∈ after.waiting ++ after.running
  · rw [if_pos queued]
    exact (step_complete_course track pending effect queued).named (List.mem_map_of_mem inBatch)
  · rw [if_neg queued]
    exact course_work_positive (track.course e.seq before)

theorem on_track_step_complete {ids : List Int} {d : Driver cfg} (track : OnTrack clock ids d)
    {batch : ScheduledBatch} (pending : d.pending = some batch)
    (owned : ∀ e ∈ batch.entries, e.seq ∈ d.sched.running) (newTokens : List Int)
    (quiet : ScanFindsNothing clock d newTokens) :
    ∃ after, d.step clock (.stepComplete newTokens) = some after ∧ OnTrack clock ids after ∧
      after.pending = none ∧ totalWork ids after.sched ≤ totalWork ids d.sched ∧
      (batch.entries ≠ [] → totalWork ids after.sched < totalWork ids d.sched) := by
  have consistent := consistent_reached track.reached
  have distinct := (consistent.pending batch pending).distinct
  obtain ⟨⟨sched, callbacks⟩, stepped⟩ :
      ∃ result, d.sched.stepComplete clock batch newTokens = some result := by
    unfold stepComplete
    rw [if_pos owned]
    exact ⟨_, rfl⟩
  have effect := step_complete_effect distinct stepped
  have moved : d.step clock (.stepComplete newTokens) = some
      { sched, pending := none
        log := d.log ++ [.stepped batch newTokens callbacks
          (Driver.changedState d.sched sched .prefill .decode)] } := by
    simp [Driver.step, pending, stepped]
  obtain ⟨sharded, left⟩ := quiet_step_pool distinct stepped (quiet batch pending)
    track.budget.sharded
  have work := step_complete_work track pending effect
  refine ⟨_, moved, ⟨.call track.reached (.stepComplete newTokens) trivial moved, ?_, ?_,
    (step_complete_preemptions stepped).trans track.preemptions, ?_, ?_, ?_, ?_⟩, rfl, work⟩
  · rw [accepted_ids_append]
    exact (List.append_nil _).trans track.accepted
  · rw [aborted_ids_append]
    exact (List.append_nil _).trans track.unaborted
  · apply budget_frame track.budget sharded left
    · exact fun id _ => (step_complete_fields effect id).1
    · exact fun id _ => (step_complete_fields effect id).2
  · intro id waiting
    have inQueue : id ∈ d.sched.waiting := effect.waiting ▸ waiting
    have unnamed : id ∉ batch.entries.map BatchEntry.seq := by
      intro named
      obtain ⟨e, inBatch, rfl⟩ := List.mem_map.mp named
      exact (List.nodup_append.mp consistent.distinct).2.2 e.seq inQueue e.seq
        (effect.owned e inBatch) rfl
    dsimp only
    rw [effect.other_seq id unnamed]
    exact track.waiting id inQueue
  · intro id running
    exact (step_complete_course track pending effect (List.mem_append_right _ running)).running
      running
  · intro id queued
    exact (step_complete_course track pending effect queued).course

/-! ## The rounds -/

theorem on_track_round (limits : PositiveLimits cfg) {ids : List Int} {d : Driver cfg}
    (track : OnTrack clock ids d) (idle : d.pending = none) {newTokens : List Int}
    {rest : List (List Int)} (quiet : NothingExpires clock d (newTokens :: rest)) :
    ∃ after, loopRound clock d newTokens = some after ∧ OnTrack clock ids after ∧
      after.pending = none ∧ NothingExpires clock after rest ∧
      totalWork ids after.sched ≤ totalWork ids d.sched - 1 := by
  obtain ⟨planned, batch, moved, plannedTrack, pending, owned, same, issued⟩ :=
    on_track_schedule limits track idle
  obtain ⟨scan, later⟩ := quiet planned moved
  obtain ⟨after, stepped, afterTrack, cleared, fewer, strictly⟩ :=
    on_track_step_complete plannedTrack pending owned newTokens scan
  refine ⟨after, ?_, afterTrack, cleared, later after stepped, ?_⟩
  · unfold loopRound
    rw [moved]
    exact stepped
  · by_cases finished : totalWork ids d.sched = 0
    · omega
    · have decreased := strictly (issued finished)
      omega

theorem on_track_rounds (limits : PositiveLimits cfg) {ids : List Int}
    (rounds : List (List Int)) {d : Driver cfg} (track : OnTrack clock ids d)
    (idle : d.pending = none) (quiet : NothingExpires clock d rounds) :
    ∃ final, loopRounds clock d rounds = some final ∧ OnTrack clock ids final ∧
      totalWork ids final.sched ≤ totalWork ids d.sched - rounds.length := by
  induction rounds generalizing d with
  | nil => exact ⟨d, rfl, track, le_rfl⟩
  | cons newTokens rest ih =>
      obtain ⟨after, round, afterTrack, cleared, later, decreased⟩ :=
        on_track_round limits track idle quiet
      obtain ⟨final, rest_run, finalTrack, bound⟩ := ih afterTrack cleared later
      refine ⟨final, ?_, finalTrack, ?_⟩
      · unfold loopRounds
        rw [round]
        exact rest_run
      · rw [List.length_cons]
        omega

/-! ## The start of the loop -/

structure Submitted (d : Driver cfg) : Prop where
  idle : d.pending = none
  pool : d.sched.kvPool = PagePoolFast.create cfg.pages 16
  running : d.sched.running = []
  preemptions : d.sched.preemptions = 0
  accepted : acceptedIds d.log = d.sched.waiting
  unaborted : abortedIds d.log = []
  requests : acceptedRequests d.log = d.sched.waiting.map fun id =>
    (((d.sched.seqs id).promptTokens.length : Int), (d.sched.seqs id).maxNewTokens)
  untouched : ∀ id ∈ d.sched.waiting, OnCourse (d.sched.seqs id) ∧
    (d.sched.seqs id).state = .waiting ∧ (d.sched.seqs id).kvPageIds = [] ∧
    (d.sched.seqs id).prefillCursor = 0 ∧ (d.sched.seqs id).outputTokens = []

theorem submits_asks (d : Driver cfg) (call : Call) (meets : Submits d call) :
    call.AsksTokens := by
  cases call with
  | addRequest promptTokens maxNewTokens eosTokenId => exact meets.2
  | abortRequest seqId => trivial
  | schedule => trivial
  | stepComplete newTokens => trivial

theorem submitted_create : Submitted (Driver.create cfg) :=
  ⟨rfl, rfl, rfl, rfl, rfl, rfl, rfl, fun _ member => nomatch member⟩

theorem add_request_preemptions (st : Scheduler cfg) (promptTokens : List Int)
    (maxNewTokens eosTokenId : Int) :
    (st.addRequest promptTokens maxNewTokens eosTokenId).1.preemptions = st.preemptions := by
  unfold addRequest
  dsimp only
  split <;> rfl

theorem submitted_add_request {d after : Driver cfg} (consistent : Consistent d)
    (submitted : Submitted d) {promptTokens : List Int} {maxNewTokens eosTokenId : Int}
    (meets : promptTokens ≠ [] ∧ 1 ≤ maxNewTokens)
    (moved : d.step clock (.addRequest promptTokens maxNewTokens eosTokenId) = some after) :
    Submitted after := by
  obtain ⟨added, event, effect⟩ := step_add_request moved
  have old : ∀ id ∈ d.sched.waiting, after.sched.seqs id = d.sched.seqs id :=
    fun id member => add_effect_old_seq consistent effect (List.mem_append_left _ member)
  have preemptions : after.sched.preemptions = 0 := by
    simp only [Driver.step, Option.some.injEq] at moved
    rw [← moved]
    exact (add_request_preemptions d.sched promptTokens maxNewTokens eosTokenId).trans
      submitted.preemptions
  have requests : acceptedRequests d.log = d.sched.waiting.map fun id =>
      (((after.sched.seqs id).promptTokens.length : Int), (after.sched.seqs id).maxNewTokens) := by
    rw [submitted.requests]
    apply List.map_congr_left
    intro id member
    rw [old id member]
  have untouched : ∀ id ∈ d.sched.waiting, OnCourse (after.sched.seqs id) ∧
      (after.sched.seqs id).state = .waiting ∧ (after.sched.seqs id).kvPageIds = [] ∧
      (after.sched.seqs id).prefillCursor = 0 ∧ (after.sched.seqs id).outputTokens = [] := by
    intro id member
    rw [old id member]
    exact submitted.untouched id member
  have log_append : ∀ {Item : Type} (f : Event cfg.pages → Option Item),
      (d.log ++ [event]).filterMap f = d.log.filterMap f ++ [event].filterMap f :=
    fun f => List.filterMap_append
  obtain ⟨nothing, rfl⟩ | ⟨one, rfl, sequence⟩ := effect.outcome
  · have waiting : after.sched.waiting = d.sched.waiting := by
      rw [effect.waiting, nothing, List.append_nil]
    refine ⟨effect.pending.trans submitted.idle, effect.kvPool.trans submitted.pool,
      effect.running.trans submitted.running, preemptions, ?_, ?_, ?_, waiting ▸ untouched⟩
    · rw [effect.log, accepted_ids_append, waiting, submitted.accepted]
      exact List.append_nil _
    · rw [effect.log, aborted_ids_append, submitted.unaborted]
      rfl
    · rw [effect.log, waiting, ← requests]
      exact (log_append _).trans (List.append_nil _)
  · have waiting : after.sched.waiting = d.sched.waiting ++ [d.sched.nextId] := by
      rw [effect.waiting, one]
    refine ⟨effect.pending.trans submitted.idle, effect.kvPool.trans submitted.pool,
      effect.running.trans submitted.running, preemptions, ?_, ?_, ?_, ?_⟩
    · rw [effect.log, accepted_ids_append, waiting, submitted.accepted]
      rfl
    · rw [effect.log, aborted_ids_append, submitted.unaborted]
      rfl
    · rw [effect.log, waiting, List.map_append, ← requests, List.map_singleton, sequence]
      exact log_append _
    · intro id member
      rw [waiting] at member
      rcases List.mem_append.mp member with here | new
      · exact untouched id here
      · rw [List.mem_singleton.mp new, sequence]
        have prompt : 0 < promptTokens.length := List.length_pos_of_ne_nil meets.1
        refine ⟨⟨?_, le_rfl, Int.natCast_nonneg _, fun _ => ⟨rfl, ?_⟩⟩, rfl, rfl, rfl, rfl⟩
        · exact Int.lt_of_lt_of_le Int.zero_lt_one meets.2
        · exact Int.natCast_pos.mpr prompt

theorem submitted_reached {d : Driver cfg}
    (reached : Reaches (Driver.step clock) Submits (Driver.create cfg) d) : Submitted d := by
  apply reaches_invariant submitted_create _ reached
  intro before call after prior submitted meets moved
  cases call with
  | addRequest promptTokens maxNewTokens eosTokenId =>
      exact submitted_add_request (consistent_reached prior) submitted meets moved
  | abortRequest seqId => exact meets.elim
  | schedule => exact meets.elim
  | stepComplete newTokens => exact meets.elim

theorem page_bound_nonneg (pageSize : 0 < cfg.kvPageSizeTokens) {promptLen maxNewTokens : Int}
    (prompt : 0 ≤ promptLen) : 0 ≤ pageBound cfg promptLen maxNewTokens := by
  apply Int.ceil_nonneg
  have tokens : (0 : ℚ) ≤ ((max (2 * promptLen) (max (promptLen + cfg.kvPageSizeTokens)
      (promptLen + maxNewTokens)) : Int) : ℚ) := by
    exact_mod_cast le_max_of_le_left (by omega)
  have size : (0 : ℚ) ≤ cfg.kvPageSizeTokens := by exact_mod_cast pageSize.le
  exact div_nonneg tokens size

theorem submitted_budget (limits : PositiveLimits cfg) {d : Driver cfg} (submitted : Submitted d)
    (distinct : d.sched.waiting.Nodup)
    (enough : pagesDemanded cfg (acceptedRequests d.log) ≤ cfg.maxPagesTotal) :
    Budgeted d.sched.waiting d.sched := by
  have held : ∀ id ∈ d.sched.waiting, heldNow d.sched id = 0 := by
    intro id member
    rw [heldNow, (submitted.untouched id member).2.2.1]
    rfl
  have bounds : ((d.sched.waiting.map fun id => boundOf cfg (d.sched.seqs id)).sum : Int) =
      pagesDemanded cfg (acceptedRequests d.log) := by
    unfold pagesDemanded
    rw [submitted.requests, List.map_map, Nat.cast_list_sum, List.map_map]
    congr 1
    apply List.map_congr_left
    intro id _
    exact Int.toNat_of_nonneg (page_bound_nonneg limits.pageSize (Int.natCast_nonneg _))
  refine ⟨distinct, submitted.pool ▸ create_sharded, ?_, ?_, ?_⟩
  · rw [submitted.pool, create_available, List.map_congr_left held]
    simp
  · intro id member
    rw [held id member]
    exact Nat.zero_le _
  · exact (Int.le_toNat limits.pages.le).mpr (bounds.le.trans enough)

theorem submitted_work {d : Driver cfg} (submitted : Submitted d) :
    (totalWork d.sched.waiting d.sched : Int) = roundsDemanded (acceptedRequests d.log) := by
  unfold totalWork roundsDemanded
  rw [submitted.requests, List.map_map, Nat.cast_list_sum, List.map_map]
  congr 1
  apply List.map_congr_left
  intro id member
  obtain ⟨course, _, _, cursor, empty⟩ := submitted.untouched id member
  have short := course.short
  rw [empty, List.length_nil] at short
  simp only [Function.comp_apply]
  rw [workLeft, if_pos (List.mem_append_left _ member)]
  unfold workOf Sequence.remainingPrefill
  rw [cursor, empty, List.length_nil]
  omega

theorem submitted_on_track (limits : PositiveLimits cfg) {d : Driver cfg}
    (reached : Reaches (Driver.step clock) Submits (Driver.create cfg) d)
    (enough : pagesDemanded cfg (acceptedRequests d.log) ≤ cfg.maxPagesTotal) :
    OnTrack clock (acceptedIds d.log) d := by
  have submitted := submitted_reached reached
  have distinct := (List.nodup_append.mp (consistent_reached reached).distinct).1
  have queue : d.sched.waiting ++ d.sched.running = d.sched.waiting := by
    rw [submitted.running, List.append_nil]
  refine ⟨reaches_weaken submits_asks reached, rfl, submitted.unaborted, submitted.preemptions,
    submitted.accepted ▸ submitted_budget limits submitted distinct enough,
    fun id member => (submitted.untouched id member).2.1, ?_, ?_⟩
  · rw [submitted.running]
    exact fun _ member => nomatch member
  · rw [queue]
    exact fun id member => (submitted.untouched id member).1

/-- Requests accepted before the first round, with room for the most pages each
of them may need: no round preempts, and after one round for each prompt token
and each token asked for, all of them have completed. -/
theorem driver_loop_finishes (limits : PositiveLimits cfg) {d : Driver cfg}
    (reached : Reaches (Driver.step clock) Submits (Driver.create cfg) d)
    (enough : pagesDemanded cfg (acceptedRequests d.log) ≤ cfg.maxPagesTotal)
    (rounds : List (List Int)) (quiet : NothingExpires clock d rounds) :
    ∃ final, loopRounds clock d rounds = some final ∧ final.sched.preemptions = 0 ∧
      (roundsDemanded (acceptedRequests d.log) ≤ rounds.length →
        ∀ id ∈ acceptedIds d.log, id ∈ completedIds final.log) := by
  have submitted := submitted_reached reached
  obtain ⟨final, executed, track, bound⟩ := on_track_rounds limits rounds
    (submitted_on_track limits reached enough) submitted.idle quiet
  refine ⟨final, executed, track.preemptions, fun long => ?_⟩
  have work := submitted_work submitted
  rw [← submitted.accepted] at work
  rw [← track.accepted]
  exact on_track_completed track (by omega)

instance submitsDecidable (d : Driver cfg) : ∀ call, Decidable (Submits d call)
  | .addRequest promptTokens maxNewTokens _ =>
      inferInstanceAs (Decidable (promptTokens ≠ [] ∧ 1 ≤ maxNewTokens))
  | .abortRequest _ => inferInstanceAs (Decidable False)
  | .schedule => inferInstanceAs (Decidable False)
  | .stepComplete _ => inferInstanceAs (Decidable False)

instance scanFindsNothingDecidable (clock : Clock) (d : Driver cfg) (newTokens : List Int) :
    Decidable (ScanFindsNothing clock d newTokens) :=
  inferInstanceAs (Decidable (∀ batch ∈ d.pending, _))

instance nothingExpiresDecidable (clock : Clock) :
    ∀ (d : Driver cfg) (rounds : List (List Int)), Decidable (NothingExpires clock d rounds)
  | _, [] => inferInstanceAs (Decidable True)
  | d, newTokens :: rest =>
      letI (after : Driver cfg) : Decidable (NothingExpires clock after rest) :=
        nothingExpiresDecidable clock after rest
      inferInstanceAs (Decidable (∀ planned ∈ d.step clock .schedule,
        ScanFindsNothing clock planned newTokens ∧
          ∀ after ∈ planned.step clock (.stepComplete newTokens),
            NothingExpires clock after rest))

/-- Two requests in a pool of exactly the pages they may need, the second ended
by its first token. -/
theorem driver_loop_finishes_two_requests :
    let d := (runCalls (Driver.step tickingClock) Submits
      (Driver.create { kvPageSizeTokens := 1, maxPagesTotal := 7 })
      [.addRequest [7, 7] 2 (-1), .addRequest [5] 2 9]).get (by decide)
    ∃ final, loopRounds tickingClock d [[], [], [3], [9], [4, 1], [], []] = some final ∧
      final.sched.preemptions = 0 ∧ (roundsDemanded (acceptedRequests d.log) ≤ 7 →
        ∀ id ∈ acceptedIds d.log, id ∈ completedIds final.log) := by
  intro d
  exact driver_loop_finishes (d := d) (by constructor <;> decide)
    (reaches_of_run_get _ (by decide)) (by decide +kernel)
    [[], [], [3], [9], [4, 1], [], []] (by decide +kernel)

end AmpFormal.SchedulerCompletion
