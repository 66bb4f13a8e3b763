import AmpFormal.SchedulerRuns
import Mathlib.Data.List.Perm.Basic

/-!
# The lifecycle of a request

Every accepted id stays in exactly one place: waiting, running, completed or
aborted. The places partition the accepted ids, which is kept as a permutation,
so that no call can lose or duplicate one. What the completion callback is given
is compared with the tokens the log says were assigned to the sequence since its
last preemption.
-/

namespace AmpFormal.SchedulerLifecycle

open AmpFormal.PagePoolFastModel AmpFormal.SchedulerModel AmpFormal.SchedulerModel.Scheduler
open AmpFormal.ScheduleEffects AmpFormal.StepCompleteEffects
open AmpFormal.TransitionRuns AmpFormal.SchedulerRuns

set_option autoImplicit false

/-! ## Reading the log -/

section Log

variable {pages : Nat}

def acceptedIds (log : List (Event pages)) : List Int :=
  log.filterMap fun
    | .accepted id _ _ _ => some id
    | _ => none

def abortedIds (log : List (Event pages)) : List Int :=
  log.filterMap fun
    | .aborted id _ => some id
    | _ => none

/-- The calls of the completion callback, in order. -/
def completions (log : List (Event pages)) : List (Int × List Int) :=
  log.flatMap fun
    | .stepped _ _ callbacks _ => callbacks
    | _ => []

abbrev completedIds (log : List (Event pages)) : List Int := (completions log).map Prod.fst

def tokensFor (id : Int) (assigned : List (Int × Int)) : List Int :=
  (assigned.filter fun one => one.1 = id).map Prod.snd

def assignedAfter (id : Int) (tokens : List Int) : Event pages → List Int
  | .scheduled _ preempted => if id ∈ preempted then [] else tokens
  | .stepped batch newTokens _ _ => tokens ++ tokensFor id (assignedTokens batch newTokens)
  | _ => tokens

/-- The tokens assigned to the decode entries of a sequence since its last
preemption. -/
def assignedSince (id : Int) (log : List (Event pages)) : List Int :=
  log.foldl (assignedAfter id) []

theorem assigned_since_append (id : Int) (log : List (Event pages)) (event : Event pages) :
    assignedSince id (log ++ [event]) = assignedAfter id (assignedSince id log) event := by
  simp [assignedSince]

theorem accepted_ids_append (log : List (Event pages)) (event : Event pages) :
    acceptedIds (log ++ [event]) = acceptedIds log ++ acceptedIds [event] :=
  List.filterMap_append

theorem aborted_ids_append (log : List (Event pages)) (event : Event pages) :
    abortedIds (log ++ [event]) = abortedIds log ++ abortedIds [event] :=
  List.filterMap_append

theorem completions_append (log : List (Event pages)) (event : Event pages) :
    completions (log ++ [event]) = completions log ++ completions [event] :=
  List.flatMap_append

theorem tokens_for_absent {id : Int} {assigned : List (Int × Int)}
    (absent : id ∉ assigned.map Prod.fst) : tokensFor id assigned = [] := by
  unfold tokensFor
  rw [List.map_eq_nil_iff, List.filter_eq_nil_iff]
  intro one member
  have different : one.1 ≠ id := fun same => absent (same ▸ List.mem_map_of_mem member)
  simpa using different

theorem tokens_for_member {id tok : Int} {assigned : List (Int × Int)}
    (distinct : (assigned.map Prod.fst).Nodup) (member : (id, tok) ∈ assigned) :
    tokensFor id assigned = [tok] := by
  induction assigned with
  | nil => cases member
  | cons first rest ih =>
      rw [List.map_cons, List.nodup_cons] at distinct
      rcases List.mem_cons.mp member with here | later
      · subst here
        have tail := tokens_for_absent distinct.1
        unfold tokensFor at tail ⊢
        rw [List.filter_cons_of_pos (by simp), List.map_cons, tail]
      · have different : first.1 ≠ id := by
          intro same
          exact distinct.1 (same ▸ List.mem_map_of_mem (f := Prod.fst) later)
        have tail := ih distinct.2 later
        unfold tokensFor at tail ⊢
        rw [List.filter_cons_of_neg (by simpa using different), tail]

end Log

/-! ## The property -/

structure EndsWell (maxNewTokens eosTokenId : Int) (tokens : List Int) : Prop where
  nonempty : 1 ≤ tokens.length
  bounded : (tokens.length : Int) ≤ maxNewTokens
  eos_last : 0 ≤ eosTokenId → eosTokenId ∉ tokens.dropLast
  reason : (0 ≤ eosTokenId ∧ tokens.getLast? = some eosTokenId) ∨
    (tokens.length : Int) = maxNewTokens

/-- The lifecycle of every request accepted so far. -/
structure Lifecycle {cfg : SchedulerConfig} (d : Driver cfg) : Prop where
  one_place : ∀ id ∈ acceptedIds d.log,
    (d.sched.waiting ++ d.sched.running ++ completedIds d.log ++ abortedIds d.log).count id = 1
  called_once : (completedIds d.log).Nodup
  received : ∀ id tokens, (id, tokens) ∈ completions d.log → tokens = assignedSince id d.log
  ends_well : ∀ id tokens, (id, tokens) ∈ completions d.log →
    ∃ promptTokens maxNewTokens eosTokenId,
      Event.accepted id promptTokens maxNewTokens eosTokenId ∈ d.log ∧
        EndsWell maxNewTokens eosTokenId tokens

/-- The caller asks for at least one token and aborts only between a
`step_complete` and the next `schedule`. -/
def Orderly {cfg : SchedulerConfig} (d : Driver cfg) : Call → Prop
  | .addRequest _ maxNewTokens _ => 1 ≤ maxNewTokens
  | .abortRequest _ => d.pending = none
  | _ => True

instance orderlyDecidable {cfg : SchedulerConfig} (d : Driver cfg) :
    ∀ call, Decidable (Orderly d call)
  | .addRequest _ maxNewTokens _ => inferInstanceAs (Decidable (1 ≤ maxNewTokens))
  | .abortRequest _ => inferInstanceAs (Decidable (d.pending = none))
  | .schedule => inferInstanceAs (Decidable True)
  | .stepComplete _ => inferInstanceAs (Decidable True)

/-! ## The invariant -/

structure Live {pages : Nat} (log : List (Event pages)) (id : Int) (s : Sequence pages) :
    Prop where
  accepted : Event.accepted id s.promptTokens s.maxNewTokens s.eosTokenId ∈ log
  active : s.isDone = false
  tokens : s.outputTokens = assignedSince id log
  short : (s.outputTokens.length : Int) < s.maxNewTokens
  unfinished : 0 ≤ s.eosTokenId → s.eosTokenId ∉ s.outputTokens

structure Tracked {cfg : SchedulerConfig} (d : Driver cfg) : Prop where
  places : (d.sched.waiting ++ d.sched.running ++ completedIds d.log ++ abortedIds d.log).Perm
    (acceptedIds d.log)
  distinct : (acceptedIds d.log).Nodup
  fresh : ∀ id ∈ acceptedIds d.log, id < d.sched.nextId
  unborn : ∀ id, id ∉ acceptedIds d.log → assignedSince id d.log = []
  live : ∀ id ∈ d.sched.waiting ++ d.sched.running, Live d.log id (d.sched.seqs id)
  received : ∀ id tokens, (id, tokens) ∈ completions d.log → tokens = assignedSince id d.log
  ends_well : ∀ id tokens, (id, tokens) ∈ completions d.log →
    ∃ promptTokens maxNewTokens eosTokenId,
      Event.accepted id promptTokens maxNewTokens eosTokenId ∈ d.log ∧
        EndsWell maxNewTokens eosTokenId tokens

theorem tracked_lifecycle {cfg : SchedulerConfig} {d : Driver cfg} (tracked : Tracked d) :
    Lifecycle d := by
  have placesDistinct := tracked.places.nodup_iff.mpr tracked.distinct
  refine ⟨?_, ?_, tracked.received, tracked.ends_well⟩
  · intro id member
    rw [tracked.places.count_eq]
    exact List.count_eq_one_of_mem tracked.distinct member
  · rw [List.append_assoc] at placesDistinct
    exact (List.nodup_append.mp (List.nodup_append.mp placesDistinct).2.1).1

section Invariant

variable {cfg : SchedulerConfig} {clock : Clock}

theorem tracked_places_apart {d : Driver cfg} (tracked : Tracked d) {id : Int}
    (queued : id ∈ d.sched.waiting ++ d.sched.running) : id ∉ completedIds d.log := by
  intro completed
  have distinct := tracked.places.nodup_iff.mpr tracked.distinct
  rw [List.append_assoc] at distinct
  exact (List.nodup_append.mp distinct).2.2 id queued id (List.mem_append_left _ completed) rfl

theorem tracked_queued_accepted {d : Driver cfg} (tracked : Tracked d) {id : Int}
    (queued : id ∈ d.sched.waiting ++ d.sched.running) : id ∈ acceptedIds d.log := by
  apply tracked.places.subset
  rw [List.append_assoc]
  exact List.mem_append_left _ queued

theorem live_frame {pages : Nat} {log : List (Event pages)} {id : Int} {s : Sequence pages}
    (live : Live log id s) {event : Event pages}
    (quiet : assignedAfter id (assignedSince id log) event = assignedSince id log) :
    Live (log ++ [event]) id s := by
  refine ⟨List.mem_append_left _ live.accepted, live.active, ?_, live.short, live.unfinished⟩
  rw [assigned_since_append, quiet]
  exact live.tokens

theorem live_with_pages {pages : Nat} {log : List (Event pages)} {id : Int} {s : Sequence pages}
    (live : Live log id s) (ids : List (Fin pages)) : Live log id (withPages s ids) :=
  ⟨live.accepted, live.active, live.tokens, live.short, live.unfinished⟩

theorem live_admitted {pages : Nat} {log : List (Event pages)} {id : Int} {s : Sequence pages}
    (live : Live log id s) (ids : List (Fin pages)) : Live log id (admittedForm s ids) :=
  ⟨live.accepted, rfl, live.tokens, live.short, live.unfinished⟩

theorem live_advance {pages : Nat} {log : List (Event pages)} {id : Int} {s : Sequence pages}
    (live : Live log id s) (n : Int) : Live log id (s.advancePrefill n) := by
  have active := advance_prefill_done s n live.active
  rcases advance_prefill_cases s n with ⟨_, same⟩ | ⟨_, same⟩
  · rw [same] at active ⊢
    exact ⟨live.accepted, active, live.tokens, live.short, live.unfinished⟩
  · rw [same] at active ⊢
    exact ⟨live.accepted, active, live.tokens, live.short, live.unfinished⟩

theorem erase_queues_perm {waiting running : List Int} {id : Int}
    (distinct : (waiting ++ running).Nodup) (queued : id ∈ waiting ++ running) :
    (id :: (waiting.erase id ++ running.erase id)).Perm (waiting ++ running) := by
  rw [List.nodup_append] at distinct
  by_cases inWaiting : id ∈ waiting
  · have notRunning : id ∉ running := fun inRunning => distinct.2.2 id inWaiting id inRunning rfl
    rw [List.erase_of_not_mem notRunning, ← List.cons_append]
    exact (List.perm_cons_erase inWaiting).symm.append_right running
  · have inRunning := (List.mem_append.mp queued).resolve_left inWaiting
    rw [List.erase_of_not_mem inWaiting]
    apply List.Perm.trans List.perm_middle.symm
    exact (List.perm_cons_erase inRunning).symm.append_left waiting

theorem tracked_create : Tracked (Driver.create cfg) := by
  refine ⟨List.Perm.refl _, List.nodup_nil, ?_, fun _ _ => rfl, ?_, ?_, ?_⟩
  · intro id member
    cases member
  · intro id member
    cases member
  · intro id tokens member
    cases member
  · intro id tokens member
    cases member

theorem accepted_frame {d : Driver cfg} (tracked : Tracked d) {log : List (Event cfg.pages)}
    {nextId : Int} (accepted : acceptedIds log = acceptedIds d.log)
    (same : nextId = d.sched.nextId) :
    (acceptedIds log).Nodup ∧ ∀ id ∈ acceptedIds log, id < nextId := by
  rw [accepted, same]
  exact ⟨tracked.distinct, tracked.fresh⟩

/-- What the log says about finished requests survives an event that completes
none and assigns nothing to a completed one. -/
theorem ended_frame {d after : Driver cfg} (tracked : Tracked d) {event : Event cfg.pages}
    (log : after.log = d.log ++ [event]) (none_completed : completions [event] = [])
    (quiet : ∀ id ∈ completedIds d.log,
      assignedAfter id (assignedSince id d.log) event = assignedSince id d.log) :
    (∀ id tokens, (id, tokens) ∈ completions after.log → tokens = assignedSince id after.log) ∧
    (∀ id tokens, (id, tokens) ∈ completions after.log →
      ∃ promptTokens maxNewTokens eosTokenId,
        Event.accepted id promptTokens maxNewTokens eosTokenId ∈ after.log ∧
          EndsWell maxNewTokens eosTokenId tokens) := by
  have same : completions after.log = completions d.log := by
    rw [log, completions_append, none_completed, List.append_nil]
  constructor
  · intro id tokens member
    rw [same] at member
    rw [log, assigned_since_append, quiet id (List.mem_map_of_mem (f := Prod.fst) member)]
    exact tracked.received id tokens member
  · intro id tokens member
    rw [same] at member
    rcases tracked.ends_well id tokens member with ⟨prompt, maxNew, eos, accepted, ends⟩
    rw [log]
    exact ⟨prompt, maxNew, eos, List.mem_append_left _ accepted, ends⟩

theorem tracked_add_request {d after : Driver cfg} (tracked : Tracked d)
    {promptTokens : List Int} {maxNewTokens eosTokenId : Int} (positive : 1 ≤ maxNewTokens)
    (moved : d.step clock (.addRequest promptTokens maxNewTokens eosTokenId) = some after) :
    Tracked after := by
  rcases step_add_request moved with ⟨added, event, effect⟩
  have stranger : d.sched.nextId ∉ acceptedIds d.log :=
    fun member => lt_irrefl _ (tracked.fresh _ member)
  have quiet : ∀ id tokens, assignedAfter id tokens event = tokens := fun id tokens =>
    add_effect_event effect (motive := fun event => assignedAfter id tokens event = tokens) rfl
      fun _ _ _ _ => rfl
  have accepted : acceptedIds after.log = acceptedIds d.log ++ added := by
    rw [effect.log, accepted_ids_append]
    rcases effect.outcome with ⟨nothing, rejected⟩ | ⟨one, accepted, _⟩
    · rw [nothing, rejected]
      rfl
    · rw [one, accepted]
      rfl
  have aborted : abortedIds after.log = abortedIds d.log := by
    have none : abortedIds [event] = [] :=
      add_effect_event effect (motive := fun event => abortedIds [event] = []) rfl
        fun _ _ _ _ => rfl
    rw [effect.log, aborted_ids_append, none, List.append_nil]
  have noneCompleted : completions [event] = [] :=
    add_effect_event effect (motive := fun event => completions [event] = []) rfl
      fun _ _ _ _ => rfl
  have completed : completedIds after.log = completedIds d.log := by
    unfold completedIds
    rw [effect.log, completions_append, noneCompleted, List.append_nil]
  have ended := ended_frame tracked effect.log noneCompleted fun id _ => quiet id _
  refine ⟨?_, ?_, ?_, ?_, ?_, ended.1, ended.2⟩
  · rw [accepted, aborted, completed, effect.waiting, effect.running]
    apply List.perm_iff_count.mpr
    intro id
    have known := tracked.places.count_eq id
    simp only [List.count_append] at known ⊢
    omega
  · rw [accepted]
    rcases effect.outcome with ⟨nothing, _⟩ | ⟨one, _⟩
    · rw [nothing, List.append_nil]
      exact tracked.distinct
    · rw [one, List.nodup_append_comm]
      exact List.nodup_cons.mpr ⟨stranger, tracked.distinct⟩
  · intro id member
    rw [accepted, List.mem_append] at member
    rw [effect.nextId]
    rcases member with old | new
    · exact (tracked.fresh id old).trans (lt_add_one _)
    · rcases effect.outcome with ⟨nothing, _⟩ | ⟨one, _⟩
      · rw [nothing] at new
        cases new
      · rw [one, List.mem_singleton] at new
        omega
  · intro id absent
    rw [accepted, List.mem_append, not_or] at absent
    rw [effect.log, assigned_since_append, quiet]
    exact tracked.unborn id absent.1
  · intro id queued
    rw [effect.log]
    rcases add_effect_queued effect queued with old | ⟨rfl, event_eq, sequence⟩
    · have different : id ≠ d.sched.nextId := by
        intro same
        exact stranger (same ▸ tracked_queued_accepted tracked old)
      rw [effect.other_seq id different]
      exact live_frame (tracked.live id old) (quiet id _)
    · rw [sequence]
      refine ⟨by simp [event_eq], rfl, ?_, by simp; omega, by simp⟩
      rw [assigned_since_append, quiet, tracked.unborn _ stranger]

theorem tracked_abort_request {d after : Driver cfg} (consistent : Consistent d)
    (tracked : Tracked d) {seqId : Int}
    (moved : d.step clock (.abortRequest seqId) = some after) : Tracked after := by
  rcases step_abort_request consistent.unswapped moved with ⟨sched, _, found⟩
  rcases abort_request_effect d.sched seqId consistent.unswapped consistent.distinct with
    ⟨effect, _⟩
  rw [← sched] at effect
  rcases found with ⟨absent, log⟩ | ⟨queued, log⟩
  · have waiting : after.sched.waiting = d.sched.waiting := by
      rw [effect.waiting, List.erase_of_not_mem]
      exact fun member => absent (List.mem_append_left _ member)
    have running : after.sched.running = d.sched.running := by
      rw [effect.running, List.erase_of_not_mem]
      exact fun member => absent (List.mem_append_right _ member)
    refine ⟨?_, ?_, ?_, ?_, ?_, ?_, ?_⟩
    · rw [log, waiting, running]
      exact tracked.places
    · rw [log]
      exact tracked.distinct
    · rw [log, effect.nextId]
      exact tracked.fresh
    · rw [log]
      exact tracked.unborn
    · intro id member
      rw [waiting, running] at member
      rw [log, effect.other_seq id (fun same => absent (same ▸ member))]
      exact tracked.live id member
    · rw [log]
      exact tracked.received
    · rw [log]
      exact tracked.ends_well
  · have accepted : acceptedIds after.log = acceptedIds d.log := by
      rw [log, accepted_ids_append]
      exact List.append_nil _
    have aborted : abortedIds after.log = abortedIds d.log ++ [seqId] := by
      rw [log, aborted_ids_append]
      rfl
    have completed : completedIds after.log = completedIds d.log := by
      unfold completedIds
      rw [log, completions_append]
      simp [completions]
    have ended := ended_frame tracked log rfl fun _ _ => rfl
    have known := accepted_frame tracked accepted effect.nextId
    refine ⟨?_, known.1, known.2, ?_, ?_, ended.1, ended.2⟩
    · rw [accepted, aborted, completed, effect.waiting, effect.running]
      apply List.perm_iff_count.mpr
      intro id
      have known := tracked.places.count_eq id
      have moves := (erase_queues_perm consistent.distinct queued).count_eq id
      simp only [List.count_append, List.count_cons, List.count_nil] at known moves ⊢
      omega
    · intro id absent
      rw [accepted] at absent
      rw [log, assigned_since_append]
      exact tracked.unborn id absent
    · intro id member
      have old := abort_effect_queued effect member
      have different := abort_effect_left effect consistent.distinct member
      rw [log, effect.other_seq id different]
      exact live_frame (tracked.live id old) rfl

theorem live_schedule {d : Driver cfg} (consistent : Consistent d) (tracked : Tracked d)
    {sched : Scheduler cfg} {batch : ScheduledBatch} {admitted preempted : List Int}
    (effect : ScheduleEffect d.sched sched batch admitted preempted) {id : Int}
    (queued : id ∈ sched.waiting ++ sched.running) :
    Live (d.log ++ [.scheduled batch (Driver.changedState d.sched sched .decode .waiting)]) id
      (sched.seqs id) := by
  have live := tracked.live id ((schedule_queues_perm effect).mem_iff.mpr queued)
  have seen_iff : id ∈ Driver.changedState d.sched sched .decode .waiting ↔
      id ∈ d.sched.running ∧ (d.sched.seqs id).state = .decode ∧
        (sched.seqs id).state = .waiting := by
    unfold Driver.changedState
    rw [List.mem_filter]
    simp [inState]
  rcases schedule_seq_cases effect id with
    ⟨_, running, state, same⟩ | ⟨_, waiting, ids, same⟩ | ⟨_, _, ids, same⟩
  · have inside := seen_iff.mpr ⟨running, state, by rw [same]; rfl⟩
    rw [same]
    refine ⟨List.mem_append_left _ live.accepted, rfl, ?_, ?_, fun _ => List.not_mem_nil⟩
    · rw [assigned_since_append]
      exact (if_pos inside).symm
    · have bound := live.short
      change ((0 : Nat) : Int) < (d.sched.seqs id).maxNewTokens
      omega
  · have outside : ¬id ∈ Driver.changedState d.sched sched .decode .waiting := by
      intro inside
      exact (List.nodup_append.mp consistent.distinct).2.2 id waiting id (seen_iff.mp inside).1 rfl
    rw [same]
    exact live_frame (live_admitted live ids) (if_neg outside)
  · have outside : ¬id ∈ Driver.changedState d.sched sched .decode .waiting := by
      intro inside
      rcases seen_iff.mp inside with ⟨_, before, later⟩
      rw [same] at later
      cases before.symm.trans later
    rw [same]
    exact live_frame (live_with_pages live ids) (if_neg outside)

theorem tracked_schedule {d after : Driver cfg} (consistent : Consistent d)
    (tracked : Tracked d) (moved : d.step clock .schedule = some after) : Tracked after := by
  rcases step_schedule moved with ⟨_, rfl⟩
  rcases schedule_effect clock d.sched consistent.distinct with
    ⟨admitted, preempted, effect⟩
  have lives : ∀ id ∈ (d.sched.schedule clock).1.waiting ++ (d.sched.schedule clock).1.running,
      Live (d.log ++ [.scheduled (d.sched.schedule clock).2
        (Driver.changedState d.sched (d.sched.schedule clock).1 .decode .waiting)]) id
        ((d.sched.schedule clock).1.seqs id) :=
    fun _ queued => live_schedule consistent tracked effect queued
  have seenRunning : ∀ id ∈ Driver.changedState d.sched (d.sched.schedule clock).1 .decode .waiting,
      id ∈ d.sched.running := fun id member => List.mem_of_mem_filter member
  generalize Driver.changedState d.sched (d.sched.schedule clock).1 .decode .waiting = seen
    at lives seenRunning ⊢
  generalize (d.sched.schedule clock).1 = sched at effect lives ⊢
  generalize (d.sched.schedule clock).2 = batch at effect lives ⊢
  have accepted : acceptedIds (d.log ++ [.scheduled batch seen]) = acceptedIds d.log := by
    rw [accepted_ids_append]
    exact List.append_nil _
  have aborted : abortedIds (d.log ++ [.scheduled batch seen]) = abortedIds d.log := by
    rw [aborted_ids_append]
    exact List.append_nil _
  have completed : completedIds (d.log ++ [.scheduled batch seen]) = completedIds d.log := by
    unfold completedIds
    rw [completions_append]
    simp [completions]
  generalize after_eq : (⟨sched, some batch, d.log ++ [.scheduled batch seen]⟩ : Driver cfg) = after
  have log : after.log = d.log ++ [.scheduled batch seen] := by
    rw [← after_eq]
  have ended := ended_frame tracked log rfl (by
    intro id done
    have absent : id ∉ seen := by
      intro inside
      exact tracked_places_apart tracked (List.mem_append_right _ (seenRunning id inside)) done
    exact if_neg absent)
  subst after_eq
  have known := accepted_frame tracked accepted effect.nextId
  refine ⟨?_, known.1, known.2, ?_, lives, ended.1, ended.2⟩
  · rw [accepted, aborted, completed]
    exact (((schedule_queues_perm effect).symm.append_right _).append_right _).trans tracked.places
  · intro id absent
    rw [accepted] at absent
    rw [assigned_since_append, tracked.unborn id absent]
    exact ite_self _

theorem callbacks_removed {d : Driver cfg} (consistent : Consistent d)
    {after : Scheduler cfg} {batch : ScheduledBatch} {newTokens : List Int}
    {callbacks : List (Int × List Int)} (distinct : (batch.entries.map BatchEntry.seq).Nodup)
    (effect : StepEffect d.sched batch newTokens after callbacks) :
    (after.running ++ callbacks.map Prod.fst).Perm d.sched.running := by
  have runningDistinct := (List.nodup_append.mp consistent.distinct).2.1
  have removed : (callbacks.map Prod.fst).Perm
      (d.sched.running.filter fun id => (after.seqs id).isDone) := by
    apply (List.perm_ext_iff_of_nodup (step_callbacks_nodup distinct effect)
      (runningDistinct.filter _)).mpr
    intro id
    rw [List.mem_filter]
    constructor
    · intro called
      rcases List.mem_map.mp called with ⟨⟨_, toks⟩, member, rfl⟩
      rcases (step_callback_iff effect _ toks).mp member with ⟨tok, assigned, finished, _⟩
      rcases assigned_seq_mem assigned with ⟨e, inBatch, _, same⟩
      refine ⟨same ▸ effect.owned e inBatch, ?_⟩
      rw [effect.decode_seq _ assigned, decoded_form_finished finished]
      rfl
    · intro done
      rcases done with ⟨running, done⟩
      have active := consistent.active id (List.mem_append_right _ running)
      rcases step_seq_cases effect id with
        ⟨tok, assigned, _, same⟩ | ⟨_, _, e, _, _, _, same⟩ | ⟨_, _, same⟩
      · rw [same, decoded_form_done _ tok active] at done
        exact List.mem_map_of_mem (f := Prod.fst)
          ((step_callback_iff effect id _).mpr ⟨tok, assigned, done, rfl⟩)
      · rw [same, advance_prefill_done _ _ active] at done
        cases done
      · rw [same, active] at done
        cases done
  rw [effect.running]
  apply List.Perm.trans (List.Perm.append_left _ removed)
  apply List.Perm.trans List.perm_append_comm
  exact List.filter_append_perm _ _

/-- The tokens of a live request after its decode entry, and how they end if
they do. -/
theorem finishes_ends_well {pages : Nat} {log : List (Event pages)} {id tok : Int}
    {s : Sequence pages} (live : Live log id s)
    (finished : (s.appendToken tok).finishes tok = true) :
    EndsWell s.maxNewTokens s.eosTokenId (s.outputTokens ++ [tok]) := by
  have short := live.short
  have length : (s.outputTokens ++ [tok]).length = s.outputTokens.length + 1 := by simp
  refine ⟨by omega, by omega, ?_, ?_⟩
  · intro valid
    rw [List.dropLast_concat]
    exact live.unfinished valid
  · rcases (finishes_iff _ tok).mp finished with full | ⟨valid, same⟩
    · right
      change s.maxNewTokens ≤ ((s.outputTokens ++ [tok]).length : Int) at full
      omega
    · left
      refine ⟨valid, ?_⟩
      rw [List.getLast?_concat, same]
      rfl

theorem unfinished_lives {pages : Nat} {log : List (Event pages)} {event : Event pages}
    {id tok : Int} {s : Sequence pages} (live : Live log id s)
    (unfinished : (s.appendToken tok).finishes tok = false)
    (assigned : assignedSince id (log ++ [event]) = assignedSince id log ++ [tok]) :
    Live (log ++ [event]) id (s.appendToken tok) := by
  have open_ended := (finishes_iff _ tok).not.mp (Bool.eq_false_iff.mp unfinished)
  rw [not_or] at open_ended
  change ¬s.maxNewTokens ≤ ((s.outputTokens ++ [tok]).length : Int) ∧ _ at open_ended
  refine ⟨List.mem_append_left _ live.accepted, live.active, ?_, not_le.mp open_ended.1, ?_⟩
  · rw [assigned, ← live.tokens]
    rfl
  · intro valid inside
    rcases List.mem_append.mp inside with old | new
    · exact live.unfinished valid old
    · exact open_ended.2 ⟨valid, (List.mem_singleton.mp new).symm⟩

/-- A sequence still queued after a `step_complete` has not ended in it. -/
theorem live_step_complete {d : Driver cfg} (consistent : Consistent d) (tracked : Tracked d)
    {sched : Scheduler cfg} {batch : ScheduledBatch} {newTokens : List Int}
    {callbacks : List (Int × List Int)} (entered : List Int)
    (distinct : (batch.entries.map BatchEntry.seq).Nodup)
    (effect : StepEffect d.sched batch newTokens sched callbacks) {id : Int}
    (queued : id ∈ sched.waiting ++ sched.running) :
    Live (d.log ++ [.stepped batch newTokens callbacks entered]) id (sched.seqs id) := by
  rw [effect.waiting, effect.running] at queued
  have live := tracked.live id
    ((List.Sublist.append (List.Sublist.refl _) List.filter_sublist).subset queued)
  have assigned : assignedSince id (d.log ++ [.stepped batch newTokens callbacks entered]) =
      assignedSince id d.log ++ tokensFor id (assignedTokens batch newTokens) :=
    assigned_since_append id d.log _
  rcases step_seq_cases effect id with
    ⟨tok, member, running, same⟩ | ⟨absent, _, e, _, _, _, same⟩ | ⟨absent, _, same⟩
  · have stays : (sched.seqs id).isDone = false := by
      rcases List.mem_append.mp queued with waiting | kept
      · exact absurd rfl ((List.nodup_append.mp consistent.distinct).2.2 id waiting id running)
      · simpa using (List.mem_filter.mp kept).2
    rw [same, decoded_form_done _ tok live.active] at stays
    rw [same, decoded_form_running stays]
    apply unfinished_lives live stays
    rw [assigned, tokens_for_member (step_assigned_nodup newTokens distinct) member]
  · rw [same]
    apply live_frame (live_advance live e.nTokens)
    change _ ++ tokensFor id _ = _
    rw [tokens_for_absent absent, List.append_nil]
  · rw [same]
    apply live_frame live
    change _ ++ tokensFor id _ = _
    rw [tokens_for_absent absent, List.append_nil]

theorem tracked_step_complete {d after : Driver cfg} (consistent : Consistent d)
    (tracked : Tracked d) {newTokens : List Int}
    (moved : d.step clock (.stepComplete newTokens) = some after) : Tracked after := by
  rcases step_step_complete moved with ⟨batch, ⟨sched, callbacks⟩, pending, stepped, rfl⟩
  have distinct := (consistent.pending batch pending).distinct
  have effect := step_complete_effect distinct stepped
  have removed := callbacks_removed consistent distinct effect
  generalize Driver.changedState d.sched sched .prefill .decode = entered
  dsimp only
  have accepted : acceptedIds (d.log ++ [.stepped batch newTokens callbacks entered]) =
      acceptedIds d.log := by
    rw [accepted_ids_append]
    exact List.append_nil _
  have aborted : abortedIds (d.log ++ [.stepped batch newTokens callbacks entered]) =
      abortedIds d.log := by
    rw [aborted_ids_append]
    exact List.append_nil _
  have completed : completions (d.log ++ [.stepped batch newTokens callbacks entered]) =
      completions d.log ++ callbacks := by
    rw [completions_append]
    simp [completions]
  have assigned : ∀ id, assignedSince id (d.log ++ [.stepped batch newTokens callbacks entered]) =
      assignedSince id d.log ++ tokensFor id (assignedTokens batch newTokens) :=
    fun id => assigned_since_append id d.log _
  have assignedQueued : ∀ id ∈ (assignedTokens batch newTokens).map Prod.fst,
      id ∈ d.sched.waiting ++ d.sched.running := by
    intro id member
    rcases List.mem_map.mp member with ⟨one, inside, rfl⟩
    rcases assigned_seq_mem inside with ⟨e, inBatch, _, same⟩
    exact List.mem_append_right _ (same ▸ effect.owned e inBatch)
  have known := accepted_frame tracked accepted effect.nextId
  refine ⟨?_, known.1, known.2, ?_,
    fun id => live_step_complete consistent tracked entered distinct effect, ?_, ?_⟩
  · dsimp only
    unfold completedIds
    rw [accepted, aborted, completed, effect.waiting, List.map_append]
    apply List.perm_iff_count.mpr
    intro id
    have known := tracked.places.count_eq id
    have moves := removed.count_eq id
    unfold completedIds at known
    simp only [List.count_append] at known moves ⊢
    omega
  · intro id absent
    rw [accepted] at absent
    rw [assigned, tracked.unborn id absent, tokens_for_absent, List.append_nil]
    exact fun member => absent (tracked_queued_accepted tracked (assignedQueued id member))
  · intro id tokens member
    rw [completed, List.mem_append] at member
    rw [assigned]
    rcases member with old | new
    · have absent : id ∉ (assignedTokens batch newTokens).map Prod.fst := by
        intro inside
        exact tracked_places_apart tracked (assignedQueued id inside)
          (List.mem_map_of_mem (f := Prod.fst) old)
      rw [tokens_for_absent absent, List.append_nil]
      exact tracked.received id tokens old
    · rcases (step_callback_iff effect id tokens).mp new with ⟨tok, inside, _, rfl⟩
      rw [tokens_for_member (step_assigned_nodup newTokens distinct) inside,
        (tracked.live id (assignedQueued id (List.mem_map_of_mem (f := Prod.fst) inside))).tokens]
  · intro id tokens member
    rw [completed, List.mem_append] at member
    rcases member with old | new
    · rcases tracked.ends_well id tokens old with ⟨prompt, maxNew, eos, known, ends⟩
      exact ⟨prompt, maxNew, eos, List.mem_append_left _ known, ends⟩
    · rcases (step_callback_iff effect id tokens).mp new with ⟨tok, inside, finished, rfl⟩
      have live := tracked.live id (assignedQueued id (List.mem_map_of_mem (f := Prod.fst) inside))
      exact ⟨_, _, _, List.mem_append_left _ live.accepted, finishes_ends_well live finished⟩

theorem tracked_step {d after : Driver cfg} (consistent : Consistent d) (tracked : Tracked d)
    {call : Call} (asks : call.AsksTokens) (moved : d.step clock call = some after) :
    Tracked after := by
  cases call with
  | addRequest promptTokens maxNewTokens eosTokenId => exact tracked_add_request tracked asks moved
  | abortRequest seqId => exact tracked_abort_request consistent tracked moved
  | schedule => exact tracked_schedule consistent tracked moved
  | stepComplete newTokens => exact tracked_step_complete consistent tracked moved

theorem tracked_reached {allowed : Driver cfg → Call → Prop}
    (asks : ∀ d call, allowed d call → call.AsksTokens) {d : Driver cfg}
    (reached : Driver.Reached clock allowed d) : Tracked d :=
  reaches_invariant tracked_create
    (fun before call _ prior tracked meets moved =>
      tracked_step (consistent_reached prior) tracked (asks before call meets) moved) reached

theorem orderly_asks (d : Driver cfg) (call : Call) (meets : Orderly d call) :
    call.AsksTokens := by
  cases call with
  | addRequest promptTokens maxNewTokens eosTokenId => exact meets
  | abortRequest seqId => trivial
  | schedule => trivial
  | stepComplete newTokens => trivial

/-- In every reachable state of an orderly run the lifecycle of each accepted
request is intact. -/
theorem request_lifecycle {d : Driver cfg} (reached : Driver.Reached clock Orderly d) :
    Lifecycle d :=
  tracked_lifecycle (tracked_reached orderly_asks reached)

/-- Two requests, one ended by its end-of-sequence token and one aborted. -/
theorem request_lifecycle_two_requests :
    Lifecycle ((runCalls (Driver.step tickingClock) Orderly
      (Driver.create { kvPageSizeTokens := 1, maxPagesTotal := 8 })
      [.addRequest [7] 5 9, .addRequest [5] 3 (-1), .schedule, .stepComplete [],
        .schedule, .stepComplete [3, 4], .abortRequest 1, .schedule,
        .stepComplete [9]]).get (by decide)) :=
  request_lifecycle (reaches_of_run_get _ (by decide))

end Invariant

end AmpFormal.SchedulerLifecycle
