import AmpFormal.SchedulerModel
import Mathlib.Tactic.Tauto

/-!
# What `schedule` does to the sequences

One description per operation, valid for every pool: which sequences are
admitted, preempted or issued into the batch, and that everything else is
unchanged. Pages granted by the pool appear only as some list of pages. The
invariants of the later modules are derived from these descriptions and never
look inside the loops again.
-/

namespace AmpFormal.ScheduleEffects

open AmpFormal.PagePoolFastModel AmpFormal.SchedulerModel AmpFormal.SchedulerModel.Scheduler

set_option autoImplicit false

variable {cfg : SchedulerConfig} {clock : Clock}

/-! ## Single sequences -/

def withPages {pages : Nat} (s : Sequence pages) (ids : List (Fin pages)) : Sequence pages :=
  { s with kvPageIds := ids }

def preemptedForm {pages : Nat} (s : Sequence pages) : Sequence pages :=
  { s with state := .waiting, prefillCursor := 0, outputTokens := [], kvPageIds := [] }

/-- A sequence after `promote_waiting` moved it, with the pages it was given. -/
def admittedForm {pages : Nat} (s : Sequence pages) (ids : List (Fin pages)) : Sequence pages :=
  { s with state := .prefill, kvPageIds := ids }

/-- The queues and the counters other than the preemption count agree. -/
structure SameQueues (before after : Scheduler cfg) : Prop where
  waiting : after.waiting = before.waiting
  running : after.running = before.running
  swapped : after.swapped = before.swapped
  nextId : after.nextId = before.nextId
  totalRequests : after.totalRequests = before.totalRequests
  completed : after.completed = before.completed

theorem same_queues_refl (st : Scheduler cfg) : SameQueues st st := ⟨rfl, rfl, rfl, rfl, rfl, rfl⟩

theorem same_queues_trans {first second third : Scheduler cfg} (left : SameQueues first second)
    (right : SameQueues second third) : SameQueues first third :=
  ⟨right.waiting.trans left.waiting, right.running.trans left.running,
    right.swapped.trans left.swapped, right.nextId.trans left.nextId,
    right.totalRequests.trans left.totalRequests, right.completed.trans left.completed⟩

theorem free_pages_seqs (st : Scheduler cfg) (id : Int) :
    (st.freePages id).seqs = Function.update st.seqs id (withPages (st.seqs id) []) := by
  unfold Scheduler.freePages
  split
  case isTrue empty =>
    have same : withPages (st.seqs id) [] = st.seqs id := by
      rw [withPages, ← empty]
    rw [same, Function.update_eq_self]
  case isFalse => rfl

theorem free_pages_same_queues (st : Scheduler cfg) (id : Int) :
    SameQueues st (st.freePages id) := by
  unfold Scheduler.freePages
  split
  · exact same_queues_refl st
  · exact ⟨rfl, rfl, rfl, rfl, rfl, rfl⟩

theorem preempt_seqs (st : Scheduler cfg) (id : Int) :
    (st.preemptSequence id).seqs = Function.update st.seqs id (preemptedForm (st.seqs id)) := by
  simp only [preemptSequence, setSeq, free_pages_seqs, Function.update_idem, Function.update_self]
  rfl

theorem preempt_same_queues (st : Scheduler cfg) (id : Int) :
    SameQueues st (st.preemptSequence id) := by
  have freed := free_pages_same_queues st id
  exact ⟨freed.waiting, freed.running, freed.swapped, freed.nextId, freed.totalRequests,
    freed.completed⟩

/-- The pages an allocation for `nNewTokens` more tokens asks the pool for. -/
def extraPages (st : Scheduler cfg) (id nNewTokens : Int) : Nat :=
  (pagesNeededFor cfg (st.seqs id) nNewTokens - (st.seqs id).kvPageIds.length).toNat

/-- The pool call made by `try_alloc_pages` when pages are missing. -/
def poolAnswer (clock : Clock) (st : Scheduler cfg) (id nNewTokens : Int) :
    PagePoolFast cfg.pages 16 × List (Fin cfg.pages) :=
  st.kvPool.alloc (extraPages st id nNewTokens) id (clock st.ticks)

/-- The state after that call, before the sequence receives its pages. -/
def afterPool (clock : Clock) (st : Scheduler cfg) (id nNewTokens : Int) : Scheduler cfg :=
  { st with kvPool := (poolAnswer clock st id nNewTokens).1, ticks := st.ticks + 1 }

theorem try_alloc_cases (clock : Clock) (st : Scheduler cfg) (id nNewTokens : Int) :
    (extraPages st id nNewTokens = 0 ∧ st.tryAllocPages clock id nNewTokens = (st, true)) ∨
    (0 < extraPages st id nNewTokens ∧
      (poolAnswer clock st id nNewTokens).2.length < extraPages st id nNewTokens ∧
      st.tryAllocPages clock id nNewTokens = (afterPool clock st id nNewTokens, false)) ∨
    (0 < extraPages st id nNewTokens ∧
      ¬(poolAnswer clock st id nNewTokens).2.length < extraPages st id nNewTokens ∧
      st.tryAllocPages clock id nNewTokens =
        ((afterPool clock st id nNewTokens).setSeq id (withPages (st.seqs id)
          ((st.seqs id).kvPageIds ++ (poolAnswer clock st id nNewTokens).2)), true)) := by
  by_cases enough : pagesNeededFor cfg (st.seqs id) nNewTokens ≤ (st.seqs id).kvPageIds.length
  · left
    refine ⟨by unfold extraPages; omega, ?_⟩
    unfold tryAllocPages
    exact if_pos enough
  · right
    have positive : 0 < extraPages st id nNewTokens := by
      unfold extraPages
      omega
    by_cases short : (poolAnswer clock st id nNewTokens).2.length < extraPages st id nNewTokens
    · left
      refine ⟨positive, short, ?_⟩
      unfold tryAllocPages
      exact (if_neg enough).trans (if_pos short)
    · right
      refine ⟨positive, short, ?_⟩
      unfold tryAllocPages
      exact (if_neg enough).trans (if_neg short)

theorem try_alloc_seqs (clock : Clock) (st : Scheduler cfg) (id nNewTokens : Int) :
    ∃ ids, (st.tryAllocPages clock id nNewTokens).1.seqs =
      Function.update st.seqs id (withPages (st.seqs id) ids) := by
  have unchanged : st.seqs =
      Function.update st.seqs id (withPages (st.seqs id) (st.seqs id).kvPageIds) :=
    (Function.update_eq_self id st.seqs).symm
  rcases try_alloc_cases clock st id nNewTokens with
    ⟨_, result⟩ | ⟨_, _, result⟩ | ⟨_, _, result⟩
  · rw [result]
    exact ⟨_, unchanged⟩
  · rw [result]
    exact ⟨_, unchanged⟩
  · rw [result]
    exact ⟨_, rfl⟩

theorem try_alloc_same_queues (clock : Clock) (st : Scheduler cfg) (id nNewTokens : Int) :
    SameQueues st (st.tryAllocPages clock id nNewTokens).1 := by
  rcases try_alloc_cases clock st id nNewTokens with
    ⟨_, result⟩ | ⟨_, _, result⟩ | ⟨_, _, result⟩
  · rw [result]
    exact same_queues_refl st
  · rw [result]
    exact ⟨rfl, rfl, rfl, rfl, rfl, rfl⟩
  · rw [result]
    exact ⟨rfl, rfl, rfl, rfl, rfl, rfl⟩

theorem try_alloc_failed_seqs (st : Scheduler cfg) (id nNewTokens : Int)
    (failed : (st.tryAllocPages clock id nNewTokens).2 = false) :
    (st.tryAllocPages clock id nNewTokens).1.seqs = st.seqs := by
  rcases try_alloc_cases clock st id nNewTokens with
    ⟨_, result⟩ | ⟨_, _, result⟩ | ⟨_, _, result⟩
  · rw [result] at failed
    cases failed
  · rw [result]
    rfl
  · rw [result] at failed
    cases failed

theorem try_alloc_kept_seq (clock : Clock) (st : Scheduler cfg) (id nNewTokens other : Int) :
    ∃ ids, (st.tryAllocPages clock id nNewTokens).1.seqs other =
      withPages (st.seqs other) ids := by
  rcases try_alloc_seqs clock st id nNewTokens with ⟨given, seqs⟩
  by_cases same : other = id
  · subst same
    exact ⟨given, by rw [seqs, Function.update_self]⟩
  · exact ⟨(st.seqs other).kvPageIds, by rw [seqs, Function.update_of_ne same, withPages]⟩

theorem try_alloc_other_seq (clock : Clock) (st : Scheduler cfg) {id other : Int}
    (different : other ≠ id) (nNewTokens : Int) :
    (st.tryAllocPages clock id nNewTokens).1.seqs other = st.seqs other := by
  rcases try_alloc_seqs clock st id nNewTokens with ⟨given, seqs⟩
  rw [seqs, Function.update_of_ne different]

/-! ## Admission -/

/-- `promote_waiting` moves a prefix of the queue it is given to `running_`. -/
structure PromoteEffect (queue : List Int) (before after : Scheduler cfg)
    (admitted : List Int) : Prop where
  taken : queue = admitted ++ after.waiting
  running : after.running = before.running ++ admitted
  swapped : after.swapped = before.swapped
  nextId : after.nextId = before.nextId
  totalRequests : after.totalRequests = before.totalRequests
  completed : after.completed = before.completed
  admitted_seq : ∀ id ∈ admitted, ∃ ids, after.seqs id = admittedForm (before.seqs id) ids
  other_seq : ∀ id, id ∉ admitted → after.seqs id = before.seqs id

theorem promote_loop_effect (clock : Clock) (queue : List Int) (st : Scheduler cfg)
    (head : st.waiting = queue) :
    ∃ admitted, PromoteEffect queue st (st.promoteLoop clock queue) admitted := by
  induction queue generalizing st with
  | nil => exact ⟨[], by simp [promoteLoop, head], by simp [promoteLoop], rfl, rfl, rfl, rfl,
      by simp, fun _ _ => rfl⟩
  | cons front rest ih =>
      unfold promoteLoop
      split
      case isFalse => exact ⟨[], by simp [head], by simp, rfl, rfl, rfl, rfl, by simp,
        fun _ _ => rfl⟩
      case isTrue =>
        have queues := try_alloc_same_queues clock st front cfg.kvPageSizeTokens
        rcases try_alloc_seqs clock st front cfg.kvPageSizeTokens with ⟨ids, seqs⟩
        cases granted : (st.tryAllocPages clock front cfg.kvPageSizeTokens).2 with
        | false =>
            have unchanged := try_alloc_failed_seqs st front cfg.kvPageSizeTokens granted
            simp only [granted, if_false, Bool.false_eq_true]
            exact ⟨[], by simp [queues.waiting, head], by simp [queues.running],
              queues.swapped, queues.nextId, queues.totalRequests, queues.completed, by simp,
              fun id _ => by rw [unchanged]⟩
        | true =>
            simp only [granted, if_true]
            rcases ih (Scheduler.moveFront _ front rest) rfl with ⟨admitted, effect⟩
            refine ⟨front :: admitted, ?_, ?_, ?_, ?_, ?_, ?_, ?_, ?_⟩
            · rw [List.cons_append, ← effect.taken]
            · rw [effect.running]
              simp [moveFront, setSeq, queues.running]
            · rw [effect.swapped]
              exact queues.swapped
            · rw [effect.nextId]
              exact queues.nextId
            · rw [effect.totalRequests]
              exact queues.totalRequests
            · rw [effect.completed]
              exact queues.completed
            · intro id member
              by_cases later : id ∈ admitted
              · rcases effect.admitted_seq id later with ⟨given, same⟩
                refine ⟨given, same.trans ?_⟩
                by_cases atFront : id = front
                · subst atFront
                  simp [moveFront, setSeq, seqs, admittedForm, withPages]
                · simp [moveFront, setSeq, seqs, Function.update_of_ne atFront, admittedForm]
              · rcases List.mem_cons.mp member with rfl | absurdLater
                · refine ⟨ids, (effect.other_seq _ later).trans ?_⟩
                  simp [moveFront, setSeq, seqs, admittedForm, withPages]
                · exact absurd absurdLater later
            · intro id absent
              rw [List.mem_cons, not_or] at absent
              rw [effect.other_seq id absent.2]
              simp [moveFront, setSeq, seqs, Function.update_of_ne absent.1]

/-! ## The prefill loop -/

theorem prefill_step_cases (clock : Clock) (loop : BatchLoop cfg) (id : Int) :
    (loop.chunkFor id ≤ 0 ∧ loop.prefillStep clock id = loop) ∨
    (0 < loop.chunkFor id ∧ (loop.tryAlloc clock id (loop.chunkFor id)).2 = true ∧
      loop.prefillStep clock id =
        (loop.tryAlloc clock id (loop.chunkFor id)).1.emitPrefill id (loop.chunkFor id)) ∨
    (0 < loop.chunkFor id ∧ (loop.tryAlloc clock id (loop.chunkFor id)).2 = false ∧
      loop.decodeSeqs = [] ∧
      loop.prefillStep clock id = (loop.tryAlloc clock id (loop.chunkFor id)).1) ∨
    (0 < loop.chunkFor id ∧ (loop.tryAlloc clock id (loop.chunkFor id)).2 = false ∧
      ∃ rest last middle, loop.decodeSeqs = rest ++ [last] ∧
        middle = (loop.tryAlloc clock id (loop.chunkFor id)).1.preemptLast last ∧
        loop.prefillStep clock id =
          if (middle.tryAlloc clock id (loop.chunkFor id)).2 = true then
            (middle.tryAlloc clock id (loop.chunkFor id)).1.emitPrefill id (loop.chunkFor id)
          else (middle.tryAlloc clock id (loop.chunkFor id)).1) := by
  by_cases empty : loop.chunkFor id ≤ 0
  · left
    exact ⟨empty, if_pos empty⟩
  · right
    have positive : 0 < loop.chunkFor id := by omega
    cases granted : (loop.tryAlloc clock id (loop.chunkFor id)).2 with
    | true =>
        left
        refine ⟨positive, rfl, ?_⟩
        simp only [BatchLoop.prefillStep, if_neg empty, granted, if_true]
    | false =>
        right
        have same : (loop.tryAlloc clock id (loop.chunkFor id)).1.decodeSeqs = loop.decodeSeqs := rfl
        rcases List.eq_nil_or_concat loop.decodeSeqs with none | ⟨rest, last, split⟩
        · left
          refine ⟨positive, rfl, none, ?_⟩
          simp only [BatchLoop.prefillStep, if_neg empty, granted, same, none, List.getLast?_nil,
            Bool.false_eq_true, if_false]
        · right
          refine ⟨positive, rfl, rest, last, _, by simpa using split, rfl, ?_⟩
          simp only [BatchLoop.prefillStep, if_neg empty, granted, same, split,
            List.concat_eq_append, List.getLast?_append, List.getLast?_singleton, Option.some_or,
            Bool.false_eq_true, if_false]

/-- The prefill loop over `refs` pops `popped` off the decode sequences,
preempting them, and issues one entry to some of the prefill sequences. -/
structure PrefillEffect (refs : List Int) (before after : BatchLoop cfg) (popped : List Int)
    (issued : List BatchEntry) : Prop where
  queues : SameQueues before.sched after.sched
  decodeSeqs : before.decodeSeqs = after.decodeSeqs ++ popped
  entries : after.batch.entries = before.batch.entries ++ issued
  sublist : (issued.map BatchEntry.seq).Sublist refs
  popped_seq : ∀ id ∈ popped, after.sched.seqs id = preemptedForm (before.sched.seqs id)
  kept_seq : ∀ id, id ∉ popped → ∃ ids, after.sched.seqs id = withPages (before.sched.seqs id) ids
  other_seq : ∀ id, id ∉ popped → id ∉ refs → after.sched.seqs id = before.sched.seqs id
  issued_entry : ∀ e ∈ issued, e.isPrefill = true ∧
    e.prefillStart = (before.sched.seqs e.seq).prefillCursor ∧ 0 < e.nTokens ∧
    e.nTokens ≤ (before.sched.seqs e.seq).remainingPrefill

theorem prefill_effect_decode_seqs {refs : List Int} {before after : BatchLoop cfg}
    {popped : List Int} {issued : List BatchEntry}
    (effect : PrefillEffect refs before after popped issued) :
    after.decodeSeqs.Sublist before.decodeSeqs := by
  rw [effect.decodeSeqs]
  exact List.sublist_append_left _ _

theorem prefill_effect_refl (refs : List Int) (loop : BatchLoop cfg) :
    PrefillEffect refs loop loop [] [] :=
  ⟨same_queues_refl loop.sched, by simp, by simp, by simp, by simp,
    fun id _ => ⟨(loop.sched.seqs id).kvPageIds, rfl⟩, fun _ _ _ => rfl, by simp⟩

theorem chunk_le_remaining (loop : BatchLoop cfg) (id : Int) :
    loop.chunkFor id ≤ (loop.sched.seqs id).remainingPrefill :=
  (min_le_left _ _).trans (min_le_left _ _)

theorem try_alloc_prefill_effect (clock : Clock) (loop : BatchLoop cfg) (id nNewTokens : Int) :
    PrefillEffect [id] loop (loop.tryAlloc clock id nNewTokens).1 [] [] where
  queues := try_alloc_same_queues clock loop.sched id nNewTokens
  decodeSeqs := (List.append_nil _).symm
  entries := (List.append_nil _).symm
  sublist := List.nil_sublist _
  popped_seq := by simp
  kept_seq other _ := try_alloc_kept_seq clock loop.sched id nNewTokens other
  other_seq other _ outside :=
    try_alloc_other_seq clock loop.sched (List.ne_of_not_mem_cons outside) nNewTokens
  issued_entry := by simp

theorem preempt_last_prefill_effect (refs : List Int) {loop : BatchLoop cfg} {rest : List Int}
    {last : Int} (split : loop.decodeSeqs = rest ++ [last]) :
    PrefillEffect refs loop (loop.preemptLast last) [last] [] where
  queues := preempt_same_queues loop.sched last
  decodeSeqs := by simp [BatchLoop.preemptLast, split]
  entries := (List.append_nil _).symm
  sublist := List.nil_sublist _
  popped_seq other member := by
    obtain rfl := List.mem_singleton.mp member
    simp only [BatchLoop.preemptLast, BatchLoop.preempt, preempt_seqs, Function.update_self]
  kept_seq other outside := by
    refine ⟨(loop.sched.seqs other).kvPageIds, ?_⟩
    simp only [BatchLoop.preemptLast, BatchLoop.preempt, preempt_seqs,
      Function.update_of_ne (List.ne_of_not_mem_cons outside), withPages]
  other_seq other outside _ := by
    simp only [BatchLoop.preemptLast, BatchLoop.preempt, preempt_seqs,
      Function.update_of_ne (List.ne_of_not_mem_cons outside)]
  issued_entry := by simp

theorem emit_prefill_effect (loop : BatchLoop cfg) {id chunk : Int} (positive : 0 < chunk)
    (bound : chunk ≤ (loop.sched.seqs id).remainingPrefill) :
    PrefillEffect [id] loop (loop.emitPrefill id chunk) []
      [⟨id, chunk, true, (loop.sched.seqs id).prefillCursor⟩] where
  queues := same_queues_refl loop.sched
  decodeSeqs := (List.append_nil _).symm
  entries := rfl
  sublist := List.Sublist.refl _
  popped_seq := by simp
  kept_seq other _ := ⟨(loop.sched.seqs other).kvPageIds, rfl⟩
  other_seq _ _ _ := rfl
  issued_entry e member := by
    obtain rfl := List.mem_singleton.mp member
    exact ⟨rfl, rfl, positive, bound⟩

/-- Two effects in a row. A sequence that the first pops is not popped by the second,
and a popped one is not among the prefill sequences, so none is changed twice. -/
theorem prefill_effect_trans {refs refs₁ refs₂ : List Int} {first second third : BatchLoop cfg}
    {popped₁ popped₂ : List Int} {issued₁ issued₂ : List BatchEntry}
    (left : PrefillEffect refs₁ first second popped₁ issued₁)
    (right : PrefillEffect refs₂ second third popped₂ issued₂)
    (inside₁ : ∀ id ∈ refs₁, id ∈ refs) (inside₂ : ∀ id ∈ refs₂, id ∈ refs)
    (order : ((issued₁ ++ issued₂).map BatchEntry.seq).Sublist refs)
    (separate : ∀ id ∈ popped₁, id ∉ popped₂)
    (apart : ∀ id ∈ refs, id ∉ popped₂ ++ popped₁) :
    PrefillEffect refs first third (popped₂ ++ popped₁) (issued₁ ++ issued₂) := by
  refine ⟨same_queues_trans left.queues right.queues, ?_, ?_, order, ?_, ?_, ?_, ?_⟩
  · rw [left.decodeSeqs, right.decodeSeqs, List.append_assoc]
  · rw [right.entries, left.entries, List.append_assoc]
  · intro other member
    have outside : other ∉ refs := fun known => apart other known member
    rcases List.mem_append.mp member with inSecond | inFirst
    · have unchanged : second.sched.seqs other = first.sched.seqs other :=
        left.other_seq other (fun inFirst => separate other inFirst inSecond)
          fun known => outside (inside₁ other known)
      rw [right.popped_seq other inSecond, unchanged]
    · rw [right.other_seq other (separate other inFirst) fun known => outside (inside₂ other known),
        left.popped_seq other inFirst]
  · intro other absent
    rw [List.mem_append, not_or] at absent
    rcases left.kept_seq other absent.2 with ⟨ids, firstSame⟩
    rcases right.kept_seq other absent.1 with ⟨more, secondSame⟩
    refine ⟨more, ?_⟩
    rw [secondSame, firstSame]
    rfl
  · intro other absent outside
    rw [List.mem_append, not_or] at absent
    rw [right.other_seq other absent.1 fun known => outside (inside₂ other known),
      left.other_seq other absent.2 fun known => outside (inside₁ other known)]
  · intro e member
    rcases List.mem_append.mp member with inFirst | inSecond
    · exact left.issued_entry e inFirst
    · have known : e.seq ∈ refs :=
        inside₂ e.seq (right.sublist.subset (List.mem_map_of_mem inSecond))
      rcases left.kept_seq e.seq fun popped => apart e.seq known (List.mem_append_right _ popped)
        with ⟨ids, same⟩
      have entry := right.issued_entry e inSecond
      rw [same] at entry
      exact entry

theorem granted_prefill_effect (clock : Clock) (loop : BatchLoop cfg) {id chunk : Int}
    (positive : 0 < chunk) (bound : chunk ≤ (loop.sched.seqs id).remainingPrefill) :
    ∃ issued, PrefillEffect [id] loop ((loop.tryAlloc clock id chunk).1.emitPrefill id chunk) []
      issued := by
  have tried := try_alloc_prefill_effect clock loop id chunk
  have fits : chunk ≤ ((loop.tryAlloc clock id chunk).1.sched.seqs id).remainingPrefill := by
    rcases tried.kept_seq id List.not_mem_nil with ⟨given, same⟩
    rw [same]
    exact bound
  have emitted := emit_prefill_effect (loop.tryAlloc clock id chunk).1 positive fits
  exact ⟨_, prefill_effect_trans tried emitted (fun _ known => known) (fun _ known => known)
    emitted.sublist (by simp) (by simp)⟩

theorem prefill_step_effect (clock : Clock) (loop : BatchLoop cfg) (id : Int)
    (apart : id ∉ loop.decodeSeqs) :
    ∃ popped issued, PrefillEffect [id] loop (loop.prefillStep clock id) popped issued := by
  have bound := chunk_le_remaining loop id
  have tried := try_alloc_prefill_effect clock loop id (loop.chunkFor id)
  rcases prefill_step_cases clock loop id with
    ⟨_, result⟩ | ⟨positive, _, result⟩ | ⟨_, _, _, result⟩ |
      ⟨positive, _, rest, last, middle, split, middle_eq, result⟩
  · rw [result]
    exact ⟨[], [], prefill_effect_refl [id] loop⟩
  · rw [result]
    exact ⟨[], granted_prefill_effect clock loop positive bound⟩
  · rw [result]
    exact ⟨[], [], tried⟩
  · have different : id ≠ last := by
      intro same
      apply apart
      rw [split, same]
      simp
    -- The retry starts from the state in which the last decode sequence is preempted.
    have preempted : PrefillEffect [id] loop middle [last] [] := by
      rw [middle_eq]
      exact prefill_effect_trans tried (preempt_last_prefill_effect [id] split)
        (fun _ known => known) (fun _ known => known) (List.nil_sublist _) (by simp)
        (by simpa using different)
    have retried : ∀ {after issued}, PrefillEffect [id] middle after [] issued →
        PrefillEffect [id] loop after [last] issued := fun retry =>
      prefill_effect_trans preempted retry (fun _ known => known) (fun _ known => known)
        retry.sublist (by simp) (by simpa using different)
    rw [result]
    split
    case isTrue =>
      have still : loop.chunkFor id ≤ (middle.sched.seqs id).remainingPrefill := by
        rcases preempted.kept_seq id (by simpa using different) with ⟨given, same⟩
        rw [same]
        exact bound
      rcases granted_prefill_effect clock middle positive still with ⟨issued, granted⟩
      exact ⟨[last], issued, retried granted⟩
    case isFalse =>
      exact ⟨[last], [], retried (try_alloc_prefill_effect clock middle id _)⟩

theorem prefill_effect_cons {id : Int} {rest : List Int} {first second third : BatchLoop cfg}
    {popped₁ popped₂ : List Int} {issued₁ issued₂ : List BatchEntry}
    (left : PrefillEffect [id] first second popped₁ issued₁)
    (right : PrefillEffect rest second third popped₂ issued₂)
    (distinct : first.decodeSeqs.Nodup)
    (apart : ∀ other ∈ id :: rest, other ∉ first.decodeSeqs) :
    PrefillEffect (id :: rest) first third (popped₂ ++ popped₁) (issued₁ ++ issued₂) := by
  have decodeSplit : first.decodeSeqs = third.decodeSeqs ++ (popped₂ ++ popped₁) := by
    rw [left.decodeSeqs, right.decodeSeqs, List.append_assoc]
  apply prefill_effect_trans left right
  · intro other known
    rw [List.mem_singleton.mp known]
    exact List.mem_cons_self
  · exact fun other known => List.mem_cons_of_mem id known
  · rw [List.map_append]
    exact left.sublist.append right.sublist
  · intro other inFirst inSecond
    rw [decodeSplit, ← List.append_assoc] at distinct
    exact (List.nodup_append.mp distinct).2.2 other (by simp [inSecond]) other inFirst rfl
  · intro other known popped
    apply apart other known
    rw [decodeSplit]
    exact List.mem_append_right _ popped

theorem prefill_loop_effect (clock : Clock) (refs : List Int) (loop : BatchLoop cfg)
    (distinct : loop.decodeSeqs.Nodup) (apart : ∀ id ∈ refs, id ∉ loop.decodeSeqs) :
    ∃ popped issued, PrefillEffect refs loop (loop.prefillLoop clock refs) popped issued := by
  induction refs generalizing loop with
  | nil => exact ⟨[], [], prefill_effect_refl [] loop⟩
  | cons id rest ih =>
      unfold BatchLoop.prefillLoop
      split
      · exact ⟨[], [], prefill_effect_refl (id :: rest) loop⟩
      · rcases prefill_step_effect clock loop id (apart id (by simp)) with
          ⟨popped₁, issued₁, step⟩
        have shorter := prefill_effect_decode_seqs step
        rcases ih (loop.prefillStep clock id) (distinct.sublist shorter)
          (fun other member inside => apart other (by simp [member]) (shorter.subset inside)) with
          ⟨popped₂, issued₂, remaining⟩
        exact ⟨_, _, prefill_effect_cons step remaining distinct apart⟩

/-! ## The decode loop -/

/-- The decode loop over `refs` preempts some of the sequences and issues one
token to others. -/
structure DecodeEffect (refs : List Int) (before after : BatchLoop cfg) (preempted : List Int)
    (issued : List BatchEntry) : Prop where
  queues : SameQueues before.sched after.sched
  entries : after.batch.entries = before.batch.entries ++ issued
  preempted_sublist : preempted.Sublist refs
  sublist : (issued.map BatchEntry.seq).Sublist refs
  apart : ∀ e ∈ issued, e.seq ∉ preempted
  preempted_seq : ∀ id ∈ preempted, after.sched.seqs id = preemptedForm (before.sched.seqs id)
  kept_seq : ∀ id, id ∉ preempted → ∃ ids, after.sched.seqs id = withPages (before.sched.seqs id) ids
  other_seq : ∀ id, id ∉ refs → after.sched.seqs id = before.sched.seqs id
  issued_entry : ∀ e ∈ issued, e.isPrefill = false ∧ e.nTokens = 1

theorem decode_effect_refl (refs : List Int) (loop : BatchLoop cfg) :
    DecodeEffect refs loop loop [] [] :=
  ⟨same_queues_refl loop.sched, by simp, by simp, by simp, by simp, by simp,
    fun id _ => ⟨(loop.sched.seqs id).kvPageIds, rfl⟩, fun _ _ => rfl, by simp⟩

theorem decode_step_effect (clock : Clock) (loop : BatchLoop cfg) (id : Int) :
    ∃ preempted issued, DecodeEffect [id] loop (loop.decodeStep clock id) preempted issued := by
  have queues := try_alloc_same_queues clock loop.sched id 1
  cases granted : (loop.tryAlloc clock id 1).2 with
  | true =>
      have result : loop.decodeStep clock id = (loop.tryAlloc clock id 1).1.emitDecode id := by
        simp only [BatchLoop.decodeStep, granted, if_true]
      rw [result]
      exact ⟨[], [⟨id, 1, false, 0⟩], queues, rfl, by simp, by simp, by simp, by simp,
        fun other _ => try_alloc_kept_seq clock loop.sched id 1 other,
        fun other outside =>
          try_alloc_other_seq clock loop.sched (List.ne_of_not_mem_cons outside) 1, by simp⟩
  | false =>
      have result : loop.decodeStep clock id = (loop.tryAlloc clock id 1).1.preempt id := by
        simp only [BatchLoop.decodeStep, granted, Bool.false_eq_true, if_false]
      have unchanged : (loop.tryAlloc clock id 1).1.sched.seqs = loop.sched.seqs :=
        try_alloc_failed_seqs loop.sched id 1 granted
      have preemptedSeqs : ((loop.tryAlloc clock id 1).1.preempt id).sched.seqs =
          Function.update loop.sched.seqs id (preemptedForm (loop.sched.seqs id)) := by
        simp only [BatchLoop.preempt, preempt_seqs, unchanged]
      have otherSeq : ∀ other, other ∉ [id] →
          ((loop.tryAlloc clock id 1).1.preempt id).sched.seqs other = loop.sched.seqs other := by
        intro other outside
        rw [preemptedSeqs, Function.update_of_ne (List.ne_of_not_mem_cons outside)]
      rw [result]
      refine ⟨[id], [], same_queues_trans queues (preempt_same_queues _ id),
        by simp [BatchLoop.preempt, BatchLoop.tryAlloc], by simp, by simp, by simp, ?_, ?_,
        otherSeq, by simp⟩
      · intro other member
        obtain rfl := List.mem_singleton.mp member
        rw [preemptedSeqs, Function.update_self]
      · exact fun other outside => ⟨(loop.sched.seqs other).kvPageIds, otherSeq other outside⟩

theorem decode_effect_cons {id : Int} {rest : List Int} {first second third : BatchLoop cfg}
    {preempted₁ preempted₂ : List Int} {issued₁ issued₂ : List BatchEntry}
    (left : DecodeEffect [id] first second preempted₁ issued₁)
    (right : DecodeEffect rest second third preempted₂ issued₂) (fresh : id ∉ rest) :
    DecodeEffect (id :: rest) first third (preempted₁ ++ preempted₂) (issued₁ ++ issued₂) := by
  have early : ∀ other ∈ preempted₁, other = id := by
    intro other member
    simpa using left.preempted_sublist.subset member
  have late : ∀ other ∈ preempted₂, other ≠ id := by
    intro other member same
    exact fresh (same ▸ right.preempted_sublist.subset member)
  have lateSame : ∀ other ∈ rest, second.sched.seqs other = first.sched.seqs other := by
    intro other member
    apply left.other_seq
    intro single
    rw [List.mem_singleton] at single
    exact fresh (single ▸ member)
  refine ⟨same_queues_trans left.queues right.queues, ?_,
    left.preempted_sublist.append right.preempted_sublist, ?_, ?_, ?_, ?_, ?_, ?_⟩
  · rw [right.entries, left.entries, List.append_assoc]
  · rw [List.map_append]
    exact left.sublist.append right.sublist
  · intro e member inside
    rcases List.mem_append.mp member with inFirst | inSecond
    · have here : e.seq = id := by
        simpa using left.sublist.subset (List.mem_map_of_mem inFirst)
      rcases List.mem_append.mp inside with now | later
      · exact left.apart e inFirst now
      · exact late e.seq later here
    · rcases List.mem_append.mp inside with now | later
      · have there : e.seq ∈ rest := right.sublist.subset (List.mem_map_of_mem inSecond)
        exact fresh (early e.seq now ▸ there)
      · exact right.apart e inSecond later
  · intro other member
    rcases List.mem_append.mp member with now | later
    · rw [right.other_seq other (by rw [early other now]; exact fresh), left.preempted_seq other now]
    · rw [right.preempted_seq other later,
        lateSame other (right.preempted_sublist.subset later)]
  · intro other absent
    rw [List.mem_append, not_or] at absent
    rcases left.kept_seq other absent.1 with ⟨ids, firstSame⟩
    rcases right.kept_seq other absent.2 with ⟨more, secondSame⟩
    refine ⟨more, ?_⟩
    rw [secondSame, firstSame]
    rfl
  · intro other outside
    rw [List.mem_cons, not_or] at outside
    rw [right.other_seq other outside.2, left.other_seq other (by simpa using outside.1)]
  · intro e member
    rcases List.mem_append.mp member with inFirst | inSecond
    · exact left.issued_entry e inFirst
    · exact right.issued_entry e inSecond

theorem decode_loop_effect (clock : Clock) (refs : List Int) (loop : BatchLoop cfg)
    (distinct : refs.Nodup) :
    ∃ preempted issued, DecodeEffect refs loop (loop.decodeLoop clock refs) preempted issued := by
  induction refs generalizing loop with
  | nil => exact ⟨[], [], decode_effect_refl [] loop⟩
  | cons id rest ih =>
      unfold BatchLoop.decodeLoop
      split
      · exact ⟨[], [], decode_effect_refl (id :: rest) loop⟩
      · rcases decode_step_effect clock loop id with ⟨preempted₁, issued₁, step⟩
        rcases ih (loop.decodeStep clock id) (List.nodup_cons.mp distinct).2 with
          ⟨preempted₂, issued₂, remaining⟩
        exact ⟨_, _, decode_effect_cons step remaining (List.nodup_cons.mp distinct).1⟩

/-! ## Both loops -/

/-- The two loops of `schedule`: only decode sequences are preempted, and every
entry names another sequence, a prefill sequence or a decode sequence that stays. -/
structure BatchEffect (prefillSeqs decodeSeqs : List Int) (before after : BatchLoop cfg)
    (preempted : List Int) (issued : List BatchEntry) : Prop where
  queues : SameQueues before.sched after.sched
  entries : after.batch.entries = before.batch.entries ++ issued
  preempted_from : ∀ id ∈ preempted, id ∈ decodeSeqs
  preempted_seq : ∀ id ∈ preempted, after.sched.seqs id = preemptedForm (before.sched.seqs id)
  kept_seq : ∀ id, id ∉ preempted → ∃ ids, after.sched.seqs id = withPages (before.sched.seqs id) ids
  other_seq : ∀ id, id ∉ prefillSeqs → id ∉ decodeSeqs →
    after.sched.seqs id = before.sched.seqs id
  issued_nodup : (issued.map BatchEntry.seq).Nodup
  prefill_entry : ∀ e ∈ issued, e.isPrefill = true → e.seq ∈ prefillSeqs ∧ e.seq ∉ preempted ∧
    e.prefillStart = (before.sched.seqs e.seq).prefillCursor ∧ 0 < e.nTokens ∧
      e.nTokens ≤ (before.sched.seqs e.seq).remainingPrefill
  decode_entry : ∀ e ∈ issued, e.isPrefill = false → e.seq ∈ decodeSeqs ∧ e.seq ∉ preempted ∧
    e.nTokens = 1

theorem batch_effect_of {prefillSeqs : List Int} {start middle final : BatchLoop cfg}
    {popped preempted : List Int} {issuedPrefill issuedDecode : List BatchEntry}
    (prefilled : PrefillEffect prefillSeqs start middle popped issuedPrefill)
    (decoded : DecodeEffect middle.decodeSeqs middle final preempted issuedDecode)
    (prefillDistinct : prefillSeqs.Nodup) (decodeDistinct : start.decodeSeqs.Nodup)
    (apart : ∀ id ∈ prefillSeqs, id ∉ start.decodeSeqs) :
    BatchEffect prefillSeqs start.decodeSeqs start final (popped ++ preempted)
      (issuedPrefill ++ issuedDecode) := by
  have decodeSplit := prefilled.decodeSeqs
  have whole := List.nodup_append.mp (decodeSplit ▸ decodeDistinct)
  have poppedFrom : ∀ id ∈ popped, id ∈ start.decodeSeqs := by
    intro id member
    rw [decodeSplit]
    exact List.mem_append_right _ member
  have remainingFrom : ∀ id ∈ middle.decodeSeqs, id ∈ start.decodeSeqs ∧ id ∉ popped := by
    intro id member
    refine ⟨by rw [decodeSplit]; exact List.mem_append_left _ member, fun gone => ?_⟩
    exact whole.2.2 id member id gone rfl
  have preemptedFrom : ∀ id ∈ popped ++ preempted, id ∈ start.decodeSeqs := by
    intro id member
    rcases List.mem_append.mp member with early | late
    · exact poppedFrom id early
    · exact (remainingFrom id (decoded.preempted_sublist.subset late)).1
  have issuedFromPrefill : ∀ e ∈ issuedPrefill, e.seq ∈ prefillSeqs :=
    fun e member => prefilled.sublist.subset (List.mem_map_of_mem member)
  have issuedFromDecode : ∀ e ∈ issuedDecode, e.seq ∈ middle.decodeSeqs :=
    fun e member => decoded.sublist.subset (List.mem_map_of_mem member)
  refine ⟨same_queues_trans prefilled.queues decoded.queues, ?_, preemptedFrom, ?_, ?_, ?_, ?_,
    ?_, ?_⟩
  · rw [decoded.entries, prefilled.entries, List.append_assoc]
  · intro id member
    rcases List.mem_append.mp member with early | late
    · have skipped : id ∉ middle.decodeSeqs := fun inside => (remainingFrom id inside).2 early
      rw [decoded.other_seq id skipped, prefilled.popped_seq id early]
    · have remaining := decoded.preempted_sublist.subset late
      rcases prefilled.kept_seq id (remainingFrom id remaining).2 with ⟨ids, same⟩
      rw [decoded.preempted_seq id late, same]
      rfl
  · intro id absent
    rw [List.mem_append, not_or] at absent
    rcases prefilled.kept_seq id absent.1 with ⟨ids, firstSame⟩
    rcases decoded.kept_seq id absent.2 with ⟨more, secondSame⟩
    refine ⟨more, ?_⟩
    rw [secondSame, firstSame]
    rfl
  · intro id notPrefill notDecode
    rw [decoded.other_seq id (fun inside => notDecode (remainingFrom id inside).1),
      prefilled.other_seq id (fun inside => notDecode (poppedFrom id inside)) notPrefill]
  · rw [List.map_append, List.nodup_append]
    refine ⟨prefillDistinct.sublist prefilled.sublist, whole.1.sublist decoded.sublist, ?_⟩
    intro id inPrefillPart other inDecodePart same
    subst same
    exact apart id (prefilled.sublist.subset inPrefillPart)
      (remainingFrom id (decoded.sublist.subset inDecodePart)).1
  · intro e member kind
    rcases List.mem_append.mp member with early | late
    · have known := issuedFromPrefill e early
      exact ⟨known, fun inside => apart e.seq known (preemptedFrom e.seq inside),
        (prefilled.issued_entry e early).2⟩
    · have wrong := (decoded.issued_entry e late).1
      rw [kind] at wrong
      cases wrong
  · intro e member kind
    rcases List.mem_append.mp member with early | late
    · have wrong := (prefilled.issued_entry e early).1
      rw [kind] at wrong
      cases wrong
    · have known := remainingFrom e.seq (issuedFromDecode e late)
      refine ⟨known.1, ?_, (decoded.issued_entry e late).2⟩
      rw [List.mem_append, not_or]
      exact ⟨known.2, decoded.apart e late⟩

theorem batch_loops_effect (clock : Clock) (prefillSeqs : List Int) (start : BatchLoop cfg)
    (prefillDistinct : prefillSeqs.Nodup) (decodeDistinct : start.decodeSeqs.Nodup)
    (apart : ∀ id ∈ prefillSeqs, id ∉ start.decodeSeqs) :
    ∃ preempted issued, BatchEffect prefillSeqs start.decodeSeqs start
      ((start.prefillLoop clock prefillSeqs).decodeLoop clock
        (start.prefillLoop clock prefillSeqs).decodeSeqs) preempted issued := by
  rcases prefill_loop_effect clock prefillSeqs start decodeDistinct apart with
    ⟨popped, issuedPrefill, prefilled⟩
  have middleDistinct := (List.nodup_append.mp (prefilled.decodeSeqs ▸ decodeDistinct)).1
  rcases decode_loop_effect clock _ (start.prefillLoop clock prefillSeqs) middleDistinct with
    ⟨preempted, issuedDecode, decoded⟩
  exact ⟨_, _, batch_effect_of prefilled decoded prefillDistinct decodeDistinct apart⟩

/-! ## The whole call of `schedule` -/

/-- Admission takes a prefix of the waiting queue; preemption hits sequences
in DECODE; every entry names a different running sequence, in the state its kind
asks for, and a prefill chunk starts at the cursor and ends inside the prompt. -/
structure ScheduleEffect (before after : Scheduler cfg) (batch : ScheduledBatch)
    (admitted preempted : List Int) : Prop where
  waiting : before.waiting = admitted ++ after.waiting
  running : after.running = before.running ++ admitted
  swapped : after.swapped = before.swapped
  nextId : after.nextId = before.nextId
  totalRequests : after.totalRequests = before.totalRequests
  completed : after.completed = before.completed
  preempted_from : ∀ id ∈ preempted, id ∈ before.running ∧ (before.seqs id).state = .decode
  preempted_seq : ∀ id ∈ preempted, after.seqs id = preemptedForm (before.seqs id)
  admitted_seq : ∀ id ∈ admitted, ∃ ids, after.seqs id = admittedForm (before.seqs id) ids
  kept_seq : ∀ id, id ∉ preempted → id ∉ admitted →
    ∃ ids, after.seqs id = withPages (before.seqs id) ids
  other_seq : ∀ id, id ∉ after.running → after.seqs id = before.seqs id
  entries_nodup : (batch.entries.map BatchEntry.seq).Nodup
  entry_prefill : ∀ e ∈ batch.entries, e.isPrefill = true →
    e.seq ∈ after.running ∧ (after.seqs e.seq).state = .prefill ∧
      e.prefillStart = (after.seqs e.seq).prefillCursor ∧ 0 < e.nTokens ∧
      e.nTokens ≤ (after.seqs e.seq).remainingPrefill
  entry_decode : ∀ e ∈ batch.entries, e.isPrefill = false →
    e.seq ∈ after.running ∧ (after.seqs e.seq).state = .decode ∧ e.nTokens = 1

theorem mem_in_state_iff (st : Scheduler cfg) (state : SeqState) (id : Int) (refs : List Int) :
    id ∈ refs.filter (st.inState state) ↔ id ∈ refs ∧ (st.seqs id).state = state := by
  simp [inState]

/-- `schedule` visits no sequence in both of its loops. -/
theorem prefill_apart_decode (st : Scheduler cfg) :
    ∀ id ∈ st.running.filter (st.inState .prefill), id ∉ st.running.filter (st.inState .decode) := by
  intro id prefilling decoding
  rw [mem_in_state_iff] at prefilling decoding
  rw [decoding.2] at prefilling
  cases prefilling.2

theorem schedule_sched (clock : Clock) {st middle : Scheduler cfg}
    (promoted : st.promoteWaiting clock = middle) :
    (st.schedule clock).1 = (BatchLoop.decodeLoop clock
      (middle.startBatch.prefillLoop clock
        (middle.running.filter (middle.inState .prefill))).decodeSeqs
      (middle.startBatch.prefillLoop clock
        (middle.running.filter (middle.inState .prefill)))).sched := by
  rw [← promoted]
  rfl

theorem promoted_running_nodup {st after : Scheduler cfg} {admitted : List Int}
    (distinct : (st.waiting ++ st.running).Nodup)
    (promoted : PromoteEffect st.waiting st after admitted) : after.running.Nodup := by
  have whole : (st.running ++ (admitted ++ after.waiting)).Nodup := by
    rw [← promoted.taken]
    exact List.nodup_append_comm.mp distinct
  rw [promoted.running]
  exact whole.sublist ((List.Sublist.refl _).append (List.sublist_append_left _ _))

theorem promoted_decoding {st middle : Scheduler cfg} {admitted : List Int}
    (promoted : PromoteEffect st.waiting st middle admitted) {id : Int}
    (member : id ∈ middle.running.filter (middle.inState .decode)) :
    id ∈ st.running ∧ id ∉ admitted ∧ middle.seqs id = st.seqs id := by
  rcases (mem_in_state_iff _ _ _ _).mp member with ⟨running, state⟩
  have old : id ∉ admitted := by
    intro new
    rcases promoted.admitted_seq id new with ⟨ids, same⟩
    rw [same] at state
    cases state
  rw [promoted.running, List.mem_append] at running
  exact ⟨running.resolve_right old, old, promoted.other_seq id old⟩

theorem schedule_effect_of {st middle : Scheduler cfg} {final : BatchLoop cfg}
    {admitted preempted : List Int} {issued : List BatchEntry}
    (promoted : PromoteEffect st.waiting st middle admitted)
    (effect : BatchEffect (middle.running.filter (middle.inState .prefill))
      (middle.running.filter (middle.inState .decode)) middle.startBatch final preempted issued) :
    ScheduleEffect st final.sched final.batch admitted preempted := by
  have queues : SameQueues middle final.sched := effect.queues
  have entries : final.batch.entries = issued := effect.entries
  have kept : ∀ id, id ∉ preempted → ∃ ids, final.sched.seqs id = withPages (middle.seqs id) ids :=
    effect.kept_seq
  have decodeFrom : ∀ id ∈ preempted,
      id ∈ st.running ∧ id ∉ admitted ∧ middle.seqs id = st.seqs id :=
    fun id member => promoted_decoding promoted (effect.preempted_from id member)
  refine ⟨?_, ?_, queues.swapped.trans promoted.swapped, queues.nextId.trans promoted.nextId,
    queues.totalRequests.trans promoted.totalRequests, queues.completed.trans promoted.completed,
    ?_, ?_, ?_, ?_, ?_, ?_, ?_, ?_⟩
  · rw [queues.waiting]
    exact promoted.taken
  · rw [queues.running]
    exact promoted.running
  · intro id member
    refine ⟨(decodeFrom id member).1, ?_⟩
    rw [← (decodeFrom id member).2.2]
    exact ((mem_in_state_iff _ _ _ _).mp (effect.preempted_from id member)).2
  · intro id member
    rw [← (decodeFrom id member).2.2]
    exact effect.preempted_seq id member
  · intro id member
    rcases promoted.admitted_seq id member with ⟨given, admittedSame⟩
    rcases kept id fun inside => (decodeFrom id inside).2.1 member with ⟨ids, same⟩
    refine ⟨ids, ?_⟩
    rw [same, admittedSame]
    rfl
  · intro id notPreempted notAdmitted
    rcases kept id notPreempted with ⟨ids, same⟩
    refine ⟨ids, ?_⟩
    rw [same, promoted.other_seq id notAdmitted]
  · intro id stopped
    rw [queues.running] at stopped
    have outside : ∀ state, id ∉ middle.running.filter (middle.inState state) :=
      fun state inside => stopped (List.mem_of_mem_filter inside)
    have notAdmitted : id ∉ admitted := by
      intro inside
      apply stopped
      rw [promoted.running]
      exact List.mem_append_right _ inside
    exact (effect.other_seq id (outside _) (outside _)).trans (promoted.other_seq id notAdmitted)
  · rw [entries]
    exact effect.issued_nodup
  · intro e member kind
    rw [entries] at member
    rcases effect.prefill_entry e member kind with ⟨inPrefill, absent, first, positive, bound⟩
    rcases (mem_in_state_iff _ _ _ _).mp inPrefill with ⟨running, state⟩
    rcases kept e.seq absent with ⟨ids, same⟩
    rw [queues.running, same]
    exact ⟨running, state, first, positive, bound⟩
  · intro e member kind
    rw [entries] at member
    rcases effect.decode_entry e member kind with ⟨inDecode, absent, single⟩
    rcases (mem_in_state_iff _ _ _ _).mp inDecode with ⟨running, state⟩
    rcases kept e.seq absent with ⟨ids, same⟩
    rw [queues.running, same]
    exact ⟨running, state, single⟩

theorem schedule_effect (clock : Clock) (st : Scheduler cfg)
    (distinct : (st.waiting ++ st.running).Nodup) :
    ∃ admitted preempted, ScheduleEffect st (st.schedule clock).1 (st.schedule clock).2
      admitted preempted := by
  rcases promote_loop_effect clock st.waiting st rfl with ⟨admitted, promoted⟩
  have runningDistinct := promoted_running_nodup distinct promoted
  change PromoteEffect st.waiting st (st.promoteWaiting clock) admitted at promoted
  change (st.promoteWaiting clock).running.Nodup at runningDistinct
  generalize middle_eq : st.promoteWaiting clock = middle at promoted runningDistinct
  rcases batch_loops_effect clock (middle.running.filter (middle.inState .prefill))
    middle.startBatch (runningDistinct.filter _) (runningDistinct.filter _)
    (prefill_apart_decode middle) with
    ⟨preempted, issued, effect⟩
  generalize final_eq : BatchLoop.decodeLoop clock _ _ = final at effect
  have result : st.schedule clock = (final.sched, final.batch) := by
    rw [← final_eq, ← middle_eq]
    rfl
  rw [result]
  exact ⟨admitted, preempted, schedule_effect_of promoted effect⟩

theorem schedule_seq_cases {before after : Scheduler cfg} {batch : ScheduledBatch}
    {admitted preempted : List Int}
    (effect : ScheduleEffect before after batch admitted preempted) (id : Int) :
    (id ∈ preempted ∧ id ∈ before.running ∧ (before.seqs id).state = .decode ∧
      after.seqs id = preemptedForm (before.seqs id)) ∨
    (id ∈ admitted ∧ id ∈ before.waiting ∧
      ∃ ids, after.seqs id = admittedForm (before.seqs id) ids) ∨
    (id ∉ preempted ∧ id ∉ admitted ∧ ∃ ids, after.seqs id = withPages (before.seqs id) ids) := by
  by_cases gone : id ∈ preempted
  · left
    rcases effect.preempted_from id gone with ⟨running, state⟩
    exact ⟨gone, running, state, effect.preempted_seq id gone⟩
  · right
    by_cases new : id ∈ admitted
    · left
      refine ⟨new, ?_, effect.admitted_seq id new⟩
      rw [effect.waiting]
      exact List.mem_append_left _ new
    · right
      exact ⟨gone, new, effect.kept_seq id gone new⟩

/-- `schedule` only moves ids from one queue to the other. -/
theorem schedule_queues_perm {before after : Scheduler cfg} {batch : ScheduledBatch}
    {admitted preempted : List Int}
    (effect : ScheduleEffect before after batch admitted preempted) :
    (before.waiting ++ before.running).Perm (after.waiting ++ after.running) := by
  rw [effect.waiting, effect.running, List.append_assoc]
  apply List.Perm.trans (List.perm_append_comm_assoc _ _ _)
  exact List.Perm.append_left _ List.perm_append_comm

end AmpFormal.ScheduleEffects
