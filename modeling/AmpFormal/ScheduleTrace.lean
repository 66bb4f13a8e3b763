import AmpFormal.ScheduleEffects
import Mathlib.Logic.Relation

/-!
# `schedule` as a sequence of small steps

Every change `schedule` makes to the scheduler is one of three: an allocation
for a queued sequence, the preemption of a running one, the move of the front of
the waiting queue. A property kept by each of them is kept by the call, so an
invariant of the pages needs no induction over the loops of its own.
-/

namespace AmpFormal.ScheduleTrace

open AmpFormal.PagePoolFastModel AmpFormal.SchedulerModel AmpFormal.SchedulerModel.Scheduler
open AmpFormal.ScheduleEffects

set_option autoImplicit false

variable {cfg : SchedulerConfig} {clock : Clock}

inductive Micro (clock : Clock) : Scheduler cfg → Scheduler cfg → Prop where
  | alloc (st : Scheduler cfg) (id nNewTokens : Int) (queued : id ∈ st.waiting ++ st.running) :
      Micro clock st (st.tryAllocPages clock id nNewTokens).1
  | preempt (st : Scheduler cfg) (id : Int) (running : id ∈ st.running) :
      Micro clock st (st.preemptSequence id)
  | promote (st : Scheduler cfg) (front : Int) (rest : List Int)
      (head : st.waiting = front :: rest) : Micro clock st (st.moveFront front rest)

abbrev Trace (clock : Clock) (before after : Scheduler cfg) : Prop :=
  Relation.ReflTransGen (Micro clock) before after

/-- The invariant rule for the changes made by `schedule`. -/
theorem trace_invariant {motive : Scheduler cfg → Prop}
    (preserved : ∀ before after, Micro clock before after → motive before → motive after)
    {before after : Scheduler cfg} (trace : Trace clock before after) (initial : motive before) :
    motive after := by
  induction trace with
  | refl => exact initial
  | tail _ last ih => exact preserved _ _ last ih

theorem promote_loop_trace (queue : List Int) (st : Scheduler cfg) (head : st.waiting = queue) :
    Trace clock st (st.promoteLoop clock queue) := by
  induction queue generalizing st with
  | nil => exact .refl
  | cons front rest ih =>
      unfold promoteLoop
      split
      case isFalse => exact .refl
      case isTrue =>
        have queued : front ∈ st.waiting ++ st.running := by simp [head]
        have first : Micro clock st _ := .alloc st front cfg.kvPageSizeTokens queued
        have queues := try_alloc_same_queues clock st front cfg.kvPageSizeTokens
        dsimp only
        split
        case isFalse => exact .single first
        case isTrue =>
          have second : Micro clock (st.tryAllocPages clock front cfg.kvPageSizeTokens).1 _ :=
            .promote _ front rest (queues.waiting.trans head)
          exact (Relation.ReflTransGen.single first).trans
            ((Relation.ReflTransGen.single second).trans (ih _ rfl))

theorem prefill_step_trace (loop : BatchLoop cfg) (id : Int) (running : id ∈ loop.sched.running)
    (decoding : ∀ other ∈ loop.decodeSeqs, other ∈ loop.sched.running) :
    Trace clock loop.sched (loop.prefillStep clock id).sched := by
  have first : Micro clock loop.sched _ :=
    .alloc loop.sched id (loop.chunkFor id) (List.mem_append_right _ running)
  have firstQueues := try_alloc_same_queues clock loop.sched id (loop.chunkFor id)
  rcases prefill_step_cases clock loop id with
    ⟨_, result⟩ | ⟨_, _, result⟩ | ⟨_, _, _, result⟩ |
      ⟨_, _, rest, last, middle, split, middle_eq, result⟩
  · rw [result]
  · rw [result]
    exact .single first
  · rw [result]
    exact .single first
  · have lastRunning : last ∈ loop.sched.running := decoding last (by simp [split])
    have second : Micro clock (loop.tryAlloc clock id (loop.chunkFor id)).1.sched _ :=
      .preempt _ last (by
        change last ∈ (loop.sched.tryAllocPages clock id (loop.chunkFor id)).1.running
        rw [firstQueues.running]
        exact lastRunning)
    have toMiddle : Trace clock loop.sched middle.sched := by
      rw [middle_eq]
      exact (Relation.ReflTransGen.single first).tail second
    have middleRunning : middle.sched.running = loop.sched.running := by
      rw [middle_eq]
      exact (preempt_same_queues _ last).running.trans firstQueues.running
    have third : Micro clock middle.sched _ :=
      .alloc middle.sched id (loop.chunkFor id)
        (List.mem_append_right _ (middleRunning ▸ running))
    rw [result]
    split
    · exact toMiddle.tail third
    · exact toMiddle.tail third

theorem prefill_loop_trace (refs : List Int) (loop : BatchLoop cfg)
    (distinct : loop.decodeSeqs.Nodup) (apart : ∀ id ∈ refs, id ∉ loop.decodeSeqs)
    (running : ∀ id ∈ refs, id ∈ loop.sched.running)
    (decoding : ∀ id ∈ loop.decodeSeqs, id ∈ loop.sched.running) :
    Trace clock loop.sched (loop.prefillLoop clock refs).sched := by
  induction refs generalizing loop with
  | nil => exact .refl
  | cons id rest ih =>
      unfold BatchLoop.prefillLoop
      split
      · exact .refl
      · rcases prefill_step_effect clock loop id (apart id (by simp)) with
          ⟨popped, issued, step⟩
        have kept := prefill_effect_decode_seqs step
        apply (prefill_step_trace loop id (running id (by simp)) decoding).trans
        apply ih _ (distinct.sublist kept)
        · exact fun other member inside => apart other (by simp [member]) (kept.subset inside)
        · intro other member
          rw [step.queues.running]
          exact running other (by simp [member])
        · intro other member
          rw [step.queues.running]
          exact decoding other (kept.subset member)

theorem decode_loop_trace (refs : List Int) (loop : BatchLoop cfg)
    (running : ∀ id ∈ refs, id ∈ loop.sched.running) :
    Trace clock loop.sched (loop.decodeLoop clock refs).sched := by
  induction refs generalizing loop with
  | nil => exact .refl
  | cons id rest ih =>
      unfold BatchLoop.decodeLoop
      split
      · exact .refl
      · have first : Micro clock loop.sched _ :=
          .alloc loop.sched id 1 (List.mem_append_right _ (running id (by simp)))
        have queues := try_alloc_same_queues clock loop.sched id 1
        have step : Trace clock loop.sched (loop.decodeStep clock id).sched := by
          unfold BatchLoop.decodeStep
          dsimp only
          split
          · exact .single first
          · apply (Relation.ReflTransGen.single first).tail
            apply Micro.preempt
            rw [queues.running]
            exact running id (by simp)
        rcases decode_step_effect clock loop id with ⟨preempted, issued, effect⟩
        apply step.trans
        apply ih
        intro other member
        rw [effect.queues.running]
        exact running other (by simp [member])

theorem schedule_trace (st : Scheduler cfg) (distinct : (st.waiting ++ st.running).Nodup) :
    Trace clock st (st.schedule clock).1 := by
  rcases promote_loop_effect clock st.waiting st rfl with ⟨admitted, promoted⟩
  have runningDistinct := promoted_running_nodup distinct promoted
  change (st.promoteWaiting clock).running.Nodup at runningDistinct
  have first : Trace clock st (st.promoteWaiting clock) := promote_loop_trace st.waiting st rfl
  generalize middle_eq : st.promoteWaiting clock = middle at runningDistinct first
  have apart := prefill_apart_decode middle
  have second : Trace clock middle
      (middle.startBatch.prefillLoop clock (middle.running.filter (middle.inState .prefill))).sched :=
    prefill_loop_trace _ middle.startBatch (runningDistinct.filter _) apart
      (fun id member => List.mem_of_mem_filter member)
      (fun id member => List.mem_of_mem_filter member)
  rcases prefill_loop_effect clock _ middle.startBatch (runningDistinct.filter _) apart
    with ⟨popped, issued, prefilled⟩
  rw [schedule_sched clock middle_eq]
  apply (first.trans second).trans
  apply decode_loop_trace
  intro id member
  rw [prefilled.queues.running]
  apply List.mem_of_mem_filter (p := middle.inState .decode)
  change id ∈ middle.startBatch.decodeSeqs
  rw [prefilled.decodeSeqs]
  exact List.mem_append_left _ member

end AmpFormal.ScheduleTrace
