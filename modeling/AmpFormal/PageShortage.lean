import AmpFormal.PageDemand

/-!
# A `schedule` that runs short of pages

The converse of the planned demand. When a sequence decodes and the free stacks
do not hold the demand, the call preempts some decoding sequence. When nothing
decodes and no first chunk fits, it returns the empty batch.
-/

namespace AmpFormal.PageShortage

open AmpFormal.PagePoolFastSequential
open AmpFormal.SchedulerModel AmpFormal.SchedulerModel.Scheduler
open AmpFormal.ScheduleEffects AmpFormal.PageDemand

set_option autoImplicit false

variable {cfg : SchedulerConfig} {clock : Clock}

theorem short_after_grant {now whole : ℕ∞} {extra rest : Nat} (left : now + extra = whole)
    (short : whole < ((extra + rest : Nat) : ℕ∞)) : now < (rest : ℕ∞) := by
  apply not_le.mp
  intro enough
  exact absurd ((room_left left rest).mpr enough) (not_le.mpr short)

/-! ## The prefill loop -/

theorem prefill_step_decode_drops (clock : Clock) (loop : BatchLoop cfg) (id : Int) :
    (loop.prefillStep clock id).decodeSeqs <+: loop.decodeSeqs := by
  rcases prefill_step_cases clock loop id with
    ⟨_, result⟩ | ⟨_, _, result⟩ | ⟨_, _, _, result⟩ |
      ⟨_, _, rest, last, middle, split, same, result⟩
  · rw [result]
  · rw [result]
    exact List.prefix_refl _
  · rw [result]
    exact List.prefix_refl _
  · have popped : middle.decodeSeqs = loop.decodeSeqs.dropLast := by
      rw [same]
      rfl
    rw [result]
    have kept : middle.decodeSeqs <+: loop.decodeSeqs := popped ▸ List.dropLast_prefix _
    split
    · exact kept
    · exact kept

theorem prefill_loop_decode_drops (clock : Clock) (refs : List Int) (loop : BatchLoop cfg) :
    (loop.prefillLoop clock refs).decodeSeqs <+: loop.decodeSeqs := by
  induction refs generalizing loop with
  | nil => exact List.prefix_refl _
  | cons id rest ih =>
      unfold BatchLoop.prefillLoop
      split
      · exact List.prefix_refl _
      · exact (ih _).trans (prefill_step_decode_drops clock loop id)

theorem prefill_step_refused (loop : BatchLoop cfg) (id : Int) (busy : loop.decodeSeqs ≠ [])
    (positive : 0 < loop.chunkFor id)
    (failed : (loop.tryAlloc clock id (loop.chunkFor id)).2 = false) :
    (loop.prefillStep clock id).decodeSeqs.length < loop.decodeSeqs.length := by
  have shorter : loop.decodeSeqs.dropLast.length < loop.decodeSeqs.length := by
    have nonempty := List.length_pos_iff.mpr busy
    rw [List.length_dropLast]
    omega
  rcases prefill_step_cases clock loop id with
    ⟨empty, _⟩ | ⟨_, granted, _⟩ | ⟨_, _, idle, _⟩ | ⟨_, _, rest, last, middle, split, same, result⟩
  · omega
  · rw [failed] at granted
    cases granted
  · exact absurd idle busy
  · have popped : middle.decodeSeqs = loop.decodeSeqs.dropLast := by
      rw [same]
      rfl
    rw [← popped] at shorter
    rw [result]
    split
    · exact shorter
    · exact shorter

theorem try_alloc_granted {loop : BatchLoop cfg} {id nNewTokens : Int}
    (sharded : Sharded loop.sched.kvPool)
    (granted : (loop.tryAlloc clock id nNewTokens).2 = true) :
    RoomEffect [id] loop (loop.tryAlloc clock id nNewTokens).1 0 ∧
      available (loop.tryAlloc clock id nNewTokens).1.sched.kvPool +
        extraPages loop.sched id nNewTokens = available loop.sched.kvPool := by
  rcases try_alloc_pages_left clock loop.sched id nNewTokens sharded with ⟨_, left, refused⟩
  have enough : ((extraPages loop.sched id nNewTokens : Nat) : ℕ∞) ≤
      available loop.sched.kvPool := by
    by_contra short
    have failure := (refused (not_le.mp short)).1
    change (loop.sched.tryAllocPages clock id nNewTokens).2 = true at granted
    rw [failure] at granted
    cases granted
  exact ⟨(try_alloc_room clock loop id nNewTokens sharded enough).2, (left enough).2.1⟩

/-- With too few pages for the chunks and `later`, the loop preempts a decode
sequence or leaves too few for `later`. -/
theorem prefill_loop_short (clock : Clock) (refs : List Int) (loop : BatchLoop cfg) (later : Nat)
    (distinct : refs.Nodup) (sharded : Sharded loop.sched.kvPool) (busy : loop.decodeSeqs ≠ [])
    (short : available loop.sched.kvPool <
      (((prefillPlan cfg loop.sched.seqs (heldNow loop.sched) refs loop.tokensBudget).1 +
        later : Nat) : ℕ∞)) :
    (loop.prefillLoop clock refs).decodeSeqs.length < loop.decodeSeqs.length ∨
      available (loop.prefillLoop clock refs).sched.kvPool < (later : ℕ∞) := by
  induction refs generalizing loop with
  | nil =>
      right
      rw [prefillPlan, Nat.zero_add] at short
      exact short
  | cons id rest ih =>
      rw [List.nodup_cons] at distinct
      unfold BatchLoop.prefillLoop
      unfold prefillPlan at short
      by_cases exhausted : loop.tokensBudget ≤ 0
      · simp only [exhausted, if_true, Nat.zero_add] at short ⊢
        exact Or.inr short
      · simp only [exhausted, if_false] at short ⊢
        by_cases empty : loop.chunkFor id ≤ 0
        · have step : loop.prefillStep clock id = loop := if_pos empty
          rw [step]
          have planned : chunkOf cfg (loop.sched.seqs id) loop.tokensBudget ≤ 0 := empty
          simp only [planned, if_true] at short
          exact ih loop distinct.2 sharded busy short
        · have planned : ¬chunkOf cfg (loop.sched.seqs id) loop.tokensBudget ≤ 0 := empty
          simp only [planned, if_false, Nat.add_assoc] at short
          cases granted : (loop.tryAlloc clock id (loop.chunkFor id)).2 with
          | false =>
              left
              exact (prefill_loop_decode_drops clock rest _).length_le.trans_lt
                (prefill_step_refused loop id busy (by omega) granted)
          | true =>
              have step : loop.prefillStep clock id =
                  (loop.tryAlloc clock id (loop.chunkFor id)).1.emitPrefill id
                    (loop.chunkFor id) := by
                unfold BatchLoop.prefillStep
                simp only [empty, if_false, granted, if_true]
              rcases try_alloc_granted sharded granted with ⟨effect, left⟩
              have remaining := short_after_grant left short
              rw [step]
              generalize next_eq : (loop.tryAlloc clock id (loop.chunkFor id)).1.emitPrefill id
                (loop.chunkFor id) = next
              have nextSched : next.sched =
                  (loop.tryAlloc clock id (loop.chunkFor id)).1.sched := by
                rw [← next_eq]
                rfl
              have nextBudget : next.tokensBudget = loop.tokensBudget - loop.chunkFor id := by
                rw [← next_eq]
                rfl
              have nextDecode : next.decodeSeqs = loop.decodeSeqs := by
                rw [← next_eq]
                rfl
              have same : ∀ other ∈ rest, next.sched.seqs other = loop.sched.seqs other := by
                rw [nextSched]
                exact room_effect_rest effect distinct.1
              rw [← nextSched] at remaining
              have outcome := ih next distinct.2 (nextSched ▸ effect.sharded)
                (nextDecode ▸ busy) (by
                rw [nextBudget, prefill_plan_frame rest _ same]
                exact remaining)
              rw [nextDecode] at outcome
              exact outcome

/-! ## The decode loop -/

/-- With too few pages for the decode tokens, some sequence of the loop is preempted. -/
theorem decode_loop_short (clock : Clock) (refs : List Int) (loop : BatchLoop cfg)
    (distinct : refs.Nodup) (sharded : Sharded loop.sched.kvPool)
    (short : available loop.sched.kvPool <
      ((decodePlan loop.sched refs loop.tokensBudget : Nat) : ℕ∞)) :
    ∃ id ∈ refs, ((loop.decodeLoop clock refs).sched.seqs id).state = .waiting := by
  induction refs generalizing loop with
  | nil => simp [decodePlan] at short
  | cons id rest ih =>
      rw [List.nodup_cons] at distinct
      unfold BatchLoop.decodeLoop
      unfold decodePlan at short
      by_cases exhausted : loop.tokensBudget ≤ 0
      · simp only [exhausted, if_true, Nat.cast_zero, not_lt_zero] at short
      · simp only [exhausted, if_false] at short ⊢
        cases granted : (loop.tryAlloc clock id 1).2 with
        | false =>
            have step : loop.decodeStep clock id = (loop.tryAlloc clock id 1).1.preempt id := by
              unfold BatchLoop.decodeStep
              simp only [granted, Bool.false_eq_true, if_false]
            rcases decode_loop_effect clock rest (loop.decodeStep clock id) distinct.2 with
              ⟨preempted, issued, effect⟩
            refine ⟨id, by simp, ?_⟩
            rw [effect.other_seq id distinct.1, step]
            simp only [BatchLoop.preempt, preempt_seqs, Function.update_self]
            rfl
        | true =>
            have step : loop.decodeStep clock id = (loop.tryAlloc clock id 1).1.emitDecode id := by
              unfold BatchLoop.decodeStep
              simp only [granted, if_true]
            rcases try_alloc_granted sharded granted with ⟨effect, left⟩
            have remaining := short_after_grant left short
            rw [step]
            generalize next_eq : (loop.tryAlloc clock id 1).1.emitDecode id = next
            have nextSched : next.sched = (loop.tryAlloc clock id 1).1.sched := by
              rw [← next_eq]
              rfl
            have nextBudget : next.tokensBudget = loop.tokensBudget - 1 := by
              rw [← next_eq]
              rfl
            have same : ∀ other ∈ rest, next.sched.seqs other = loop.sched.seqs other := by
              rw [nextSched]
              exact room_effect_rest effect distinct.1
            rw [← nextSched] at remaining
            rcases ih next distinct.2 (nextSched ▸ effect.sharded) (by
              rw [nextBudget, decode_plan_congr rest _ same]
              exact remaining) with ⟨gone, member, state⟩
            exact ⟨gone, by simp [member], state⟩

/-! ## The whole call -/

theorem schedule_short (clock : Clock) (st : Scheduler cfg)
    (distinct : (st.waiting ++ st.running).Nodup) (sharded : Sharded st.kvPool)
    (busy : decoders st ≠ []) (short : ¬canPop st.kvPool (plannedDemand st) = true) :
    ∃ id ∈ st.running, ((st.schedule clock).1.seqs id).state = .waiting := by
  rcases schedule_planned_start clock st distinct sharded with ⟨start, planned, result⟩
  rw [result]
  have demand := not_le.mp ((room_left planned.pages_left _).not.mp
    ((can_pop_iff _ _).not.mp short))
  have running : ∀ id ∈ decoders st, id ∈ st.running :=
    fun id member => List.mem_of_mem_filter member
  have startBusy : start.decodeSeqs ≠ [] := planned.decodeSeqs ▸ busy
  have startDistinct : start.decodeSeqs.Nodup := planned.decodeSeqs ▸ planned.decode_nodup
  have outcome := fun later => prefill_loop_short clock (prefillers st) start later
    planned.prefill_nodup planned.sharded startBusy
  have roomed := prefill_loop_room clock (prefillers st) start 0 planned.prefill_nodup
    planned.sharded
  rw [planned.tokensBudget, planned.plan] at outcome roomed
  rcases prefill_loop_effect clock (prefillers st) start startDistinct
    (planned.decodeSeqs ▸ planned.apart) with ⟨popped, issued, effect⟩
  have decodeSplit := planned.decodeSeqs ▸ effect.decodeSeqs
  generalize start.prefillLoop clock (prefillers st) = next at outcome roomed effect decodeSplit ⊢
  have nextDistinct : next.decodeSeqs.Nodup := by
    have whole := decodeSplit ▸ planned.decode_nodup
    exact (List.nodup_append.mp whole).1
  rcases List.eq_nil_or_concat popped with nobody | ⟨others, gone, some_popped⟩
  · rw [nobody, List.append_nil] at decodeSplit
    have sameLength : ¬next.decodeSeqs.length < start.decodeSeqs.length := by
      rw [planned.decodeSeqs, decodeSplit]
      exact lt_irrefl _
    have enough : ((prefillPlan cfg st.seqs (heldThen st) (prefillers st)
        cfg.maxBatchTokens).1 : ℕ∞) ≤ available start.sched.kvPool := by
      by_contra few
      exact absurd ((outcome 0 (not_le.mp few)).resolve_left sameLength) not_lt_zero
    rcases roomed enough with ⟨first, budget⟩
    have decodeSame : ∀ id ∈ decoders st, next.sched.seqs id = st.seqs id := by
      intro id member
      rw [first.others id fun inside => planned.apart id inside member,
        planned.old id (running id member)]
    have remaining := (outcome _ demand).resolve_left sameLength
    rw [← decodeSplit]
    rcases decode_loop_short clock (decoders st) next planned.decode_nodup first.sharded (by
      rw [budget, decode_plan_congr _ _ decodeSame]
      exact remaining) with ⟨id, member, state⟩
    exact ⟨id, running id member, state⟩
  · have member : gone ∈ popped := by
      rw [some_popped]
      simp
    have left : gone ∉ next.decodeSeqs := by
      intro inside
      have whole := decodeSplit ▸ planned.decode_nodup
      exact (List.nodup_append.mp whole).2.2 gone inside gone member rfl
    rcases decode_loop_effect clock next.decodeSeqs next nextDistinct with
      ⟨preempted, later, decoded⟩
    refine ⟨gone, running gone (decodeSplit ▸ List.mem_append_right _ member), ?_⟩
    rw [decoded.other_seq gone left, effect.popped_seq gone member]
    rfl

/-- `schedule` resets no running sequence exactly when it finds room. -/
theorem nothing_reset_iff_roomy (clock : Clock) (st : Scheduler cfg)
    (distinct : (st.waiting ++ st.running).Nodup) (sharded : Sharded st.kvPool)
    (active : ∀ id ∈ st.running, (st.seqs id).state ≠ .waiting) :
    (∀ id ∈ st.running, ((st.schedule clock).1.seqs id).state ≠ .waiting) ↔ Roomy st := by
  constructor
  · intro kept
    by_cases idle : decoders st = []
    · exact Or.inl idle
    · right
      by_contra short
      rcases schedule_short clock st distinct sharded idle short with ⟨id, running, state⟩
      exact kept id running state
  · intro roomy id running
    rcases roomy with idle | room
    · rcases schedule_effect clock st distinct with ⟨admitted, preempted, effect⟩
      rcases schedule_seq_cases effect id with
        ⟨_, _, decoding, _⟩ | ⟨_, _, ids, same⟩ | ⟨_, _, ids, same⟩
      · have member : id ∈ decoders st := (mem_in_state_iff _ _ _ _).mpr ⟨running, decoding⟩
        rw [idle] at member
        cases member
      · rw [same]
        exact SeqState.noConfusion
      · rw [same]
        exact active id running
    · rw [(schedule_room clock st distinct sharded room).1 id running]
      exact active id running

/-! ## Nothing to preempt -/

theorem prefill_loop_stuck (clock : Clock) (refs : List Int) (loop : BatchLoop cfg)
    (sharded : Sharded loop.sched.kvPool) (idle : loop.decodeSeqs = [])
    (stuck : ∀ id ∈ refs, 0 < loop.chunkFor id → available loop.sched.kvPool <
      ((extraPages loop.sched id (loop.chunkFor id) : Nat) : ℕ∞)) :
    (loop.prefillLoop clock refs).batch = loop.batch := by
  induction refs generalizing loop with
  | nil => rfl
  | cons id rest ih =>
      unfold BatchLoop.prefillLoop
      split
      · rfl
      · rcases prefill_step_cases clock loop id with
          ⟨_, result⟩ | ⟨positive, granted, _⟩ | ⟨_, failed, _, result⟩ |
            ⟨_, _, before, last, _, split, _, _⟩
        · rw [result]
          exact ih loop sharded idle fun other member => stuck other (by simp [member])
        · have short := stuck id (by simp) positive
          have enough : ((extraPages loop.sched id (loop.chunkFor id) : Nat) : ℕ∞) ≤
              available loop.sched.kvPool := by
            rw [← (try_alloc_granted sharded granted).2]
            exact le_add_self
          exact absurd enough (not_le.mpr short)
        · have refused := try_alloc_refused sharded failed
          rw [result]
          refine (ih _ refused.sharded (refused.decodeSeqs.trans idle) ?_).trans refused.batch
          intro other member positive
          rw [refused_chunk refused] at positive ⊢
          rw [refused_extra refused, refused.pages]
          exact stuck other (by simp [member]) positive
        · rw [idle] at split
          simp at split

theorem schedule_issues_iff_first_chunk (clock : Clock) (st : Scheduler cfg)
    (distinct : (st.waiting ++ st.running).Nodup) (sharded : Sharded st.kvPool)
    (idle : decoders st = []) :
    (st.schedule clock).2.entries ≠ [] ↔ FirstChunkFits st := by
  constructor
  · intro issued
    by_contra misfit
    apply issued
    rcases schedule_planned_start clock st distinct sharded with ⟨start, planned, result⟩
    have start_decode : start.decodeSeqs = [] := planned.decodeSeqs.trans idle
    have batch := prefill_loop_stuck clock (prefillers st) start planned.sharded start_decode (by
      intro id member positive
      rw [planned.extra id member, planned.chunk id]
      apply not_le.mp
      intro enough
      apply misfit
      refine ⟨id, member, planned.chunk id ▸ positive, (can_pop_iff _ _).mpr ?_⟩
      exact (room_left planned.pages_left _).mpr enough)
    have next_decode : (start.prefillLoop clock (prefillers st)).decodeSeqs = [] := by
      have kept := prefill_loop_decode_drops clock (prefillers st) start
      rw [start_decode] at kept
      exact List.prefix_nil.mp kept
    rw [result, next_decode]
    change (start.prefillLoop clock (prefillers st)).batch.entries = []
    rw [batch]
    exact planned.entries
  · exact schedule_first_chunk clock st distinct sharded idle

end AmpFormal.PageShortage
