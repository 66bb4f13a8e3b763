import AmpFormal.PageBudget

/-!
# How many pages a sequence can come to hold

A request can be said to be entitled to `ceil((prompt_len + max_new_tokens) /
kv_page_size_tokens)` pages, one slot for every token it can ever have.
`try_alloc_pages` adds its argument to all tokens of the sequence, so the admission
asks for a page beyond the prompt and a prefill chunk counts its tokens twice. A
request that can afford these keeps to its entitlement in every run; one that
cannot exceeds it in the first step of a pool that has the pages.
-/

namespace AmpFormal.PageEntitlements

open AmpFormal.PagePoolFastModel AmpFormal.PagePoolFastSequential
open AmpFormal.SchedulerModel AmpFormal.SchedulerModel.Scheduler
open AmpFormal.ScheduleEffects AmpFormal.StepCompleteEffects AmpFormal.TransitionRuns
open AmpFormal.SchedulerRuns AmpFormal.SchedulerProgress AmpFormal.SchedulerBatches
open AmpFormal.PageDemand AmpFormal.PageBudget

set_option autoImplicit false

variable {cfg : SchedulerConfig} {clock : Clock}

/-! ## The entitlement -/

def entitlement (cfg : SchedulerConfig) (promptLen maxNewTokens : Int) : Int :=
  pagesOfTokens cfg (promptLen + maxNewTokens)

/-- The most tokens that an admission or a prefill chunk asks pages for. -/
def prefillDemand (cfg : SchedulerConfig) (promptLen : Int) : Int :=
  promptLen + max cfg.kvPageSizeTokens
    (min (min promptLen cfg.maxPrefillTokensPerStep) cfg.maxBatchTokens)

/-- The pages asked for until the prompt is processed are no more than those the
request is entitled to. -/
def Affordable (cfg : SchedulerConfig) (promptLen maxNewTokens : Int) : Prop :=
  pagesOfTokens cfg (prefillDemand cfg promptLen) ≤ entitlement cfg promptLen maxNewTokens

/-- An unfinished sequence that can afford its prefill and holds no more than its
entitlement. -/
structure Entitled (cfg : SchedulerConfig) {pages : Nat} (s : Sequence pages) : Prop where
  affordable : Affordable cfg s.promptTokens.length s.maxNewTokens
  held : (s.kvPageIds.length : Int) ≤ entitlement cfg s.promptTokens.length s.maxNewTokens
  asks : 1 ≤ s.maxNewTokens
  started : 0 ≤ s.prefillCursor
  unprefilled : s.state = .waiting ∨ s.state = .prefill → s.outputTokens = []
  short : s.state = .decode → (s.outputTokens.length : Int) < s.maxNewTokens

section Demands

variable {pages : Nat} {s : Sequence pages}

theorem needed_within_entitlement (pageSize : 0 < cfg.kvPageSizeTokens) {nTokens : Int}
    (positive : 0 ≤ nTokens) (fits : s.totalTokens + nTokens ≤ s.promptTokens.length + s.maxNewTokens) :
    pagesNeededFor cfg s nTokens ≤ entitlement cfg s.promptTokens.length s.maxNewTokens := by
  exact (pages_needed_le pageSize s positive).trans (pages_of_tokens_mono pageSize fits)

theorem prefill_within_entitlement (pageSize : 0 < cfg.kvPageSizeTokens)
    (entitled : Entitled cfg s) (empty : s.outputTokens = []) {nTokens : Int}
    (positive : 0 ≤ nTokens) (bounded : nTokens ≤ max cfg.kvPageSizeTokens
      (min (min s.promptTokens.length cfg.maxPrefillTokensPerStep) cfg.maxBatchTokens)) :
    pagesNeededFor cfg s nTokens ≤ entitlement cfg s.promptTokens.length s.maxNewTokens := by
  refine (pages_needed_le pageSize s positive).trans
    (le_trans (pages_of_tokens_mono pageSize ?_) entitled.affordable)
  unfold Sequence.totalTokens prefillDemand
  rw [empty, List.length_nil]
  omega

theorem token_within_entitlement (pageSize : 0 < cfg.kvPageSizeTokens)
    (entitled : Entitled cfg s) (decode : s.state = .decode) :
    pagesNeededFor cfg s 1 ≤ entitlement cfg s.promptTokens.length s.maxNewTokens := by
  apply needed_within_entitlement pageSize Int.one_nonneg
  have short := entitled.short decode
  unfold Sequence.totalTokens
  omega

end Demands

/-! ## Single sequences -/

section Forms

variable {pages : Nat} {s : Sequence pages}

theorem entitled_with_pages (entitled : Entitled cfg s) {given : List (Fin pages)}
    (held : (given.length : Int) ≤ entitlement cfg s.promptTokens.length s.maxNewTokens) :
    Entitled cfg (withPages s given) :=
  ⟨entitled.affordable, held, entitled.asks, entitled.started, entitled.unprefilled,
    entitled.short⟩

theorem entitled_preempted (entitled : Entitled cfg s) : Entitled cfg (preemptedForm s) where
  affordable := entitled.affordable
  held := le_trans (Int.natCast_nonneg _) entitled.held
  asks := entitled.asks
  started := le_rfl
  unprefilled := fun _ => rfl
  short := fun decode => nomatch decode

theorem entitled_admitted (entitled : Entitled cfg s) (waiting : s.state = .waiting) :
    Entitled cfg { s with state := .prefill } where
  affordable := entitled.affordable
  held := entitled.held
  asks := entitled.asks
  started := entitled.started
  unprefilled := fun _ => entitled.unprefilled (Or.inl waiting)
  short := fun decode => nomatch decode

theorem entitled_advanced (entitled : Entitled cfg s) (prefill : s.state = .prefill) {nTokens : Int}
    (positive : 0 < nTokens) : Entitled cfg (s.advancePrefill nTokens) := by
  have empty := entitled.unprefilled (Or.inr prefill)
  have started := entitled.started
  have cursor : 0 ≤ s.prefillCursor + nTokens := by omega
  rcases advance_prefill_cases s nTokens with ⟨-, same⟩ | ⟨-, same⟩
  · rw [same]
    refine ⟨entitled.affordable, entitled.held, entitled.asks, cursor, fun _ => empty, fun _ => ?_⟩
    have asks := entitled.asks
    dsimp only
    rw [empty, List.length_nil]
    omega
  · rw [same]
    exact ⟨entitled.affordable, entitled.held, entitled.asks, cursor, fun _ => empty,
      entitled.short⟩

theorem entitled_decoded (entitled : Entitled cfg s) (decode : s.state = .decode) (tok : Int) :
    Entitled cfg (decodedForm s tok) := by
  cases finished : (s.appendToken tok).finishes tok with
  | true =>
      rw [decoded_form_finished finished]
      exact ⟨entitled.affordable, entitled.held, entitled.asks, entitled.started,
        fun unprefilled => (nomatch unprefilled), fun wrong => (nomatch wrong)⟩
  | false =>
      rw [decoded_form_running finished]
      have unfinished : ¬(s.appendToken tok).finishes tok = true := by simp [finished]
      rw [finishes_iff, not_or] at unfinished
      refine ⟨entitled.affordable, entitled.held, entitled.asks, entitled.started,
        fun unprefilled => ?_, fun _ => not_le.mp unfinished.1⟩
      change s.state = .waiting ∨ s.state = .prefill at unprefilled
      rw [decode] at unprefilled
      rcases unprefilled with wrong | wrong <;> cases wrong

end Forms

/-! ## Small steps of `schedule` -/

def AllEntitled (ids : List Int) (st : Scheduler cfg) : Prop :=
  ∀ id ∈ ids, Entitled cfg (st.seqs id)

section Steps

variable {ids : List Int} {st : Scheduler cfg}

theorem pool_answer_length (clock : Clock) (st : Scheduler cfg) (id nNewTokens : Int) :
    (poolAnswer clock st id nNewTokens).2.length ≤ extraPages st id nNewTokens := by
  rcases alloc_cases st.kvPool (extraPages st id nNewTokens) id (clock st.ticks) with
    ⟨last, taken, -, full, result⟩ | ⟨last, taken, -, -, -, result⟩
  · rw [poolAnswer, result]
    exact full.le
  · rw [poolAnswer, result]
    exact Nat.zero_le _

theorem entitled_try_alloc (clock : Clock) (entitled : AllEntitled ids st) {id nNewTokens : Int}
    (fits : pagesNeededFor cfg (st.seqs id) nNewTokens ≤
      entitlement cfg (st.seqs id).promptTokens.length (st.seqs id).maxNewTokens) :
    AllEntitled ids (st.tryAllocPages clock id nNewTokens).1 := by
  rcases try_alloc_cases clock st id nNewTokens with
    ⟨_, result⟩ | ⟨_, _, result⟩ | ⟨positive, _, result⟩
  · rw [result]
    exact entitled
  · rw [result]
    exact entitled
  · rw [result]
    intro other member
    by_cases same : other = id
    · subst same
      have answer := pool_answer_length clock st other nNewTokens
      simp only [setSeq, Function.update_self]
      apply entitled_with_pages (entitled other member)
      rw [List.length_append, Nat.cast_add]
      unfold extraPages at positive answer
      omega
    · simp only [setSeq, Function.update_of_ne same]
      exact entitled other member

theorem entitled_preempt (entitled : AllEntitled ids st) (id : Int) :
    AllEntitled ids (st.preemptSequence id) := by
  intro other member
  rw [preempt_seqs]
  by_cases same : other = id
  · subst same
    rw [Function.update_self]
    exact entitled_preempted (entitled other member)
  · rw [Function.update_of_ne same]
    exact entitled other member

theorem entitled_move_front (entitled : AllEntitled ids st) {front : Int}
    (waiting : (st.seqs front).state = .waiting) (rest : List Int) :
    AllEntitled ids (st.moveFront front rest) := by
  intro other member
  by_cases same : other = front
  · subst same
    simp only [moveFront, setSeq, Function.update_self]
    exact entitled_admitted (entitled other member) waiting
  · simp only [moveFront, setSeq, Function.update_of_ne same]
    exact entitled other member

theorem promote_loop_entitled (pageSize : 0 < cfg.kvPageSizeTokens) (clock : Clock)
    (queue : List Int) (entitled : AllEntitled ids st) (distinct : queue.Nodup)
    (known : ∀ id ∈ queue, id ∈ ids ∧ (st.seqs id).state = .waiting) :
    AllEntitled ids (st.promoteLoop clock queue) := by
  induction queue generalizing st with
  | nil => exact entitled
  | cons front rest ih =>
      obtain ⟨fresh, restDistinct⟩ := List.nodup_cons.mp distinct
      obtain ⟨member, waiting⟩ := known front List.mem_cons_self
      have granted : AllEntitled ids (st.tryAllocPages clock front _).1 :=
        entitled_try_alloc clock entitled
        (prefill_within_entitlement pageSize (entitled front member)
          ((entitled front member).unprefilled (Or.inl waiting)) pageSize.le (le_max_left _ _))
      unfold promoteLoop
      split
      case isFalse => exact entitled
      case isTrue =>
        dsimp only
        split
        case isFalse => exact granted
        case isTrue =>
          obtain ⟨given, sameFront⟩ :=
            try_alloc_kept_seq clock st front cfg.kvPageSizeTokens front
          have stillWaiting :
              ((st.tryAllocPages clock front cfg.kvPageSizeTokens).1.seqs front).state =
                .waiting := by
            rw [sameFront]
            exact waiting
          apply ih (entitled_move_front granted stillWaiting rest) restDistinct
          intro id inRest
          have different : id ≠ front := fun same => fresh (same ▸ inRest)
          have unchanged : ((st.tryAllocPages clock front cfg.kvPageSizeTokens).1.moveFront
              front rest).seqs id = st.seqs id := by
            simp only [moveFront, setSeq, Function.update_of_ne different]
            exact try_alloc_other_seq clock st different cfg.kvPageSizeTokens
          rw [unchanged]
          exact known id (List.mem_cons_of_mem _ inRest)

end Steps

/-! ## The loops of `schedule` -/

section Loops

variable {ids : List Int}

/-- The sequences a loop visits are entitled and in one state. -/
structure Visiting (ids refs : List Int) (state : SeqState) (st : Scheduler cfg) : Prop where
  entitled : AllEntitled ids st
  known : ∀ id ∈ refs, id ∈ ids ∧ (st.seqs id).state = state

theorem visits_rest {rest : List Int} {id : Int} {state : SeqState} {before after : Scheduler cfg}
    (visits : Visiting ids (id :: rest) state before) (entitled : AllEntitled ids after)
    (kept : ∀ other ∈ rest, ∃ given, after.seqs other = withPages (before.seqs other) given) :
    Visiting ids rest state after := by
  refine ⟨entitled, fun other member => ?_⟩
  obtain ⟨inIds, same⟩ := visits.known other (List.mem_cons_of_mem _ member)
  obtain ⟨given, sequence⟩ := kept other member
  refine ⟨inIds, ?_⟩
  rw [sequence]
  exact same

theorem chunk_within_demand {loop : BatchLoop cfg} {id : Int}
    (entitled : Entitled cfg (loop.sched.seqs id)) (budget : loop.tokensBudget ≤ cfg.maxBatchTokens) :
    loop.chunkFor id ≤ max cfg.kvPageSizeTokens
      (min (min (loop.sched.seqs id).promptTokens.length cfg.maxPrefillTokensPerStep)
        cfg.maxBatchTokens) := by
  have started := entitled.started
  unfold BatchLoop.chunkFor Sequence.remainingPrefill
  omega

theorem prefill_step_entitled (pageSize : 0 < cfg.kvPageSizeTokens) (clock : Clock)
    {loop : BatchLoop cfg} {id : Int} (visits : Visiting ids [id] .prefill loop.sched)
    (budget : loop.tokensBudget ≤ cfg.maxBatchTokens) (apart : id ∉ loop.decodeSeqs) :
    AllEntitled ids (loop.prefillStep clock id).sched ∧
      (loop.prefillStep clock id).tokensBudget ≤ cfg.maxBatchTokens := by
  obtain ⟨member, prefill⟩ := visits.known id (List.mem_singleton_self id)
  have entitled := visits.entitled id member
  have fits : 0 < loop.chunkFor id → pagesNeededFor cfg (loop.sched.seqs id) (loop.chunkFor id) ≤
      entitlement cfg (loop.sched.seqs id).promptTokens.length (loop.sched.seqs id).maxNewTokens := by
    intro positive
    exact prefill_within_entitlement pageSize entitled (entitled.unprefilled (Or.inr prefill))
      positive.le (chunk_within_demand entitled budget)
  rcases prefill_step_cases clock loop id with
    ⟨_, result⟩ | ⟨positive, _, result⟩ | ⟨positive, _, _, result⟩ |
      ⟨positive, failed, rest, last, middle, split, middle_eq, result⟩
  · rw [result]
    exact ⟨visits.entitled, budget⟩
  · rw [result]
    refine ⟨entitled_try_alloc clock visits.entitled (fits positive), ?_⟩
    change loop.tokensBudget - loop.chunkFor id ≤ _
    omega
  · rw [result]
    exact ⟨entitled_try_alloc clock visits.entitled (fits positive), budget⟩
  · -- The retry finds the sequence as it was: only the last decode sequence has changed.
    have first := entitled_try_alloc clock visits.entitled (fits positive)
    have second : AllEntitled ids middle.sched := by
      rw [middle_eq]
      exact entitled_preempt first last
    have different : id ≠ last := by
      intro same
      apply apart
      rw [split, same]
      exact List.mem_append_right _ List.mem_cons_self
    have unchanged : middle.sched.seqs id = loop.sched.seqs id := by
      rw [middle_eq]
      change (((loop.sched.tryAllocPages clock id (loop.chunkFor id)).1).preemptSequence
        last).seqs id = _
      rw [preempt_seqs, Function.update_of_ne different]
      exact congrFun (try_alloc_failed_seqs loop.sched id (loop.chunkFor id) failed) id
    have third : AllEntitled ids (middle.tryAlloc clock id (loop.chunkFor id)).1.sched := by
      apply entitled_try_alloc clock second
      rw [unchanged]
      exact fits positive
    have sameBudget : middle.tokensBudget = loop.tokensBudget := by
      rw [middle_eq]
      rfl
    rw [result]
    split
    · refine ⟨third, ?_⟩
      change middle.tokensBudget - loop.chunkFor id ≤ _
      omega
    · exact ⟨third, sameBudget.le.trans budget⟩

theorem prefill_loop_entitled (pageSize : 0 < cfg.kvPageSizeTokens) (clock : Clock)
    (refs : List Int) {loop : BatchLoop cfg} (visits : Visiting ids refs .prefill loop.sched)
    (budget : loop.tokensBudget ≤ cfg.maxBatchTokens)
    (apart : ∀ id ∈ refs, id ∉ loop.decodeSeqs) :
    AllEntitled ids (loop.prefillLoop clock refs).sched := by
  induction refs generalizing loop with
  | nil => exact visits.entitled
  | cons id rest ih =>
      unfold BatchLoop.prefillLoop
      split
      · exact visits.entitled
      · have here : Visiting ids [id] .prefill loop.sched :=
          ⟨visits.entitled, fun other member =>
            visits.known other (List.mem_singleton.mp member ▸ List.mem_cons_self)⟩
        obtain ⟨entitled, left⟩ := prefill_step_entitled pageSize clock here budget
          (apart id List.mem_cons_self)
        obtain ⟨popped, issued, step⟩ := prefill_step_effect clock loop id
          (apart id List.mem_cons_self)
        have shorter := prefill_effect_decode_seqs step
        have stays : ∀ other ∈ rest, other ∉ popped := by
          intro other member gone
          apply apart other (List.mem_cons_of_mem _ member)
          rw [step.decodeSeqs]
          exact List.mem_append_right _ gone
        apply ih (visits_rest visits entitled fun other member =>
          step.kept_seq other (stays other member)) left
        intro other member inside
        exact apart other (List.mem_cons_of_mem _ member) (shorter.subset inside)

theorem decode_loop_entitled (pageSize : 0 < cfg.kvPageSizeTokens) (clock : Clock)
    (refs : List Int) {loop : BatchLoop cfg} (visits : Visiting ids refs .decode loop.sched)
    (distinct : refs.Nodup) : AllEntitled ids (loop.decodeLoop clock refs).sched := by
  induction refs generalizing loop with
  | nil => exact visits.entitled
  | cons id rest ih =>
      obtain ⟨fresh, restDistinct⟩ := List.nodup_cons.mp distinct
      unfold BatchLoop.decodeLoop
      split
      · exact visits.entitled
      · obtain ⟨member, decode⟩ := visits.known id List.mem_cons_self
        have granted := entitled_try_alloc clock visits.entitled
          (token_within_entitlement pageSize (visits.entitled id member) decode)
        have entitled : AllEntitled ids (loop.decodeStep clock id).sched := by
          unfold BatchLoop.decodeStep
          dsimp only
          split
          · exact granted
          · exact entitled_preempt granted id
        obtain ⟨preempted, issued, step⟩ := decode_step_effect clock loop id
        apply ih (visits_rest visits entitled ?_) restDistinct
        intro other inRest
        have outside : other ∉ [id] := by
          rw [List.mem_singleton]
          exact fun same => fresh (same ▸ inRest)
        exact ⟨(loop.sched.seqs other).kvPageIds, step.other_seq other outside⟩

theorem schedule_entitled (pageSize : 0 < cfg.kvPageSizeTokens) (clock : Clock)
    {st : Scheduler cfg} (distinct : (st.waiting ++ st.running).Nodup)
    (waiting : ∀ id ∈ st.waiting, (st.seqs id).state = .waiting)
    (entitled : AllEntitled (st.waiting ++ st.running) st) :
    AllEntitled (st.waiting ++ st.running) (st.schedule clock).1 := by
  obtain ⟨admitted, promoted⟩ := promote_loop_effect clock st.waiting st rfl
  have runningDistinct := promoted_running_nodup distinct promoted
  have first : AllEntitled (st.waiting ++ st.running) (st.promoteWaiting clock) :=
    promote_loop_entitled pageSize clock st.waiting entitled (List.nodup_append.mp distinct).1
      fun id member => ⟨List.mem_append_left _ member, waiting id member⟩
  change PromoteEffect st.waiting st (st.promoteWaiting clock) admitted at promoted
  change (st.promoteWaiting clock).running.Nodup at runningDistinct
  generalize middle_eq : st.promoteWaiting clock = middle at promoted runningDistinct first
  have queued : ∀ id ∈ middle.running, id ∈ st.waiting ++ st.running := by
    intro id member
    rw [promoted.running] at member
    rcases List.mem_append.mp member with old | new
    · exact List.mem_append_right _ old
    · apply List.mem_append_left
      rw [promoted.taken]
      exact List.mem_append_left _ new
  have visits : ∀ state, Visiting (st.waiting ++ st.running)
      (middle.running.filter (middle.inState state)) state middle := by
    intro state
    refine ⟨first, fun id member => ?_⟩
    obtain ⟨running, same⟩ := (mem_in_state_iff _ _ _ _).mp member
    exact ⟨queued id running, same⟩
  have apart := prefill_apart_decode middle
  have prefills : Visiting (st.waiting ++ st.running)
      (middle.running.filter (middle.inState .prefill)) .prefill middle.startBatch.sched :=
    visits .prefill
  have second := prefill_loop_entitled pageSize clock _ prefills le_rfl apart
  obtain ⟨popped, issued, prefilled⟩ :=
    prefill_loop_effect clock _ middle.startBatch (runningDistinct.filter _) apart
  have decodeSplit := prefilled.decodeSeqs
  have decodeDistinct : middle.startBatch.decodeSeqs.Nodup := runningDistinct.filter _
  rw [decodeSplit] at decodeDistinct
  obtain ⟨remaining, -, disjoint⟩ := List.nodup_append.mp decodeDistinct
  rw [schedule_sched clock middle_eq]
  refine decode_loop_entitled pageSize clock _ ⟨second, fun id member => ?_⟩ remaining
  have decoding : id ∈ middle.running.filter (middle.inState .decode) := by
    change id ∈ middle.startBatch.decodeSeqs
    rw [decodeSplit]
    exact List.mem_append_left _ member
  obtain ⟨inIds, state⟩ := (visits .decode).known id decoding
  obtain ⟨given, same⟩ := prefilled.kept_seq id fun gone => disjoint id member id gone rfl
  refine ⟨inIds, ?_⟩
  rw [same]
  exact state

end Loops

/-! ## Runs -/

/-- Requests with a prompt that ask for a token and can afford their prefill. -/
def AffordableCalls (_ : Driver cfg) : Call → Prop
  | .addRequest promptTokens maxNewTokens _ => promptTokens ≠ [] ∧ 1 ≤ maxNewTokens ∧
      Affordable cfg promptTokens.length maxNewTokens
  | _ => True

structure QueuesEntitled (d : Driver cfg) : Prop where
  waiting : ∀ id ∈ d.sched.waiting, (d.sched.seqs id).state = .waiting
  entitled : AllEntitled (d.sched.waiting ++ d.sched.running) d.sched

theorem entitled_added (pageSize : 0 < cfg.kvPageSizeTokens) {promptTokens : List Int}
    {maxNewTokens eosTokenId : Int} (asks : 1 ≤ maxNewTokens)
    (affordable : Affordable cfg promptTokens.length maxNewTokens) :
    Entitled cfg ({ promptTokens, maxNewTokens, eosTokenId } : Sequence cfg.pages) where
  affordable := affordable
  held := by
    apply Int.ceil_nonneg
    have tokens : (0 : ℚ) ≤ (((promptTokens.length : Int) + maxNewTokens : Int) : ℚ) := by
      exact_mod_cast (by omega : (0 : Int) ≤ promptTokens.length + maxNewTokens)
    have size : (0 : ℚ) ≤ cfg.kvPageSizeTokens := by exact_mod_cast pageSize.le
    exact div_nonneg tokens size
  asks := asks
  started := le_rfl
  unprefilled := fun _ => rfl
  short := fun decode => nomatch decode

section Calls

variable {d after : Driver cfg}

theorem entitled_add_request (pageSize : 0 < cfg.kvPageSizeTokens) (consistent : Consistent d)
    (queues : QueuesEntitled d) {promptTokens : List Int} {maxNewTokens eosTokenId : Int}
    (asks : 1 ≤ maxNewTokens) (affords : Affordable cfg promptTokens.length maxNewTokens)
    (moved : d.step clock (.addRequest promptTokens maxNewTokens eosTokenId) = some after) :
    QueuesEntitled after := by
  obtain ⟨added, event, effect⟩ := step_add_request moved
  constructor
  · intro id member
    rcases add_effect_waiting effect member with old | ⟨rfl, -, sequence⟩
    · rw [add_effect_old_seq consistent effect (List.mem_append_left _ old)]
      exact queues.waiting id old
    · rw [sequence]
  · intro id member
    rcases add_effect_queued effect member with old | ⟨rfl, -, sequence⟩
    · rw [add_effect_old_seq consistent effect old]
      exact queues.entitled id old
    · rw [sequence]
      exact entitled_added pageSize asks affords

theorem entitled_abort_request (consistent : Consistent d) (queues : QueuesEntitled d)
    {seqId : Int} (moved : d.step clock (.abortRequest seqId) = some after) :
    QueuesEntitled after := by
  obtain ⟨sched, -, -⟩ := step_abort_request consistent.unswapped moved
  have effect := (abort_request_effect d.sched seqId consistent.unswapped consistent.distinct).1
  rw [← sched] at effect
  constructor
  · intro id member
    have different := abort_effect_left effect consistent.distinct (List.mem_append_left _ member)
    rw [effect.other_seq id different]
    rw [effect.waiting] at member
    exact queues.waiting id (List.mem_of_mem_erase member)
  · intro id member
    have different := abort_effect_left effect consistent.distinct member
    rw [effect.other_seq id different]
    exact queues.entitled id (abort_effect_queued effect member)

theorem entitled_schedule (pageSize : 0 < cfg.kvPageSizeTokens) (consistent : Consistent d)
    (queues : QueuesEntitled d) (moved : d.step clock .schedule = some after) :
    QueuesEntitled after := by
  obtain ⟨-, rfl⟩ := step_schedule moved
  obtain ⟨admitted, preempted, effect⟩ := schedule_effect clock d.sched consistent.distinct
  have permuted := schedule_queues_perm effect
  constructor
  · intro id member
    have stopped : id ∉ (d.sched.schedule clock).1.running := by
      have distinct := permuted.nodup_iff.mp consistent.distinct
      exact fun running => (List.nodup_append.mp distinct).2.2 id member id running rfl
    have before : id ∈ d.sched.waiting := by
      rw [effect.waiting]
      exact List.mem_append_right _ member
    change ((d.sched.schedule clock).1.seqs id).state = .waiting
    rw [effect.other_seq id stopped]
    exact queues.waiting id before
  · intro id member
    have before := permuted.mem_iff.mpr member
    exact schedule_entitled pageSize clock consistent.distinct queues.waiting queues.entitled id
      before

theorem entitled_step_complete (consistent : Consistent d) (queues : QueuesEntitled d)
    {newTokens : List Int} (moved : d.step clock (.stepComplete newTokens) = some after) :
    QueuesEntitled after := by
  obtain ⟨batch, ⟨sched, callbacks⟩, pending, stepped, rfl⟩ := step_step_complete moved
  have valid := consistent.pending batch pending
  have effect := step_complete_effect valid.distinct stepped
  constructor
  · intro id member
    change id ∈ sched.waiting at member
    rw [effect.waiting] at member
    have unnamed : id ∉ batch.entries.map BatchEntry.seq := by
      intro named
      obtain ⟨e, inBatch, rfl⟩ := List.mem_map.mp named
      exact (List.nodup_append.mp consistent.distinct).2.2 e.seq member e.seq
        (effect.owned e inBatch) rfl
    change (sched.seqs id).state = .waiting
    rw [effect.other_seq id unnamed]
    exact queues.waiting id member
  · intro id member
    have entitled := queues.entitled id (step_still_queued effect member)
    change Entitled cfg (sched.seqs id)
    rcases step_seq_cases effect id with
      ⟨tok, assigned, running, same⟩ | ⟨_, running, e, inBatch, rfl, kind, same⟩ | ⟨_, _, same⟩
    · obtain ⟨e, inBatch, kind, seq⟩ := assigned_seq_mem assigned
      change e.seq = id at seq
      subst seq
      rw [same]
      exact entitled_decoded entitled (valid.decode e inBatch running kind) tok
    · obtain ⟨state, -, positive, -⟩ := valid.prefill e inBatch running kind
      rw [same]
      exact entitled_advanced entitled state positive
    · rw [same]
      exact entitled

theorem queues_entitled_step (pageSize : 0 < cfg.kvPageSizeTokens) (consistent : Consistent d)
    (queues : QueuesEntitled d) {call : Call} (affordable : AffordableCalls d call)
    (moved : d.step clock call = some after) : QueuesEntitled after := by
  cases call with
  | addRequest promptTokens maxNewTokens eosTokenId =>
      obtain ⟨-, asks, affords⟩ := affordable
      exact entitled_add_request pageSize consistent queues asks affords moved
  | abortRequest seqId => exact entitled_abort_request consistent queues moved
  | schedule => exact entitled_schedule pageSize consistent queues moved
  | stepComplete newTokens => exact entitled_step_complete consistent queues moved

end Calls

theorem queues_entitled_reached (pageSize : 0 < cfg.kvPageSizeTokens) {d : Driver cfg}
    (reached : Driver.Reached clock AffordableCalls d) : QueuesEntitled d := by
  refine reaches_invariant ⟨by simp [Driver.create, Scheduler.create],
    by simp [AllEntitled, Driver.create, Scheduler.create]⟩ ?_ reached
  intro before call after prior queues meets moved
  exact queues_entitled_step pageSize (consistent_reached prior) queues meets moved

/-! ## A request alone in the pool -/

section Alone

variable {st : Scheduler cfg} {id : Int}

theorem lone_promotion (limits : PositiveLimits cfg) (clock : Clock) (budget : Budgeted [id] st)
    (waiting : st.waiting = [id]) (running : st.running = []) (course : OnCourse (st.seqs id))
    (state : (st.seqs id).state = .waiting) :
    ∃ middle given, st.promoteWaiting clock = middle ∧ Budgeted [id] middle ∧
      middle.running = [id] ∧ middle.seqs id = admittedForm (st.seqs id) given ∧
      pagesNeededFor cfg (st.seqs id) cfg.kvPageSizeTokens ≤ given.length := by
  obtain ⟨success, kept⟩ := budget_try_alloc clock budget (List.mem_singleton_self id)
    (admission_within_bound limits.pageSize course state)
  have covers := try_alloc_covers st id cfg.kvPageSizeTokens success
  obtain ⟨given, sequence⟩ := try_alloc_kept_seq clock st id cfg.kvPageSizeTokens id
  have queues := try_alloc_same_queues clock st id cfg.kvPageSizeTokens
  rw [sequence] at covers
  refine ⟨_, given, ?_, move_front_budget kept id [], ?_, ?_, covers⟩
  · have seqsRunning := limits.seqsRunning
    simp [promoteWaiting, waiting, promoteLoop, running, seqsRunning, success]
  · simp [moveFront, setSeq, queues.running, running]
  · simp [moveFront, setSeq, sequence, admittedForm, withPages]

theorem lone_chunk {middle : Scheduler cfg} {given : List (Fin cfg.pages)}
    (admitted : middle.seqs id = admittedForm (st.seqs id) given)
    (start : (st.seqs id).prefillCursor = 0) :
    middle.startBatch.chunkFor id =
      min (min ((st.seqs id).promptTokens.length : Int) cfg.maxPrefillTokensPerStep)
        cfg.maxBatchTokens := by
  change min (min (middle.seqs id).remainingPrefill _) cfg.maxBatchTokens = _
  rw [admitted]
  change min (min (((st.seqs id).promptTokens.length : Int) - (st.seqs id).prefillCursor) _) _ = _
  rw [start, sub_zero]

theorem lone_loops (limits : PositiveLimits cfg) {clock : Clock} {middle : Scheduler cfg}
    (promoted : st.promoteWaiting clock = middle) (only : middle.running = [id])
    (prefill : (middle.seqs id).state = .prefill) (positive : 0 < middle.startBatch.chunkFor id)
    (success : (middle.startBatch.tryAlloc clock id (middle.startBatch.chunkFor id)).2 = true) :
    (st.schedule clock).1 = (middle.tryAllocPages clock id (middle.startBatch.chunkFor id)).1 := by
  have prefilling : middle.running.filter (middle.inState .prefill) = [id] := by
    rw [only]
    simp [inState, prefill]
  have decoding : middle.startBatch.decodeSeqs = [] := by
    change middle.running.filter (middle.inState .decode) = []
    rw [only]
    simp [inState, prefill]
  have batchTokens := limits.batchTokens
  have started : ¬middle.startBatch.tokensBudget ≤ 0 := not_le.mpr batchTokens
  have loop : middle.startBatch.prefillLoop clock [id] =
      (middle.startBatch.tryAlloc clock id (middle.startBatch.chunkFor id)).1.emitPrefill id
        (middle.startBatch.chunkFor id) := by
    simp only [BatchLoop.prefillLoop, if_neg started, BatchLoop.prefillStep,
      if_neg (not_le.mpr positive), success, if_true]
  have none_left : (middle.startBatch.prefillLoop clock [id]).decodeSeqs = [] := by
    rw [loop]
    exact decoding
  rw [schedule_sched clock promoted, prefilling, none_left, loop]
  rfl

theorem demand_covered (limits : PositiveLimits cfg) {chunk first all : Int}
    (chunkIs : chunk = min (min ((st.seqs id).promptTokens.length : Int)
      cfg.maxPrefillTokensPerStep) cfg.maxBatchTokens)
    (empty : (st.seqs id).outputTokens = []) (positive : 0 < chunk)
    (fits : FitsInt cfg (prefillDemand cfg (st.seqs id).promptTokens.length))
    (admission : pagesNeededFor cfg (st.seqs id) cfg.kvPageSizeTokens ≤ first)
    (covered : pagesNeededFor cfg (st.seqs id) chunk ≤ all) (longer : first ≤ all) :
    pagesOfTokens cfg (prefillDemand cfg (st.seqs id).promptTokens.length) ≤ all := by
  have tokens : (st.seqs id).totalTokens = (st.seqs id).promptTokens.length := by
    unfold Sequence.totalTokens
    rw [empty, List.length_nil, Nat.cast_zero, add_zero]
  unfold prefillDemand at fits ⊢
  rw [← chunkIs] at fits ⊢
  unfold FitsInt at fits
  have admissionFits : FitsInt cfg ((st.seqs id).totalTokens + cfg.kvPageSizeTokens) := by
    unfold FitsInt
    omega
  have chunkFits : FitsInt cfg ((st.seqs id).totalTokens + chunk) := by
    unfold FitsInt
    omega
  rw [pages_needed_eq limits.pageSize _ limits.pageSize.le admissionFits, tokens] at admission
  rw [pages_needed_eq limits.pageSize _ positive.le chunkFits, tokens] at covered
  rcases le_total cfg.kvPageSizeTokens chunk with less | more
  · rw [max_eq_right less]
    exact covered
  · rw [max_eq_left more]
    exact admission.trans longer

/-- After its first step a lone request holds all the pages its prefill demands. -/
theorem lone_schedule (limits : PositiveLimits cfg) (clock : Clock) (budget : Budgeted [id] st)
    (waiting : st.waiting = [id]) (running : st.running = []) (course : OnCourse (st.seqs id))
    (state : (st.seqs id).state = .waiting) (start : (st.seqs id).prefillCursor = 0)
    (fits : FitsInt cfg (prefillDemand cfg (st.seqs id).promptTokens.length)) :
    ∃ given, id ∈ (st.schedule clock).1.running ∧
      (st.schedule clock).1.seqs id = admittedForm (st.seqs id) given ∧
      pagesOfTokens cfg (prefillDemand cfg (st.seqs id).promptTokens.length) ≤ given.length := by
  obtain ⟨middle, first, promoted, kept, only, admitted, covers⟩ :=
    lone_promotion limits clock budget waiting running course state
  obtain ⟨empty, unfinished⟩ := course.unprefilled (by rw [state]; exact SeqState.noConfusion)
  have admittedCourse : OnCourse (middle.startBatch.sched.seqs id) :=
    admitted.symm ▸ course_admitted course state first
  have admittedState : (middle.startBatch.sched.seqs id).state = .prefill := by
    change (middle.seqs id).state = .prefill
    rw [admitted]
    rfl
  have chunk := lone_chunk admitted start
  have positive : 0 < middle.startBatch.chunkFor id := by
    have prefillTokens := limits.prefillTokens
    have batchTokens := limits.batchTokens
    rw [chunk]
    omega
  have budgeted : Budgeted [id] middle.startBatch.sched := kept
  obtain ⟨success, -⟩ := loop_try_alloc clock budgeted (List.mem_singleton_self id)
    (chunk_within_bound limits.pageSize admittedCourse admittedState positive.le
      (chunk_le_remaining middle.startBatch id))
  have result := lone_loops limits promoted only admittedState positive success
  obtain ⟨more, grown⟩ :=
    try_alloc_grows clock middle id (middle.startBatch.chunkFor id) id
  have chunkCovers := try_alloc_covers middle id (middle.startBatch.chunkFor id) success
  have queues := try_alloc_same_queues clock middle id (middle.startBatch.chunkFor id)
  rw [grown, admitted] at chunkCovers
  refine ⟨first ++ more, ?_, ?_, ?_⟩
  · rw [result, queues.running, only]
    exact List.mem_singleton_self id
  · rw [result, grown, admitted]
    rfl
  · have longer : (first.length : Int) ≤ ((first ++ more).length : Nat) := by
      rw [List.length_append]
      omega
    exact demand_covered limits chunk empty positive fits covers chunkCovers longer

end Alone

/-- A prompted request that asks for a token. -/
def Prompted (_ : Driver cfg) : Call → Prop
  | .addRequest promptTokens maxNewTokens _ => promptTokens ≠ [] ∧ 1 ≤ maxNewTokens
  | _ => True

theorem first_request_added (limits : PositiveLimits cfg) (promptTokens : List Int)
    (maxNewTokens eosTokenId : Int) :
    ((Scheduler.create cfg).addRequest promptTokens maxNewTokens eosTokenId).1 =
      { (Scheduler.create cfg).setSeq 0 { promptTokens, maxNewTokens, eosTokenId } with
        waiting := [0], nextId := 1, totalRequests := 1 } := by
  have waitingSeqs := limits.waitingSeqs
  have roomy : ¬(((Scheduler.create cfg).waiting.length : Int) ≥ cfg.maxWaitingSeqs) := by
    simpa [Scheduler.create] using waitingSeqs
  unfold addRequest
  dsimp only
  rw [if_neg roomy]
  rfl

theorem first_request_budgeted {st : Scheduler cfg} {promptTokens : List Int}
    {maxNewTokens eosTokenId : Int}
    (sequence : st.seqs 0 = { promptTokens, maxNewTokens, eosTokenId })
    (pool : st.kvPool = PagePoolFast.create cfg.pages 16)
    (room : pageBound cfg promptTokens.length maxNewTokens ≤ cfg.maxPagesTotal) :
    Budgeted [0] st := by
  have held : heldNow st 0 = 0 := by
    rw [heldNow, sequence]
    rfl
  refine ⟨List.nodup_singleton 0, pool ▸ create_sharded, ?_, ?_, ?_⟩
  · rw [pool, create_available, List.map_singleton, held]
    simp
  · intro id member
    rw [List.mem_singleton.mp member, held]
    exact Nat.zero_le _
  · rw [List.map_singleton, List.sum_singleton, sequence]
    exact Int.toNat_le_toNat room

/-- A request that cannot afford its prefill exceeds its entitlement in the first
step, in a pool that can grant it all it asks for. -/
theorem unaffordable_exceeds (limits : PositiveLimits cfg) (clock : Clock)
    {promptTokens : List Int} {maxNewTokens : Int} (eosTokenId : Int)
    (prompted : promptTokens ≠ []) (asks : 1 ≤ maxNewTokens)
    (room : pageBound cfg promptTokens.length maxNewTokens ≤ cfg.maxPagesTotal)
    (fits : FitsInt cfg (prefillDemand cfg promptTokens.length))
    (unaffordable : ¬Affordable cfg promptTokens.length maxNewTokens) :
    ∃ d : Driver cfg, Driver.Reached clock
        (fun _ call => call = .addRequest promptTokens maxNewTokens eosTokenId ∨ call = .schedule) d ∧
      ∃ id ∈ d.sched.running, (d.sched.seqs id).promptTokens = promptTokens ∧
        (d.sched.seqs id).maxNewTokens = maxNewTokens ∧
        entitlement cfg promptTokens.length maxNewTokens < (d.sched.seqs id).kvPageIds.length := by
  let st := ((Scheduler.create cfg).addRequest promptTokens maxNewTokens eosTokenId).1
  have added : st = { (Scheduler.create cfg).setSeq 0 { promptTokens, maxNewTokens, eosTokenId }
      with waiting := [0], nextId := 1, totalRequests := 1 } :=
    first_request_added limits promptTokens maxNewTokens eosTokenId
  have sequence : st.seqs 0 = { promptTokens, maxNewTokens, eosTokenId } := by
    rw [added]
    simp [setSeq]
  have pool : st.kvPool = PagePoolFast.create cfg.pages 16 := by
    rw [added]
    rfl
  have prompt : 0 < promptTokens.length := List.length_pos_of_ne_nil prompted
  have course : OnCourse (st.seqs 0) := by
    rw [sequence]
    exact ⟨Int.lt_of_lt_of_le Int.zero_lt_one asks, le_rfl, Int.natCast_nonneg _,
      fun _ => ⟨rfl, Int.natCast_pos.mpr prompt⟩⟩
  obtain ⟨given, running, after, demanded⟩ := lone_schedule limits clock
    (first_request_budgeted sequence pool room) (by rw [added]) (by rw [added]; rfl) course
    (by rw [sequence]) (by rw [sequence]) (by rw [sequence]; exact fits)
  refine ⟨_, .call (.call .start (.addRequest promptTokens maxNewTokens eosTokenId)
    (Or.inl rfl) rfl) .schedule (Or.inr rfl) rfl, 0, running, ?_, ?_, ?_⟩
  · change ((st.schedule clock).1.seqs 0).promptTokens = promptTokens
    rw [after, sequence]
    rfl
  · change ((st.schedule clock).1.seqs 0).maxNewTokens = maxNewTokens
    rw [after, sequence]
    rfl
  · change _ < (((st.schedule clock).1.seqs 0).kvPageIds.length : Int)
    rw [sequence] at demanded
    rw [after]
    exact lt_of_lt_of_le (not_le.mp unaffordable) demanded

/-- In every run whose requests can afford their prefill, no sequence holds more pages
than it is entitled to; a request that cannot, in a pool that has the pages, does. -/
theorem pages_within_entitlement (limits : PositiveLimits cfg) (clock : Clock) :
    (∀ d : Driver cfg, Driver.Reached clock AffordableCalls d →
      ∀ id ∈ d.sched.waiting ++ d.sched.running ++ d.sched.swapped,
        ((d.sched.seqs id).kvPageIds.length : Int) ≤
          entitlement cfg (d.sched.seqs id).promptTokens.length (d.sched.seqs id).maxNewTokens) ∧
    ∀ promptTokens maxNewTokens eosTokenId, promptTokens ≠ [] → 1 ≤ maxNewTokens →
      pageBound cfg promptTokens.length maxNewTokens ≤ cfg.maxPagesTotal →
      FitsInt cfg (prefillDemand cfg promptTokens.length) →
      ¬Affordable cfg promptTokens.length maxNewTokens →
      ∃ d : Driver cfg, Driver.Reached clock
          (fun _ call => call = .addRequest promptTokens maxNewTokens eosTokenId ∨
            call = .schedule) d ∧
        ∃ id ∈ d.sched.running, (d.sched.seqs id).promptTokens = promptTokens ∧
          (d.sched.seqs id).maxNewTokens = maxNewTokens ∧
          entitlement cfg promptTokens.length maxNewTokens <
            (d.sched.seqs id).kvPageIds.length := by
  constructor
  · intro d reached id member
    have queues := queues_entitled_reached limits.pageSize reached
    rw [(consistent_reached reached).unswapped, List.append_nil] at member
    exact (queues.entitled id member).held
  · intro promptTokens maxNewTokens eosTokenId prompted asks room fits unaffordable
    exact unaffordable_exceeds limits clock eosTokenId prompted asks room fits unaffordable

instance affordableCallsDecidable (d : Driver cfg) : ∀ call, Decidable (AffordableCalls d call)
  | .addRequest promptTokens maxNewTokens _ => inferInstanceAs (Decidable (promptTokens ≠ [] ∧
      1 ≤ maxNewTokens ∧ pagesOfTokens cfg (prefillDemand cfg promptTokens.length) ≤
        pagesOfTokens cfg (promptTokens.length + maxNewTokens)))
  | .abortRequest _ => isTrue trivial
  | .schedule => isTrue trivial
  | .stepComplete _ => isTrue trivial

theorem pages_within_entitlement_two_requests :
    let d := (runCalls (Driver.step tickingClock) AffordableCalls
      (Driver.create { kvPageSizeTokens := 2, maxPagesTotal := 8 })
      [.addRequest [7, 8, 9] 3 (-1), .addRequest [5] 3 (-1), .schedule, .stepComplete [],
        .schedule]).get (by decide +kernel)
    ((d.sched.seqs 0).kvPageIds.length : Int) ≤
      entitlement { kvPageSizeTokens := 2, maxPagesTotal := 8 }
        (d.sched.seqs 0).promptTokens.length (d.sched.seqs 0).maxNewTokens :=
  (pages_within_entitlement (by constructor <;> decide) tickingClock).1 _
    (reaches_of_run_get _ (by decide +kernel)) 0 (by decide +kernel)

instance promptedDecidable (d : Driver cfg) : ∀ call, Decidable (Prompted d call)
  | .addRequest promptTokens maxNewTokens _ =>
      inferInstanceAs (Decidable (promptTokens ≠ [] ∧ 1 ≤ maxNewTokens))
  | .abortRequest _ => isTrue trivial
  | .schedule => isTrue trivial
  | .stepComplete _ => isTrue trivial

/-- One prompt token and one new token fit a page; the admission takes two. -/
theorem admission_exceeds_entitlement :
    ¬∀ (cfg : SchedulerConfig) (clock : Clock) (d : Driver cfg), PositiveLimits cfg →
      Driver.Reached clock Prompted d →
      ∀ id ∈ d.sched.waiting ++ d.sched.running ++ d.sched.swapped,
        ((d.sched.seqs id).kvPageIds.length : Int) ≤
          entitlement cfg (d.sched.seqs id).promptTokens.length (d.sched.seqs id).maxNewTokens := by
  intro always
  exact absurd (always { maxPagesTotal := 4 } tickingClock _ (by constructor <;> decide)
    (reaches_of_run_get [.addRequest [7] 1 (-1), .schedule] (by decide +kernel)) 0
    (by decide +kernel)) (by decide +kernel)

end AmpFormal.PageEntitlements
