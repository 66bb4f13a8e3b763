import AmpFormal.SchedulerBatches
import Mathlib.Algebra.Order.BigOperators.Group.List

/-!
# Requests that fit the pool together

When the pool has a page for every page any of the requests can ever ask for,
no allocation fails. Completed requests keep their pages, so the account runs
over all requests and not over the queues.
-/

namespace AmpFormal.PageBudget

open AmpFormal.PagePoolFastModel AmpFormal.PagePoolFastSequential
open AmpFormal.SchedulerModel AmpFormal.SchedulerModel.Scheduler
open AmpFormal.ScheduleEffects AmpFormal.PageDemand AmpFormal.SchedulerProgress
open AmpFormal.SchedulerBatches

set_option autoImplicit false

variable {cfg : SchedulerConfig} {clock : Clock}

/-! ## The pages of one request -/

/-- `ceil(max(2 * prompt_len, prompt_len + kv_page_size_tokens,
prompt_len + max_new_tokens) / kv_page_size_tokens)`. -/
def pageBound (cfg : SchedulerConfig) (promptLen maxNewTokens : Int) : Int :=
  pagesOfTokens cfg
    (max (2 * promptLen) (max (promptLen + cfg.kvPageSizeTokens) (promptLen + maxNewTokens)))

def boundOf (cfg : SchedulerConfig) {pages : Nat} (s : Sequence pages) : Nat :=
  (pageBound cfg s.promptTokens.length s.maxNewTokens).toNat

structure OnCourse {pages : Nat} (s : Sequence pages) : Prop where
  short : (s.outputTokens.length : Int) < s.maxNewTokens
  started : 0 ≤ s.prefillCursor
  inside : s.prefillCursor ≤ s.promptTokens.length
  unprefilled : s.state ≠ .decode →
    s.outputTokens = [] ∧ s.prefillCursor < s.promptTokens.length

theorem pages_of_tokens_mono (pageSize : 0 < cfg.kvPageSizeTokens) {fewer more : Int}
    (ordered : fewer ≤ more) : pagesOfTokens cfg fewer ≤ pagesOfTokens cfg more := by
  have size : (0 : ℚ) < cfg.kvPageSizeTokens := by exact_mod_cast pageSize
  apply Int.ceil_mono
  apply div_le_div_of_nonneg_right _ size.le
  exact_mod_cast ordered

theorem needed_within_bound (pageSize : 0 < cfg.kvPageSizeTokens) {pages : Nat}
    (s : Sequence pages) {nTokens : Int} (positive : 0 ≤ nTokens)
    (fits : s.totalTokens + nTokens ≤
      max (2 * (s.promptTokens.length : Int)) (max (s.promptTokens.length + cfg.kvPageSizeTokens)
        (s.promptTokens.length + s.maxNewTokens))) :
    pagesNeededFor cfg s nTokens ≤ boundOf cfg s := by
  have needed := pages_needed_le pageSize s positive
  exact needed.trans ((pages_of_tokens_mono pageSize fits).trans (Int.self_le_toNat _))

theorem admission_within_bound (pageSize : 0 < cfg.kvPageSizeTokens) {pages : Nat}
    {s : Sequence pages}
    (course : OnCourse s) (waiting : s.state = .waiting) :
    pagesNeededFor cfg s cfg.kvPageSizeTokens ≤ boundOf cfg s := by
  apply needed_within_bound pageSize s pageSize.le
  obtain ⟨empty, _⟩ := course.unprefilled (by rw [waiting]; exact SeqState.noConfusion)
  unfold Sequence.totalTokens
  rw [empty, List.length_nil]
  omega

theorem chunk_within_bound (pageSize : 0 < cfg.kvPageSizeTokens) {pages : Nat}
    {s : Sequence pages} (course : OnCourse s) (prefill : s.state = .prefill) {chunk : Int}
    (positive : 0 ≤ chunk) (remaining : chunk ≤ s.remainingPrefill) :
    pagesNeededFor cfg s chunk ≤ boundOf cfg s := by
  apply needed_within_bound pageSize s positive
  obtain ⟨empty, _⟩ := course.unprefilled (by rw [prefill]; exact SeqState.noConfusion)
  have started := course.started
  unfold Sequence.remainingPrefill at remaining
  unfold Sequence.totalTokens
  rw [empty, List.length_nil]
  omega

theorem token_within_bound (pageSize : 0 < cfg.kvPageSizeTokens) {pages : Nat}
    {s : Sequence pages} (course : OnCourse s) : pagesNeededFor cfg s 1 ≤ boundOf cfg s := by
  apply needed_within_bound pageSize s Int.one_nonneg
  have short := course.short
  unfold Sequence.totalTokens
  omega

/-! ## The account -/

/-- `ids` are all requests. Their pages and the free ones make up the pool, and
none of them holds more than it may. -/
structure Budgeted (ids : List Int) (st : Scheduler cfg) : Prop where
  distinct : ids.Nodup
  sharded : Sharded st.kvPool
  ledger : available st.kvPool + ((ids.map (heldNow st)).sum : Nat) = (cfg.pages : ℕ∞)
  bounded : ∀ id ∈ ids, heldNow st id ≤ boundOf cfg (st.seqs id)
  enough : (ids.map fun id => boundOf cfg (st.seqs id)).sum ≤ cfg.pages

theorem budget_frame {ids : List Int} {before after : Scheduler cfg}
    (budget : Budgeted ids before) (sharded : Sharded after.kvPool)
    (left : available after.kvPool = available before.kvPool)
    (held : ∀ id ∈ ids, heldNow after id = heldNow before id)
    (bounds : ∀ id ∈ ids, boundOf cfg (after.seqs id) = boundOf cfg (before.seqs id)) :
    Budgeted ids after := by
  refine ⟨budget.distinct, sharded, ?_, ?_, ?_⟩
  · rw [left, List.map_congr_left held]
    exact budget.ledger
  · intro id member
    rw [held id member, bounds id member]
    exact budget.bounded id member
  · rw [List.map_congr_left bounds]
    exact budget.enough

theorem sum_map_add_at {ids : List Int} (first second : Int → Nat) {id : Int} {more : Nat}
    (distinct : ids.Nodup) (member : id ∈ ids) (here : second id = first id + more)
    (others : ∀ other, other ≠ id → second other = first other) :
    (ids.map second).sum = (ids.map first).sum + more := by
  induction ids with
  | nil => cases member
  | cons head rest ih =>
      obtain ⟨fresh, restDistinct⟩ := List.nodup_cons.mp distinct
      rw [List.map_cons, List.map_cons, List.sum_cons, List.sum_cons]
      rcases List.mem_cons.mp member with rfl | later
      · have same : rest.map second = rest.map first := by
          apply List.map_congr_left
          intro other inRest
          exact others other fun equal => fresh (equal ▸ inRest)
        rw [same, here]
        omega
      · have different : head ≠ id := fun equal => fresh (equal ▸ later)
        rw [ih restDistinct later, others head different]
        omega

/-- An allocation within the bound of its request succeeds. -/
theorem budget_try_alloc (clock : Clock) {ids : List Int} {st : Scheduler cfg}
    (budget : Budgeted ids st) {id nNewTokens : Int} (member : id ∈ ids)
    (fits : pagesNeededFor cfg (st.seqs id) nNewTokens ≤ boundOf cfg (st.seqs id)) :
    (st.tryAllocPages clock id nNewTokens).2 = true ∧
      Budgeted ids (st.tryAllocPages clock id nNewTokens).1 := by
  obtain ⟨kept, granted, _⟩ := try_alloc_pages_left clock st id nNewTokens budget.sharded
  have seqs := try_alloc_grows clock st id nNewTokens
  have more : heldNow st id + extraPages st id nNewTokens ≤ boundOf cfg (st.seqs id) := by
    have held := budget.bounded id member
    unfold extraPages heldNow at *
    omega
  -- The pages held after a success, counted before the success is known.
  have total : (ids.map (heldNow st)).sum + extraPages st id nNewTokens ≤ cfg.pages := by
    have raised := sum_map_add_at (heldNow st) (Function.update (heldNow st) id
        (heldNow st id + extraPages st id nNewTokens)) budget.distinct member
      (Function.update_self _ _ _) fun other different => Function.update_of_ne different _ _
    rw [← raised]
    refine (List.sum_le_sum fun other inside => ?_).trans budget.enough
    by_cases same : other = id
    · rw [same, Function.update_self]
      exact more
    · rw [Function.update_of_ne same]
      exact budget.bounded other inside
  have finite : ((ids.map (heldNow st)).sum : ℕ∞) ≠ ⊤ := ENat.natCast_ne_top _
  have room : ((extraPages st id nNewTokens : Nat) : ℕ∞) ≤ available st.kvPool := by
    rw [← ENat.add_le_add_iff_right (ENat.natCast_ne_top (ids.map (heldNow st)).sum),
      budget.ledger, add_comm]
    exact_mod_cast total
  obtain ⟨success, left, length⟩ := granted room
  have heldOther : ∀ other, other ≠ id →
      heldNow (st.tryAllocPages clock id nNewTokens).1 other = heldNow st other := by
    intro other different
    obtain ⟨given, same⟩ := try_alloc_seqs clock st id nNewTokens
    rw [heldNow, same, Function.update_of_ne different]
    rfl
  have bounds : ∀ other, boundOf cfg ((st.tryAllocPages clock id nNewTokens).1.seqs other) =
      boundOf cfg (st.seqs other) := by
    intro other
    obtain ⟨given, same⟩ := seqs other
    rw [same]
    rfl
  refine ⟨success, budget.distinct, kept, ?_, ?_, ?_⟩
  · rw [sum_map_add_at _ _ budget.distinct member length heldOther, Nat.cast_add, ← budget.ledger,
      ← left, add_comm ((ids.map (heldNow st)).sum : ℕ∞), ← add_assoc]
  · intro other inside
    rw [bounds]
    by_cases same : other = id
    · rw [same]
      exact length.trans_le more
    · rw [heldOther other same]
      exact budget.bounded other inside
  · rw [List.map_congr_left fun other _ => bounds other]
    exact budget.enough

theorem try_alloc_preemptions (clock : Clock) (st : Scheduler cfg) (id nNewTokens : Int) :
    (st.tryAllocPages clock id nNewTokens).1.preemptions = st.preemptions := by
  obtain ⟨_, result⟩ | ⟨_, _, result⟩ | ⟨_, _, result⟩ := try_alloc_cases clock st id nNewTokens
  · rw [result]
  · rw [result]
    rfl
  · rw [result]
    rfl

/-! ## Admission -/

theorem move_front_budget {ids : List Int} {st : Scheduler cfg} (budget : Budgeted ids st)
    (front : Int) (rest : List Int) : Budgeted ids (st.moveFront front rest) := by
  have same : ∀ id, (st.moveFront front rest).seqs id =
      { st.seqs id with state := ((st.moveFront front rest).seqs id).state } := by
    intro id
    by_cases here : id = front
    · subst here
      simp [moveFront, setSeq]
    · simp [moveFront, setSeq, Function.update_of_ne here]
  have pool : (st.moveFront front rest).kvPool = st.kvPool := rfl
  apply budget_frame budget (pool ▸ budget.sharded) (congrArg available pool)
  · intro id _
    rw [heldNow, same]
    rfl
  · intro id _
    rw [same]
    rfl

theorem promote_loop_budget (pageSize : 0 < cfg.kvPageSizeTokens) (clock : Clock) {ids : List Int}
    (queue : List Int) {st : Scheduler cfg} (budget : Budgeted ids st) (distinct : queue.Nodup)
    (known : ∀ id ∈ queue, id ∈ ids ∧ (st.seqs id).state = .waiting ∧ OnCourse (st.seqs id)) :
    Budgeted ids (st.promoteLoop clock queue) ∧
      (st.promoteLoop clock queue).preemptions = st.preemptions := by
  induction queue generalizing st with
  | nil => exact ⟨budget, rfl⟩
  | cons front rest ih =>
      obtain ⟨fresh, restDistinct⟩ := List.nodup_cons.mp distinct
      obtain ⟨member, waiting, course⟩ := known front (by simp)
      obtain ⟨success, kept⟩ := budget_try_alloc clock budget member
        (admission_within_bound pageSize course waiting)
      obtain ⟨given, seqs⟩ := try_alloc_seqs clock st front cfg.kvPageSizeTokens
      unfold promoteLoop
      split
      case isFalse => exact ⟨budget, rfl⟩
      case isTrue =>
        simp only [success, if_true]
        have later := ih (move_front_budget kept front rest) restDistinct (by
          intro id inRest
          have different : id ≠ front := fun same => fresh (same ▸ inRest)
          have unchanged : ((st.tryAllocPages clock front cfg.kvPageSizeTokens).1.moveFront
              front rest).seqs id = st.seqs id := by
            simp [moveFront, setSeq, seqs, Function.update_of_ne different]
          rw [unchanged]
          exact known id (by simp [inRest]))
        exact ⟨later.1, later.2.trans (try_alloc_preemptions clock st front _)⟩

/-! ## The two loops -/

structure LoopGranted (ids : List Int) (before after : BatchLoop cfg) : Prop where
  budget : Budgeted ids after.sched
  seqs : ∀ id, ∃ given, after.sched.seqs id = withPages (before.sched.seqs id) given
  decodeSeqs : after.decodeSeqs = before.decodeSeqs
  preemptions : after.sched.preemptions = before.sched.preemptions
  issued : before.batch.entries ≠ [] → after.batch.entries ≠ []

theorem granted_refl {ids : List Int} {loop : BatchLoop cfg} (budget : Budgeted ids loop.sched) :
    LoopGranted ids loop loop :=
  ⟨budget, fun id => ⟨(loop.sched.seqs id).kvPageIds, rfl⟩, rfl, rfl, fun some => some⟩

theorem granted_trans {ids : List Int} {first second third : BatchLoop cfg}
    (left : LoopGranted ids first second) (right : LoopGranted ids second third) :
    LoopGranted ids first third := by
  refine ⟨right.budget, ?_, right.decodeSeqs.trans left.decodeSeqs,
    right.preemptions.trans left.preemptions, fun some => right.issued (left.issued some)⟩
  intro id
  obtain ⟨given, firstSame⟩ := left.seqs id
  obtain ⟨more, secondSame⟩ := right.seqs id
  refine ⟨more, ?_⟩
  rw [secondSame, firstSame]
  rfl

theorem course_with_pages {pages : Nat} {s : Sequence pages} (course : OnCourse s)
    (given : List (Fin pages)) : OnCourse (withPages s given) :=
  ⟨course.short, course.started, course.inside, course.unprefilled⟩

/-- The sequences a loop visits: requests in one state, on course. -/
def Visits (ids refs : List Int) (state : SeqState) (st : Scheduler cfg) : Prop :=
  ∀ id ∈ refs, id ∈ ids ∧ (st.seqs id).state = state ∧ OnCourse (st.seqs id)

theorem visits_kept {ids refs : List Int} {state : SeqState} {before after : BatchLoop cfg}
    (visits : Visits ids refs state before.sched) (granted : LoopGranted ids before after) :
    Visits ids refs state after.sched := by
  intro id member
  obtain ⟨known, same, course⟩ := visits id member
  obtain ⟨given, seq⟩ := granted.seqs id
  rw [seq]
  exact ⟨known, same, course_with_pages course given⟩

theorem visits_tail {ids rest : List Int} {id : Int} {state : SeqState} {st : Scheduler cfg}
    (visits : Visits ids (id :: rest) state st) : Visits ids rest state st :=
  fun other member => visits other (List.mem_cons_of_mem _ member)

theorem loop_try_alloc {ids : List Int} (clock : Clock) {loop : BatchLoop cfg}
    (budget : Budgeted ids loop.sched) {id nNewTokens : Int} (member : id ∈ ids)
    (fits : pagesNeededFor cfg (loop.sched.seqs id) nNewTokens ≤
      boundOf cfg (loop.sched.seqs id)) :
    (loop.tryAlloc clock id nNewTokens).2 = true ∧
      LoopGranted ids loop (loop.tryAlloc clock id nNewTokens).1 := by
  obtain ⟨success, kept⟩ := budget_try_alloc clock budget member fits
  refine ⟨success, kept, ?_, rfl, try_alloc_preemptions clock loop.sched id nNewTokens,
    fun some => some⟩
  intro other
  obtain ⟨more, same⟩ := try_alloc_grows clock loop.sched id nNewTokens other
  exact ⟨_, same⟩

theorem prefill_step_granted (pageSize : 0 < cfg.kvPageSizeTokens) (clock : Clock)
    {ids : List Int} {loop : BatchLoop cfg} (budget : Budgeted ids loop.sched) {id : Int}
    (visits : Visits ids [id] .prefill loop.sched) :
    LoopGranted ids loop (loop.prefillStep clock id) ∧
      (0 < loop.chunkFor id → (loop.prefillStep clock id).batch.entries ≠ []) := by
  obtain ⟨member, state, course⟩ := visits id (by simp)
  unfold BatchLoop.prefillStep
  dsimp only
  split
  case isTrue empty => exact ⟨granted_refl budget, fun positive => by omega⟩
  case isFalse some =>
    obtain ⟨success, granted⟩ := loop_try_alloc clock budget member
      (chunk_within_bound pageSize course state (not_le.mp some).le (chunk_le_remaining loop id))
    rw [if_pos success]
    exact ⟨⟨granted.budget, granted.seqs, granted.decodeSeqs, granted.preemptions,
      fun _ => by simp [BatchLoop.emitPrefill]⟩, fun _ => by simp [BatchLoop.emitPrefill]⟩

theorem prefill_loop_granted (limits : PositiveLimits cfg) (clock : Clock) {ids : List Int}
    (refs : List Int) {loop : BatchLoop cfg} (budget : Budgeted ids loop.sched)
    (visits : Visits ids refs .prefill loop.sched) :
    LoopGranted ids loop (loop.prefillLoop clock refs) ∧
      (refs ≠ [] → 0 < loop.tokensBudget →
        (loop.prefillLoop clock refs).batch.entries ≠ []) := by
  induction refs generalizing loop with
  | nil => exact ⟨granted_refl budget, fun absurd => (absurd rfl).elim⟩
  | cons id rest ih =>
      unfold BatchLoop.prefillLoop
      split
      case isTrue exhausted => exact ⟨granted_refl budget, fun _ positive => by omega⟩
      case isFalse =>
        obtain ⟨step, issued⟩ := prefill_step_granted limits.pageSize clock budget
          fun other here => visits other (List.mem_singleton.mp here ▸ List.mem_cons_self)
        obtain ⟨later, _⟩ := ih step.budget (visits_tail (visits_kept visits step))
        refine ⟨granted_trans step later, fun _ positive => later.issued (issued ?_)⟩
        obtain ⟨_, state, course⟩ := visits id (by simp)
        obtain ⟨_, unfinished⟩ := course.unprefilled (by rw [state]; exact SeqState.noConfusion)
        have prefillTokens := limits.prefillTokens
        unfold BatchLoop.chunkFor Sequence.remainingPrefill
        omega

theorem decode_loop_granted (pageSize : 0 < cfg.kvPageSizeTokens) (clock : Clock)
    {ids : List Int} (refs : List Int) {loop : BatchLoop cfg} (budget : Budgeted ids loop.sched)
    (visits : Visits ids refs .decode loop.sched) :
    LoopGranted ids loop (loop.decodeLoop clock refs) ∧
      (refs ≠ [] → 0 < loop.tokensBudget →
        (loop.decodeLoop clock refs).batch.entries ≠ []) := by
  induction refs generalizing loop with
  | nil => exact ⟨granted_refl budget, fun absurd => (absurd rfl).elim⟩
  | cons id rest ih =>
      unfold BatchLoop.decodeLoop
      split
      case isTrue exhausted => exact ⟨granted_refl budget, fun _ positive => by omega⟩
      case isFalse =>
        obtain ⟨member, _, course⟩ := visits id (by simp)
        obtain ⟨success, granted⟩ := loop_try_alloc clock budget member
          (token_within_bound pageSize course)
        have step : LoopGranted ids loop (loop.decodeStep clock id) := by
          unfold BatchLoop.decodeStep
          dsimp only
          rw [if_pos success]
          exact ⟨granted.budget, granted.seqs, granted.decodeSeqs, granted.preemptions,
            fun _ => by simp [BatchLoop.emitDecode]⟩
        have issued : (loop.decodeStep clock id).batch.entries ≠ [] := by
          unfold BatchLoop.decodeStep
          dsimp only
          rw [if_pos success]
          simp [BatchLoop.emitDecode]
        obtain ⟨later, _⟩ := ih step.budget (visits_tail (visits_kept visits step))
        exact ⟨granted_trans step later, fun _ _ => later.issued issued⟩

/-! ## The whole call -/

theorem promote_waiting_nonempty (limits : PositiveLimits cfg) (clock : Clock) {ids : List Int}
    {st : Scheduler cfg} (budget : Budgeted ids st) (visits : Visits ids st.waiting .waiting st)
    (some_queued : st.waiting ++ st.running ≠ []) : (st.promoteWaiting clock).running ≠ [] := by
  obtain ⟨admitted, promoted⟩ := promote_loop_effect clock st.waiting st rfl
  change PromoteEffect st.waiting st (st.promoteWaiting clock) admitted at promoted
  intro empty
  have running := promoted.running
  rw [empty] at running
  obtain ⟨idle, _⟩ := List.append_eq_nil_iff.mp running.symm
  cases head : st.waiting with
  | nil => simp [head, idle] at some_queued
  | cons front rest =>
      obtain ⟨member, waiting, course⟩ := visits front (by simp [head])
      obtain ⟨success, _⟩ := budget_try_alloc clock budget member
        (admission_within_bound limits.pageSize course waiting)
      have seqsRunning := limits.seqsRunning
      have moved : st.promoteWaiting clock =
          ((st.tryAllocPages clock front cfg.kvPageSizeTokens).1.moveFront front rest).promoteLoop
            clock rest := by
        unfold promoteWaiting
        rw [head]
        simp [promoteLoop, idle, seqsRunning, success]
      obtain ⟨others, later⟩ := promote_loop_effect clock rest
        ((st.tryAllocPages clock front cfg.kvPageSizeTokens).1.moveFront front rest) rfl
      rw [moved, later.running] at empty
      simp [moveFront, setSeq] at empty

theorem course_admitted {pages : Nat} {s : Sequence pages} (course : OnCourse s)
    (waiting : s.state = .waiting) (given : List (Fin pages)) :
    OnCourse (admittedForm s given) := by
  refine ⟨course.short, course.started, course.inside, fun _ => ?_⟩
  exact course.unprefilled (by rw [waiting]; exact SeqState.noConfusion)

theorem promoted_visits {ids : List Int} {st middle : Scheduler cfg} {admitted : List Int}
    (promoted : PromoteEffect st.waiting st middle admitted)
    (waiting : ∀ id ∈ st.waiting, (st.seqs id).state = .waiting)
    (members : ∀ id ∈ st.waiting ++ st.running, id ∈ ids ∧ OnCourse (st.seqs id))
    (state : SeqState) :
    Visits ids (middle.running.filter (middle.inState state)) state middle := by
  intro id member
  obtain ⟨running, same⟩ := (mem_in_state_iff _ _ _ _).mp member
  rw [promoted.running] at running
  by_cases new : id ∈ admitted
  · have queued : id ∈ st.waiting := by
      rw [promoted.taken]
      exact List.mem_append_left _ new
    obtain ⟨given, seq⟩ := promoted.admitted_seq id new
    obtain ⟨known, course⟩ := members id (List.mem_append_left _ queued)
    exact ⟨known, same, seq ▸ course_admitted course (waiting id queued) given⟩
  · have old := (List.mem_append.mp running).resolve_right new
    obtain ⟨known, course⟩ := members id (List.mem_append_right _ old)
    exact ⟨known, same, (promoted.other_seq id new).symm ▸ course⟩

/-- With the budget kept, `schedule` preempts nothing and issues something. -/
structure ScheduleGranted (ids : List Int) (st after : Scheduler cfg) (batch : ScheduledBatch) :
    Prop where
  budget : Budgeted ids after
  preemptions : after.preemptions = st.preemptions
  effect : ∃ admitted, ScheduleEffect st after batch admitted []
  issued : st.waiting ++ st.running ≠ [] → batch.entries ≠ []

theorem nothing_preempted {st after : Scheduler cfg} {batch : ScheduledBatch}
    {admitted preempted : List Int}
    (effect : ScheduleEffect st after batch admitted preempted)
    (decoding : ∀ id ∈ st.running, (st.seqs id).state = .decode → (after.seqs id).state = .decode) :
    preempted = [] := by
  rw [List.eq_nil_iff_forall_not_mem]
  intro id member
  obtain ⟨running, state⟩ := effect.preempted_from id member
  have kept := decoding id running state
  rw [effect.preempted_seq id member] at kept
  cases kept

theorem loops_granted (limits : PositiveLimits cfg) (clock : Clock) {ids : List Int}
    {middle : Scheduler cfg} (budget : Budgeted ids middle)
    (visits : ∀ state, Visits ids (middle.running.filter (middle.inState state)) state middle)
    (states : ∀ id ∈ middle.running,
      (middle.seqs id).state = .prefill ∨ (middle.seqs id).state = .decode) :
    let first := middle.startBatch.prefillLoop clock
      (middle.running.filter (middle.inState .prefill))
    LoopGranted ids middle.startBatch (first.decodeLoop clock first.decodeSeqs) ∧
      (middle.running ≠ [] → (first.decodeLoop clock first.decodeSeqs).batch.entries ≠ []) := by
  intro first
  obtain ⟨prefilled, prefillIssued⟩ : LoopGranted ids middle.startBatch first ∧ _ :=
    prefill_loop_granted limits clock _ budget (visits .prefill)
  have decodeSeqs : first.decodeSeqs = middle.running.filter (middle.inState .decode) :=
    prefilled.decodeSeqs
  rw [decodeSeqs]
  have decodeVisits : Visits ids (middle.running.filter (middle.inState .decode)) .decode
      middle.startBatch.sched := visits .decode
  obtain ⟨decoded, decodeIssued⟩ := decode_loop_granted limits.pageSize clock _ prefilled.budget
    (visits_kept decodeVisits prefilled)
  refine ⟨granted_trans prefilled decoded, fun some_running => ?_⟩
  obtain ⟨id, running⟩ := List.exists_mem_of_ne_nil _ some_running
  by_cases none_prefills : middle.running.filter (middle.inState .prefill) = []
  · -- Then the prefill loop did nothing and the whole budget is left.
    have untouched : first = middle.startBatch := by
      change middle.startBatch.prefillLoop clock _ = _
      rw [none_prefills]
      rfl
    apply decodeIssued
    · have decoding : (middle.seqs id).state = .decode := by
        refine (states id running).resolve_left fun prefill => ?_
        have member := (mem_in_state_iff middle .prefill id _).mpr ⟨running, prefill⟩
        rw [none_prefills] at member
        cases member
      exact List.ne_nil_of_mem ((mem_in_state_iff middle .decode id _).mpr ⟨running, decoding⟩)
    · rw [untouched]
      exact limits.batchTokens
  · exact decoded.issued (prefillIssued none_prefills limits.batchTokens)

theorem promoted_states {st middle : Scheduler cfg} {admitted : List Int}
    (promoted : PromoteEffect st.waiting st middle admitted)
    (running : ∀ id ∈ st.running, (st.seqs id).state = .prefill ∨ (st.seqs id).state = .decode) :
    ∀ id ∈ middle.running,
      (middle.seqs id).state = .prefill ∨ (middle.seqs id).state = .decode := by
  intro id member
  rw [promoted.running] at member
  by_cases new : id ∈ admitted
  · obtain ⟨given, seq⟩ := promoted.admitted_seq id new
    rw [seq]
    exact Or.inl rfl
  · rw [promoted.other_seq id new]
    exact running id ((List.mem_append.mp member).resolve_right new)

theorem schedule_granted (limits : PositiveLimits cfg) (clock : Clock) {ids : List Int}
    {st : Scheduler cfg} (budget : Budgeted ids st) (distinct : (st.waiting ++ st.running).Nodup)
    (waiting : ∀ id ∈ st.waiting, (st.seqs id).state = .waiting)
    (running : ∀ id ∈ st.running, (st.seqs id).state = .prefill ∨ (st.seqs id).state = .decode)
    (members : ∀ id ∈ st.waiting ++ st.running, id ∈ ids ∧ OnCourse (st.seqs id)) :
    ScheduleGranted ids st (st.schedule clock).1 (st.schedule clock).2 := by
  have queueVisits : Visits ids st.waiting .waiting st := fun id member =>
    have known := members id (List.mem_append_left _ member)
    ⟨known.1, waiting id member, known.2⟩
  obtain ⟨admitted, preempted, effect⟩ := schedule_effect clock st distinct
  obtain ⟨moved, promoted⟩ := promote_loop_effect clock st.waiting st rfl
  obtain ⟨middleBudget, middlePreemptions⟩ := promote_loop_budget limits.pageSize clock st.waiting
    budget (List.nodup_append.mp distinct).1 queueVisits
  obtain ⟨granted, issued⟩ := loops_granted limits clock middleBudget
    (promoted_visits promoted waiting members) (promoted_states promoted running)
  have kept : ∀ id ∈ st.running, (st.seqs id).state = .decode →
      ((st.schedule clock).1.seqs id).state = .decode := by
    intro id member decoding
    have old : id ∉ moved := by
      intro new
      apply (List.nodup_append.mp distinct).2.2 id _ id member rfl
      rw [promoted.taken]
      exact List.mem_append_left _ new
    obtain ⟨given, seq⟩ := granted.seqs id
    have same : (st.schedule clock).1.seqs id =
        withPages ((st.promoteLoop clock st.waiting).seqs id) given := seq
    rw [same, promoted.other_seq id old]
    exact decoding
  refine ⟨granted.budget, granted.preemptions.trans middlePreemptions, ⟨admitted, ?_⟩,
    fun queued => issued (promote_waiting_nonempty limits clock budget queueVisits queued)⟩
  exact nothing_preempted effect kept ▸ effect

end AmpFormal.PageBudget
