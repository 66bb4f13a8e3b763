import AmpFormal.PagePoolFastSequential
import AmpFormal.ScheduleTrace

/-!
# The pages one `schedule` asks for

From the state before the call alone: which requests will be admitted, which
chunks the token budget allows, and how many pages these and the decode tokens
need. When the free stacks hold that many, every allocation of the call
succeeds, so nothing is preempted. When nothing decodes, the first chunk that
fits already makes the batch nonempty.
-/

namespace AmpFormal.PageDemand

open AmpFormal.PagePoolFastModel AmpFormal.PagePoolFastSequential
open AmpFormal.SchedulerModel AmpFormal.SchedulerModel.Scheduler
open AmpFormal.ScheduleEffects AmpFormal.ScheduleTrace

set_option autoImplicit false

variable {cfg : SchedulerConfig} {clock : Clock}

/-! ## The plan -/

/-- Pages still missing for `nTokens` more tokens when `held` are held. -/
def missingPages (cfg : SchedulerConfig) (s : Sequence cfg.pages) (held : Nat) (nTokens : Int) :
    Nat :=
  (pagesNeededFor cfg s nTokens - held).toNat

def chunkOf (cfg : SchedulerConfig) (s : Sequence cfg.pages) (budget : Int) : Int :=
  min (min s.remainingPrefill cfg.maxPrefillTokensPerStep) budget

/-- The requests `promote_waiting` will take from `queue`, with the pages taken
by then. -/
def admissions (st : Scheduler cfg) : List Int → Nat → Nat → List Int × Nat
  | [], taken, _ => ([], taken)
  | front :: rest, taken, slots =>
      let total := taken + extraPages st front cfg.kvPageSizeTokens
      if (slots : Int) < cfg.maxSeqsRunning ∧ canPop st.kvPool total = true then
        let later := admissions st rest total (slots + 1)
        (front :: later.1, later.2)
      else ([], taken)

/-- The pages asked for by the prefill chunks, and the token budget left. -/
def prefillPlan (cfg : SchedulerConfig) (seqs : Int → Sequence cfg.pages) (held : Int → Nat) :
    List Int → Int → Nat × Int
  | [], budget => (0, budget)
  | id :: rest, budget =>
      if budget ≤ 0 then (0, budget)
      else
        let chunk := chunkOf cfg (seqs id) budget
        if chunk ≤ 0 then prefillPlan cfg seqs held rest budget
        else
          let later := prefillPlan cfg seqs held rest (budget - chunk)
          (missingPages cfg (seqs id) (held id) chunk + later.1, later.2)

def decodePlan (st : Scheduler cfg) : List Int → Int → Nat
  | [], _ => 0
  | id :: rest, budget =>
      if budget ≤ 0 then 0 else extraPages st id 1 + decodePlan st rest (budget - 1)

def plannedAdmissions (st : Scheduler cfg) : List Int × Nat :=
  admissions st st.waiting 0 st.running.length

def heldThen (st : Scheduler cfg) (id : Int) : Nat :=
  (st.seqs id).kvPageIds.length +
    if id ∈ (plannedAdmissions st).1 then extraPages st id cfg.kvPageSizeTokens else 0

def decoders (st : Scheduler cfg) : List Int := st.running.filter (st.inState .decode)

def prefillers (st : Scheduler cfg) : List Int :=
  st.running.filter (st.inState .prefill) ++ (plannedAdmissions st).1

def plannedDemand (st : Scheduler cfg) : Nat :=
  let prefill := prefillPlan cfg st.seqs (heldThen st) (prefillers st) cfg.maxBatchTokens
  (plannedAdmissions st).2 + (prefill.1 + decodePlan st (decoders st) prefill.2)

/-- No sequence decodes, or the free stacks hold all the pages of the call. -/
def Roomy (st : Scheduler cfg) : Prop :=
  decoders st = [] ∨ canPop st.kvPool (plannedDemand st) = true

/-- After the admissions the free stacks hold the pages of some sequence's
first chunk. -/
def FirstChunkFits (st : Scheduler cfg) : Prop :=
  ∃ id ∈ prefillers st, 0 < chunkOf cfg (st.seqs id) cfg.maxBatchTokens ∧
    canPop st.kvPool ((plannedAdmissions st).2 + missingPages cfg (st.seqs id) (heldThen st id)
      (chunkOf cfg (st.seqs id) cfg.maxBatchTokens)) = true

instance roomyDecidable (st : Scheduler cfg) : Decidable (Roomy st) :=
  inferInstanceAs (Decidable (_ ∨ _))

instance firstChunkFitsDecidable (st : Scheduler cfg) : Decidable (FirstChunkFits st) :=
  inferInstanceAs (Decidable (∃ id ∈ prefillers st, _))

/-! ## Single allocations -/

theorem try_alloc_pages_left (clock : Clock) (st : Scheduler cfg) (id nNewTokens : Int)
    (sharded : Sharded st.kvPool) :
    Sharded (st.tryAllocPages clock id nNewTokens).1.kvPool ∧
    (((extraPages st id nNewTokens : Nat) : ℕ∞) ≤ available st.kvPool →
      (st.tryAllocPages clock id nNewTokens).2 = true ∧
      available (st.tryAllocPages clock id nNewTokens).1.kvPool + extraPages st id nNewTokens =
        available st.kvPool ∧
      ((st.tryAllocPages clock id nNewTokens).1.seqs id).kvPageIds.length =
        (st.seqs id).kvPageIds.length + extraPages st id nNewTokens) ∧
    (available st.kvPool < ((extraPages st id nNewTokens : Nat) : ℕ∞) →
      (st.tryAllocPages clock id nNewTokens).2 = false ∧
      available (st.tryAllocPages clock id nNewTokens).1.kvPool = available st.kvPool) := by
  have answer := alloc_available sharded (extraPages st id nNewTokens) id (clock st.ticks)
  have kept := alloc_sharded sharded (extraPages st id nNewTokens) id (clock st.ticks)
  rcases try_alloc_cases clock st id nNewTokens with
    ⟨none_missing, result⟩ | ⟨positive, short, result⟩ | ⟨positive, enough, result⟩
  · rw [result, none_missing]
    refine ⟨sharded, fun _ => ⟨rfl, by simp, by simp⟩, fun few => ?_⟩
    exact absurd few (by simp)
  · rw [result]
    refine ⟨kept, fun room => ?_, fun few => ⟨rfl, (answer.2 few).2⟩⟩
    have full := (answer.1 room).1
    unfold poolAnswer at short
    omega
  · rw [result]
    refine ⟨kept, fun room => ⟨rfl, (answer.1 room).2, ?_⟩, fun few => ?_⟩
    · have full := (answer.1 room).1
      simp only [setSeq, Function.update_self, withPages, List.length_append]
      unfold poolAnswer
      omega
    · have empty := (answer.2 few).1
      unfold poolAnswer at enough
      rw [empty] at enough
      simp at enough
      omega

/-! ## The admissions -/

theorem room_left {now whole : ℕ∞} {taken : Nat} (left : now + taken = whole) (more : Nat) :
    (((taken + more : Nat)) : ℕ∞) ≤ whole ↔ (more : ℕ∞) ≤ now := by
  rw [← left, Nat.cast_add, add_comm now, ENat.add_le_add_iff_left (ENat.natCast_ne_top taken)]

structure Admitted (origin after : Scheduler cfg) (before : List Int) (plan : List Int × Nat) :
    Prop where
  sharded : Sharded after.kvPool
  running : after.running = before ++ plan.1
  pages_left : available after.kvPool + plan.2 = available origin.kvPool

/-- The front of the queue was granted its pages and has moved to the running ones. -/
structure FrontAdmitted (origin st moved : Scheduler cfg) (front : Int) (taken : Nat) : Prop where
  sharded : Sharded moved.kvPool
  running : moved.running = st.running ++ [front]
  others : ∀ id, id ≠ front → moved.seqs id = st.seqs id
  length : (moved.seqs front).kvPageIds.length =
    (origin.seqs front).kvPageIds.length + extraPages origin front cfg.kvPageSizeTokens
  left : available moved.kvPool +
    ((taken + extraPages origin front cfg.kvPageSizeTokens : Nat) : ℕ∞) = available origin.kvPool

section Front

variable {origin st : Scheduler cfg} {front : Int} {taken : Nat}

theorem extra_pages_same (same : st.seqs front = origin.seqs front) (count : Int) :
    extraPages st front count = extraPages origin front count := by
  unfold extraPages
  rw [same]

theorem front_granted (clock : Clock) (rest : List Int) (sharded : Sharded st.kvPool)
    (same : st.seqs front = origin.seqs front)
    (left : available st.kvPool + taken = available origin.kvPool)
    (room : canPop origin.kvPool
      (taken + extraPages origin front cfg.kvPageSizeTokens) = true) :
    (st.tryAllocPages clock front cfg.kvPageSizeTokens).2 = true ∧
      FrontAdmitted origin st
        ((st.tryAllocPages clock front cfg.kvPageSizeTokens).1.moveFront front rest) front
        taken := by
  have enough := (room_left left _).mp ((can_pop_iff _ _).mp room)
  have queues := try_alloc_same_queues clock st front cfg.kvPageSizeTokens
  rcases try_alloc_seqs clock st front cfg.kvPageSizeTokens with ⟨ids, seqs⟩
  rcases try_alloc_pages_left clock st front cfg.kvPageSizeTokens sharded with ⟨kept, granted, _⟩
  rw [extra_pages_same same] at granted
  rcases granted enough with ⟨success, pages, length⟩
  refine ⟨success, kept, ?_, ?_, ?_, ?_⟩
  · rw [← queues.running]
    rfl
  · intro id different
    simp [moveFront, setSeq, seqs, Function.update_of_ne different]
  · simp only [moveFront, setSeq, Function.update_self]
    rw [length, same]
  · change available (st.tryAllocPages clock front cfg.kvPageSizeTokens).1.kvPool + _ = _
    rw [Nat.cast_add, add_comm (taken : ℕ∞), ← add_assoc, pages]
    exact left

theorem front_refused (clock : Clock) (sharded : Sharded st.kvPool)
    (same : st.seqs front = origin.seqs front)
    (left : available st.kvPool + taken = available origin.kvPool)
    (full : ¬canPop origin.kvPool
      (taken + extraPages origin front cfg.kvPageSizeTokens) = true) :
    (st.tryAllocPages clock front cfg.kvPageSizeTokens).2 = false ∧
      Admitted origin (st.tryAllocPages clock front cfg.kvPageSizeTokens).1 st.running
        ([], taken) ∧
      (st.tryAllocPages clock front cfg.kvPageSizeTokens).1.seqs = st.seqs := by
  have short := not_le.mp ((room_left left _).not.mp ((can_pop_iff _ _).not.mp full))
  have queues := try_alloc_same_queues clock st front cfg.kvPageSizeTokens
  rcases try_alloc_pages_left clock st front cfg.kvPageSizeTokens sharded with ⟨kept, _, refused⟩
  rw [extra_pages_same same] at refused
  rcases refused short with ⟨failure, pages⟩
  refine ⟨failure, ⟨kept, ?_, ?_⟩, try_alloc_failed_seqs st front cfg.kvPageSizeTokens failure⟩
  · rw [queues.running, List.append_nil]
  · rw [pages]
    exact left

end Front

/-- The planned admissions are made: their pages are granted, and no request
behind the queue is touched. -/
structure QueueAdmitted (clock : Clock) (origin st : Scheduler cfg) (queue : List Int)
    (plan : List Int × Nat) : Prop where
  effect : Admitted origin (st.promoteLoop clock queue) st.running plan
  lengths : ∀ id ∈ plan.1, ((st.promoteLoop clock queue).seqs id).kvPageIds.length =
    (origin.seqs id).kvPageIds.length + extraPages origin id cfg.kvPageSizeTokens
  others : ∀ id, id ∉ queue → (st.promoteLoop clock queue).seqs id = st.seqs id

theorem queue_admitted_cons {origin st moved : Scheduler cfg} {front : Int} {rest : List Int}
    {taken : Nat} {plan : List Int × Nat} (fresh : front ∉ rest)
    (admitted : FrontAdmitted origin st moved front taken)
    (later : QueueAdmitted clock origin moved rest plan)
    (continues : st.promoteLoop clock (front :: rest) = moved.promoteLoop clock rest) :
    QueueAdmitted clock origin st (front :: rest) (front :: plan.1, plan.2) := by
  constructor <;> rw [continues]
  case effect =>
    refine ⟨later.effect.sharded, ?_, later.effect.pages_left⟩
    rw [later.effect.running, admitted.running, List.append_assoc]
    rfl
  case lengths =>
    intro id member
    rcases List.mem_cons.mp member with rfl | behind
    · rw [later.others id fresh]
      exact admitted.length
    · exact later.lengths id behind
  case others =>
    intro id absent
    rw [List.mem_cons, not_or] at absent
    rw [later.others id absent.2, admitted.others id absent.1]

theorem promote_loop_room (clock : Clock) (origin : Scheduler cfg) (queue : List Int)
    (st : Scheduler cfg) (taken : Nat) (distinct : queue.Nodup) (sharded : Sharded st.kvPool)
    (same : ∀ id ∈ queue, st.seqs id = origin.seqs id)
    (left : available st.kvPool + taken = available origin.kvPool) :
    QueueAdmitted clock origin st queue (admissions origin queue taken st.running.length) := by
  induction queue generalizing st taken with
  | nil => exact ⟨⟨sharded, (List.append_nil _).symm, left⟩, by simp [admissions], fun _ _ => rfl⟩
  | cons front rest ih =>
      rw [List.nodup_cons] at distinct
      have frontSame := same front (by simp)
      by_cases slot : (st.running.length : Int) < cfg.maxSeqsRunning
      case neg =>
        have stops : st.promoteLoop clock (front :: rest) = st := by
          unfold promoteLoop
          exact if_neg slot
        have plan : admissions origin (front :: rest) taken st.running.length = ([], taken) := by
          unfold admissions
          simp only [slot, false_and, if_false]
        rw [plan]
        refine ⟨?_, by simp, fun _ _ => by rw [stops]⟩
        rw [stops]
        exact ⟨sharded, (List.append_nil _).symm, left⟩
      by_cases room : canPop origin.kvPool
          (taken + extraPages origin front cfg.kvPageSizeTokens) = true
      case neg =>
        rcases front_refused clock sharded frontSame left room with ⟨failure, effect, unchanged⟩
        have stops : st.promoteLoop clock (front :: rest) =
            (st.tryAllocPages clock front cfg.kvPageSizeTokens).1 := by
          unfold promoteLoop
          simp only [slot, failure, if_true, Bool.false_eq_true, if_false]
        have plan : admissions origin (front :: rest) taken st.running.length = ([], taken) := by
          unfold admissions
          simp only [room, Bool.false_eq_true, and_false, if_false]
        rw [plan]
        exact ⟨by rw [stops]; exact effect, by simp, fun _ _ => by rw [stops, unchanged]⟩
      rcases front_granted clock rest sharded frontSame left room with ⟨success, admitted⟩
      have later := ih _ (taken + extraPages origin front cfg.kvPageSizeTokens) distinct.2
        admitted.sharded (fun id member => by
          rw [admitted.others id fun here => distinct.1 (here ▸ member)]
          exact same id (by simp [member])) admitted.left
      rw [admitted.running, List.length_append, List.length_singleton] at later
      have continues : st.promoteLoop clock (front :: rest) = Scheduler.promoteLoop clock rest
          ((st.tryAllocPages clock front cfg.kvPageSizeTokens).1.moveFront front rest) := by
        rw [promoteLoop]
        simp only [slot, success, if_true]
      have plan : admissions origin (front :: rest) taken st.running.length =
          (front :: (admissions origin rest
            (taken + extraPages origin front cfg.kvPageSizeTokens) (st.running.length + 1)).1,
          (admissions origin rest
            (taken + extraPages origin front cfg.kvPageSizeTokens) (st.running.length + 1)).2) := by
        rw [admissions]
        simp only [slot, room, and_self, if_true]
      rw [plan]
      exact queue_admitted_cons distinct.1 admitted later continues

/-! ## The prefill loop -/

theorem prefill_plan_congr {seqs other : Int → Sequence cfg.pages} {held owned : Int → Nat}
    (refs : List Int) (budget : Int)
    (same : ∀ id ∈ refs, (∃ ids state, other id =
        { seqs id with kvPageIds := ids, state := state }) ∧ owned id = held id) :
    prefillPlan cfg other owned refs budget = prefillPlan cfg seqs held refs budget := by
  induction refs generalizing budget with
  | nil => rfl
  | cons id rest ih =>
      rcases same id (by simp) with ⟨⟨ids, state, seq⟩, pages⟩
      have tail := fun budget => ih budget fun id member => same id (by simp [member])
      have chunk : chunkOf cfg (other id) budget = chunkOf cfg (seqs id) budget := by
        rw [seq]
        rfl
      have missing : ∀ n, missingPages cfg (other id) (owned id) n =
          missingPages cfg (seqs id) (held id) n := by
        intro n
        rw [seq, pages]
        rfl
      unfold prefillPlan
      simp only [chunk, missing, tail]

def heldNow (st : Scheduler cfg) (id : Int) : Nat := (st.seqs id).kvPageIds.length

theorem prefill_plan_frame {before after : Scheduler cfg} (refs : List Int) (budget : Int)
    (same : ∀ id ∈ refs, after.seqs id = before.seqs id) :
    prefillPlan cfg after.seqs (heldNow after) refs budget =
      prefillPlan cfg before.seqs (heldNow before) refs budget := by
  apply prefill_plan_congr
  intro id member
  exact ⟨⟨_, _, same id member⟩, by rw [heldNow, heldNow, same id member]⟩

/-- What a loop that found room for all its allocations changed. -/
structure RoomEffect (refs : List Int) (before after : BatchLoop cfg) (later : Nat) : Prop where
  sharded : Sharded after.sched.kvPool
  room : (later : ℕ∞) ≤ available after.sched.kvPool
  states : ∀ id, ∃ ids, after.sched.seqs id = withPages (before.sched.seqs id) ids
  others : ∀ id, id ∉ refs → after.sched.seqs id = before.sched.seqs id
  decodeSeqs : after.decodeSeqs = before.decodeSeqs
  issued : after.batch.entries = [] →
    before.batch.entries = [] ∧ after.tokensBudget = before.tokensBudget

theorem room_effect_rest {id : Int} {rest : List Int} {before after : BatchLoop cfg} {later : Nat}
    (effect : RoomEffect [id] before after later) (fresh : id ∉ rest) :
    ∀ other ∈ rest, after.sched.seqs other = before.sched.seqs other := by
  intro other member
  apply effect.others
  rw [List.mem_singleton]
  exact fun same => fresh (same ▸ member)

theorem room_effect_trans {refs more : List Int} {first second third : BatchLoop cfg}
    {later last : Nat} (left : RoomEffect refs first second later)
    (right : RoomEffect more second third last) : RoomEffect (refs ++ more) first third last := by
  refine ⟨right.sharded, right.room, ?_, ?_, right.decodeSeqs.trans left.decodeSeqs, ?_⟩
  · intro id
    rcases left.states id with ⟨ids, firstSame⟩
    rcases right.states id with ⟨others, secondSame⟩
    refine ⟨others, ?_⟩
    rw [secondSame, firstSame]
    rfl
  · intro id absent
    rw [List.mem_append, not_or] at absent
    rw [right.others id absent.2, left.others id absent.1]
  · intro empty
    rcases right.issued empty with ⟨middle, budget⟩
    rcases left.issued middle with ⟨start, same⟩
    exact ⟨start, budget.trans same⟩

theorem try_alloc_room (clock : Clock) (loop : BatchLoop cfg) (id nNewTokens : Int) {later : Nat}
    (sharded : Sharded loop.sched.kvPool)
    (room : ((extraPages loop.sched id nNewTokens + later : Nat) : ℕ∞) ≤
      available loop.sched.kvPool) :
    (loop.tryAlloc clock id nNewTokens).2 = true ∧
      RoomEffect [id] loop (loop.tryAlloc clock id nNewTokens).1 later := by
  rcases try_alloc_pages_left clock loop.sched id nNewTokens sharded with
    ⟨kept, granted, _⟩
  rw [Nat.cast_add] at room
  rcases granted (le_self_add.trans room) with ⟨success, left, _⟩
  rcases try_alloc_seqs clock loop.sched id nNewTokens with ⟨ids, seqs⟩
  rw [← left, add_comm, ENat.add_le_add_iff_right (ENat.natCast_ne_top _)] at room
  refine ⟨success, kept, room, ?_, ?_, rfl, fun empty => ⟨empty, rfl⟩⟩
  · intro other
    change ∃ ids, (loop.sched.tryAllocPages clock id nNewTokens).1.seqs other = _
    rw [seqs]
    by_cases same : other = id
    · subst same
      exact ⟨ids, Function.update_self _ _ _⟩
    · exact ⟨(loop.sched.seqs other).kvPageIds, Function.update_of_ne same _ _⟩
  · intro other outside
    change (loop.sched.tryAllocPages clock id nNewTokens).1.seqs other = _
    rw [seqs, Function.update_of_ne (by simpa using outside)]

theorem room_for_later {first later : Nat} {pages : ℕ∞}
    (room : ((first + later : Nat) : ℕ∞) ≤ pages) :
    (later : ℕ∞) ≤ pages := by
  rw [Nat.cast_add] at room
  exact le_add_self.trans room

theorem room_effect_refl (refs : List Int) {loop : BatchLoop cfg} {later : Nat}
    (sharded : Sharded loop.sched.kvPool) (room : (later : ℕ∞) ≤ available loop.sched.kvPool) :
    RoomEffect refs loop loop later :=
  ⟨sharded, room, fun id => ⟨(loop.sched.seqs id).kvPageIds, rfl⟩, fun _ _ => rfl, rfl,
    fun empty => ⟨empty, rfl⟩⟩

theorem prefill_loop_room (clock : Clock) (refs : List Int) (loop : BatchLoop cfg) (later : Nat)
    (distinct : refs.Nodup) (sharded : Sharded loop.sched.kvPool)
    (room : (((prefillPlan cfg loop.sched.seqs (heldNow loop.sched) refs loop.tokensBudget).1 +
      later : Nat) : ℕ∞) ≤ available loop.sched.kvPool) :
    RoomEffect refs loop (loop.prefillLoop clock refs) later ∧
      (loop.prefillLoop clock refs).tokensBudget =
        (prefillPlan cfg loop.sched.seqs (heldNow loop.sched) refs loop.tokensBudget).2 := by
  induction refs generalizing loop with
  | nil => exact ⟨room_effect_refl [] sharded (room_for_later room), rfl⟩
  | cons id rest ih =>
      rw [List.nodup_cons] at distinct
      unfold BatchLoop.prefillLoop prefillPlan
      unfold prefillPlan at room
      by_cases exhausted : loop.tokensBudget ≤ 0
      · simp only [exhausted, if_true] at room ⊢
        exact ⟨room_effect_refl _ sharded (room_for_later room), trivial⟩
      · simp only [exhausted, if_false] at room ⊢
        generalize chunk_eq : chunkOf cfg (loop.sched.seqs id) loop.tokensBudget = chunk at room ⊢
        have planned_chunk : loop.chunkFor id = chunk := chunk_eq
        by_cases empty : chunk ≤ 0
        · have step : loop.prefillStep clock id = loop := by
            rw [← planned_chunk] at empty
            exact if_pos empty
          simp only [empty, if_true] at room ⊢
          rw [step]
          rcases ih loop distinct.2 sharded room with ⟨effect, budget⟩
          exact ⟨room_effect_trans
            (room_effect_refl [id] sharded (room_for_later room)) effect, budget⟩
        · simp only [empty, if_false] at room ⊢
          generalize plan_eq : prefillPlan cfg loop.sched.seqs (heldNow loop.sched) rest
            (loop.tokensBudget - chunk) = plan at room ⊢
          rw [Nat.add_assoc] at room
          rcases try_alloc_room clock loop id chunk sharded room with
            ⟨success, allocated⟩
          have step : loop.prefillStep clock id =
              (loop.tryAlloc clock id chunk).1.emitPrefill id chunk := by
            unfold BatchLoop.prefillStep
            simp only [planned_chunk, empty, if_false, success, if_true]
          rw [step]
          have emitted : RoomEffect [id] loop
              ((loop.tryAlloc clock id chunk).1.emitPrefill id chunk) (plan.1 + later) :=
            ⟨allocated.sharded, allocated.room, allocated.states, allocated.others,
              allocated.decodeSeqs, fun nothing => by simp [BatchLoop.emitPrefill] at nothing⟩
          have budget : ((loop.tryAlloc clock id chunk).1.emitPrefill id chunk).tokensBudget =
              loop.tokensBudget - chunk := rfl
          generalize (loop.tryAlloc clock id chunk).1.emitPrefill id chunk = next at emitted budget
          have samePlan : prefillPlan cfg next.sched.seqs (heldNow next.sched) rest
              next.tokensBudget = plan := by
            rw [← plan_eq, budget]
            exact prefill_plan_frame rest _ (room_effect_rest emitted distinct.1)
          have remaining := ih next distinct.2 emitted.sharded (by
            rw [samePlan]
            exact emitted.room)
          rw [samePlan] at remaining
          exact ⟨room_effect_trans emitted remaining.1, remaining.2⟩

/-! ## The decode loop -/

theorem decode_plan_congr {st other : Scheduler cfg} (refs : List Int) (budget : Int)
    (same : ∀ id ∈ refs, other.seqs id = st.seqs id) :
    decodePlan other refs budget = decodePlan st refs budget := by
  induction refs generalizing budget with
  | nil => rfl
  | cons id rest ih =>
      unfold decodePlan
      rw [ih _ fun id member => same id (by simp [member])]
      unfold extraPages
      rw [same id (by simp)]

theorem decode_loop_room (clock : Clock) (refs : List Int) (loop : BatchLoop cfg)
    (distinct : refs.Nodup) (sharded : Sharded loop.sched.kvPool)
    (room : ((decodePlan loop.sched refs loop.tokensBudget : Nat) : ℕ∞) ≤
      available loop.sched.kvPool) :
    RoomEffect refs loop (loop.decodeLoop clock refs) 0 ∧
      (0 < loop.tokensBudget → refs ≠ [] →
        (loop.decodeLoop clock refs).batch.entries ≠ []) := by
  induction refs generalizing loop with
  | nil => exact ⟨room_effect_refl [] sharded (by simp), fun _ absurd => (absurd rfl).elim⟩
  | cons id rest ih =>
      rw [List.nodup_cons] at distinct
      unfold BatchLoop.decodeLoop
      unfold decodePlan at room
      by_cases exhausted : loop.tokensBudget ≤ 0
      · simp only [exhausted, if_true]
        exact ⟨room_effect_refl _ sharded (by simp), fun positive => by omega⟩
      · simp only [exhausted, if_false] at room ⊢
        rcases try_alloc_room clock loop id 1 sharded room with ⟨success, allocated⟩
        have step : loop.decodeStep clock id = (loop.tryAlloc clock id 1).1.emitDecode id := by
          unfold BatchLoop.decodeStep
          simp only [success, if_true]
        rw [step]
        have emitted : RoomEffect [id] loop ((loop.tryAlloc clock id 1).1.emitDecode id)
            (decodePlan loop.sched rest (loop.tokensBudget - 1)) :=
          ⟨allocated.sharded, allocated.room, allocated.states, allocated.others,
            allocated.decodeSeqs, fun nothing => by simp [BatchLoop.emitDecode] at nothing⟩
        have budget : ((loop.tryAlloc clock id 1).1.emitDecode id).tokensBudget =
            loop.tokensBudget - 1 := rfl
        have nonempty : ((loop.tryAlloc clock id 1).1.emitDecode id).batch.entries ≠ [] := by
          simp [BatchLoop.emitDecode]
        generalize (loop.tryAlloc clock id 1).1.emitDecode id = next at emitted budget nonempty
        have samePlan : decodePlan next.sched rest next.tokensBudget =
            decodePlan loop.sched rest (loop.tokensBudget - 1) := by
          rw [budget]
          exact decode_plan_congr rest _ (room_effect_rest emitted distinct.1)
        have remaining := (ih next distinct.2 emitted.sharded (by
          rw [samePlan]
          exact emitted.room)).1
        refine ⟨room_effect_trans emitted remaining, fun _ _ nothing => ?_⟩
        exact nonempty (remaining.issued nothing).1

/-! ## The whole call -/

/-- The state in which the loops of `schedule` start is the planned one. -/
structure Promoted (st middle : Scheduler cfg) : Prop where
  sharded : Sharded middle.kvPool
  pages_left : available middle.kvPool + (plannedAdmissions st).2 = available st.kvPool
  distinct : middle.running.Nodup
  prefill : middle.running.filter (middle.inState .prefill) = prefillers st
  decode : middle.running.filter (middle.inState .decode) = decoders st
  seqs : ∀ id, ∃ ids state, middle.seqs id =
    { st.seqs id with kvPageIds := ids, state := state }
  old : ∀ id ∈ st.running, middle.seqs id = st.seqs id
  held : ∀ id ∈ prefillers st, heldThen st id = heldNow middle id

theorem promote_waiting_promoted (clock : Clock) (st : Scheduler cfg)
    (distinct : (st.waiting ++ st.running).Nodup) (sharded : Sharded st.kvPool) :
    Promoted st (st.promoteWaiting clock) := by
  have whole := List.nodup_append.mp distinct
  rcases promote_loop_effect clock st.waiting st rfl with ⟨admitted, promoted⟩
  rcases promote_loop_room clock st st.waiting st 0 whole.1 sharded (fun _ _ => rfl)
    (by simp) with ⟨room, lengths, _⟩
  have runningDistinct := promoted_running_nodup distinct promoted
  change PromoteEffect st.waiting st (st.promoteWaiting clock) admitted at promoted
  change Admitted st (st.promoteWaiting clock) st.running (plannedAdmissions st) at room
  change ∀ id ∈ (plannedAdmissions st).1,
    ((st.promoteWaiting clock).seqs id).kvPageIds.length = _ at lengths
  change (st.promoteWaiting clock).running.Nodup at runningDistinct
  generalize st.promoteWaiting clock = middle at promoted room lengths runningDistinct ⊢
  have samePlan : admitted = (plannedAdmissions st).1 := by
    have running := promoted.running
    rw [room.running] at running
    exact (List.append_cancel_left running).symm
  have new : ∀ id ∈ st.running, id ∉ admitted := by
    intro id running inside
    apply whole.2.2 id _ id running rfl
    rw [promoted.taken]
    exact List.mem_append_left _ inside
  have old : ∀ id ∈ st.running, middle.seqs id = st.seqs id :=
    fun id running => promoted.other_seq id (new id running)
  have states : ∀ state, st.running.filter (middle.inState state) =
      st.running.filter (st.inState state) := by
    intro state
    apply List.filter_congr
    intro id running
    unfold inState
    rw [old id running]
  have admittedState : ∀ id ∈ admitted, (middle.seqs id).state = .prefill := by
    intro id member
    rcases promoted.admitted_seq id member with ⟨ids, same⟩
    rw [same]
    rfl
  refine ⟨room.sharded, room.pages_left, runningDistinct, ?_, ?_, ?_, old, ?_⟩
  · rw [promoted.running, List.filter_append, states, prefillers, ← samePlan]
    congr 1
    apply List.filter_eq_self.mpr
    intro id member
    simp [inState, admittedState id member]
  · rw [promoted.running, List.filter_append, states, decoders]
    apply List.append_right_eq_self.mpr
    apply List.filter_eq_nil_iff.mpr
    intro id member
    simp [inState, admittedState id member]
  · intro id
    by_cases inside : id ∈ admitted
    · rcases promoted.admitted_seq id inside with ⟨ids, same⟩
      exact ⟨ids, .prefill, same⟩
    · exact ⟨_, _, promoted.other_seq id inside⟩
  · intro id member
    rcases List.mem_append.mp member with prefilling | admitting
    · have running := List.mem_of_mem_filter prefilling
      have absent : id ∉ (plannedAdmissions st).1 := samePlan ▸ new id running
      rw [heldThen, if_neg absent, heldNow, old id running, Nat.add_zero]
    · rw [heldThen, if_pos admitting, heldNow, lengths id admitting]

/-- The loops of `schedule` start here, with the plan made before the call. -/
structure PlannedStart (st : Scheduler cfg) (start : BatchLoop cfg) : Prop where
  sharded : Sharded start.sched.kvPool
  pages_left : available start.sched.kvPool + (plannedAdmissions st).2 = available st.kvPool
  decodeSeqs : start.decodeSeqs = decoders st
  tokensBudget : start.tokensBudget = cfg.maxBatchTokens
  entries : start.batch.entries = []
  prefill_nodup : (prefillers st).Nodup
  decode_nodup : (decoders st).Nodup
  apart : ∀ id ∈ prefillers st, id ∉ decoders st
  old : ∀ id ∈ st.running, start.sched.seqs id = st.seqs id
  plan : prefillPlan cfg start.sched.seqs (heldNow start.sched) (prefillers st)
    cfg.maxBatchTokens = prefillPlan cfg st.seqs (heldThen st) (prefillers st) cfg.maxBatchTokens
  chunk : ∀ id, start.chunkFor id = chunkOf cfg (st.seqs id) cfg.maxBatchTokens
  extra : ∀ id ∈ prefillers st, ∀ count, extraPages start.sched id count =
    missingPages cfg (st.seqs id) (heldThen st id) count

theorem schedule_planned_start (clock : Clock) (st : Scheduler cfg)
    (distinct : (st.waiting ++ st.running).Nodup) (sharded : Sharded st.kvPool) :
    ∃ start, PlannedStart st start ∧ st.schedule clock =
      (((start.prefillLoop clock (prefillers st)).decodeLoop clock
          (start.prefillLoop clock (prefillers st)).decodeSeqs).sched,
        ((start.prefillLoop clock (prefillers st)).decodeLoop clock
          (start.prefillLoop clock (prefillers st)).decodeSeqs).batch) := by
  have promoted := promote_waiting_promoted clock st distinct sharded
  generalize promote_eq : st.promoteWaiting clock = middle at promoted
  refine ⟨middle.startBatch, ⟨promoted.sharded, promoted.pages_left, promoted.decode, rfl, rfl,
    ?_, ?_, ?_, promoted.old, ?_, ?_, ?_⟩, ?_⟩
  · rw [← promoted.prefill]
    exact promoted.distinct.filter _
  · rw [← promoted.decode]
    exact promoted.distinct.filter _
  · intro id prefilling decoding
    rw [← promoted.decode, mem_in_state_iff] at decoding
    rw [← promoted.prefill, mem_in_state_iff, decoding.2] at prefilling
    cases prefilling.2
  · apply prefill_plan_congr
    intro id member
    exact ⟨promoted.seqs id, (promoted.held id member).symm⟩
  · intro id
    rcases promoted.seqs id with ⟨ids, state, same⟩
    change chunkOf cfg (middle.seqs id) cfg.maxBatchTokens = _
    rw [same]
    rfl
  · intro id member count
    rcases promoted.seqs id with ⟨ids, state, same⟩
    change missingPages cfg (middle.seqs id) (heldNow middle id) count = _
    rw [promoted.held id member, same]
    rfl
  · rw [← promoted.prefill, ← promote_eq]
    rfl

/-- With room for the whole demand no sequence leaves its state, and a decoding
sequence makes the batch nonempty. -/
theorem schedule_room (clock : Clock) (st : Scheduler cfg)
    (distinct : (st.waiting ++ st.running).Nodup) (sharded : Sharded st.kvPool)
    (room : canPop st.kvPool (plannedDemand st) = true) :
    (∀ id ∈ st.running, ((st.schedule clock).1.seqs id).state = (st.seqs id).state) ∧
      (0 < cfg.maxBatchTokens → decoders st ≠ [] → (st.schedule clock).2.entries ≠ []) := by
  rcases schedule_planned_start clock st distinct sharded with ⟨start, planned, result⟩
  rw [result]
  have demand := (room_left planned.pages_left _).mp ((can_pop_iff _ _).mp room)
  have prefilled := prefill_loop_room clock (prefillers st) start _ planned.prefill_nodup
    planned.sharded (by
      rw [planned.tokensBudget, planned.plan]
      exact demand)
  rw [planned.tokensBudget, planned.plan] at prefilled
  generalize start.prefillLoop clock (prefillers st) = next at prefilled ⊢
  rcases prefilled with ⟨first, budget⟩
  have decodeSame : ∀ id ∈ decoders st, next.sched.seqs id = st.seqs id := by
    intro id member
    rw [first.others id fun inside => planned.apart id inside member,
      planned.old id (List.mem_of_mem_filter member)]
  have nextDecode : next.decodeSeqs = decoders st := first.decodeSeqs.trans planned.decodeSeqs
  rw [nextDecode]
  have decoded := decode_loop_room clock (decoders st) next planned.decode_nodup
    first.sharded (by
      rw [budget, decode_plan_congr _ _ decodeSame]
      exact first.room)
  generalize next.decodeLoop clock (decoders st) = last at decoded ⊢
  rcases decoded with ⟨second, issued⟩
  constructor
  · intro id running
    rcases second.states id with ⟨more, later⟩
    rcases first.states id with ⟨ids, early⟩
    change (last.sched.seqs id).state = _
    rw [later, early, planned.old id running]
    rfl
  · intro positive decoding nothing
    rcases first.issued (second.issued nothing).1 with ⟨_, same⟩
    rw [planned.tokensBudget] at same
    exact issued (by omega) decoding nothing

/-- A refused allocation was short of pages and changes neither the sequences nor
the number of pages on the stacks. -/
structure Refused (id nNewTokens : Int) (before after : BatchLoop cfg) : Prop where
  short : available before.sched.kvPool < ((extraPages before.sched id nNewTokens : Nat) : ℕ∞)
  sharded : Sharded after.sched.kvPool
  seqs : after.sched.seqs = before.sched.seqs
  pages : available after.sched.kvPool = available before.sched.kvPool
  tokensBudget : after.tokensBudget = before.tokensBudget
  decodeSeqs : after.decodeSeqs = before.decodeSeqs
  batch : after.batch = before.batch

theorem try_alloc_refused {loop : BatchLoop cfg} {id nNewTokens : Int}
    (sharded : Sharded loop.sched.kvPool)
    (failed : (loop.tryAlloc clock id nNewTokens).2 = false) :
    Refused id nNewTokens loop (loop.tryAlloc clock id nNewTokens).1 := by
  rcases try_alloc_pages_left clock loop.sched id nNewTokens sharded with
    ⟨kept, granted, refused⟩
  have short : available loop.sched.kvPool <
      ((extraPages loop.sched id nNewTokens : Nat) : ℕ∞) := by
    by_contra enough
    have success := (granted (not_lt.mp enough)).1
    change (loop.sched.tryAllocPages clock id nNewTokens).2 = false at failed
    rw [success] at failed
    cases failed
  exact ⟨short, kept, try_alloc_failed_seqs loop.sched id nNewTokens failed, (refused short).2,
    rfl, rfl, rfl⟩

theorem refused_chunk {id nNewTokens : Int} {before after : BatchLoop cfg}
    (refused : Refused id nNewTokens before after) (other : Int) :
    after.chunkFor other = before.chunkFor other := by
  unfold BatchLoop.chunkFor
  rw [refused.seqs, refused.tokensBudget]

theorem refused_extra {id nNewTokens : Int} {before after : BatchLoop cfg}
    (refused : Refused id nNewTokens before after) (other count : Int) :
    extraPages after.sched other count = extraPages before.sched other count := by
  unfold extraPages
  rw [refused.seqs]

/-- With no decode sequence to preempt, a chunk that fits at the start of the
loop is issued unless an earlier one was. -/
theorem prefill_loop_first (clock : Clock) (refs : List Int) (loop : BatchLoop cfg)
    (sharded : Sharded loop.sched.kvPool) (idle : loop.decodeSeqs = []) {id : Int}
    (member : id ∈ refs) (positive : 0 < loop.chunkFor id)
    (room : ((extraPages loop.sched id (loop.chunkFor id) : Nat) : ℕ∞) ≤
      available loop.sched.kvPool) :
    (loop.prefillLoop clock refs).batch.entries ≠ [] := by
  have issues : ∀ (rest : List Int) (emitted : BatchLoop cfg), emitted.decodeSeqs = [] →
      emitted.batch.entries ≠ [] → (emitted.prefillLoop clock rest).batch.entries ≠ [] := by
    intro rest emitted none nonempty
    rcases prefill_loop_effect clock rest emitted (by simp [none]) (by simp [none])
      with ⟨popped, issued, effect⟩
    rw [effect.entries]
    exact List.append_ne_nil_of_left_ne_nil nonempty _
  induction refs generalizing loop with
  | nil => cases member
  | cons other rest ih =>
      have budget : ¬loop.tokensBudget ≤ 0 := by
        have bound : loop.chunkFor id ≤ loop.tokensBudget := min_le_right _ _
        omega
      unfold BatchLoop.prefillLoop
      rw [if_neg budget]
      rcases prefill_step_cases clock loop other with
        ⟨none, result⟩ | ⟨_, _, result⟩ | ⟨_, failed, _, result⟩ |
          ⟨_, _, before, last, _, split, _, _⟩
      · rw [result]
        rcases List.mem_cons.mp member with rfl | later
        · omega
        · exact ih loop sharded idle later positive room
      · rw [result]
        exact issues rest _ idle (by simp [BatchLoop.emitPrefill])
      · have refused := try_alloc_refused sharded failed
        rw [result]
        rcases List.mem_cons.mp member with rfl | later
        · exact absurd room (not_le.mpr refused.short)
        · apply ih _ refused.sharded (refused.decodeSeqs.trans idle) later
          · rw [refused_chunk refused]
            exact positive
          · rw [refused_chunk refused, refused_extra refused, refused.pages]
            exact room
      · rw [idle] at split
        simp at split

theorem schedule_first_chunk (clock : Clock) (st : Scheduler cfg)
    (distinct : (st.waiting ++ st.running).Nodup) (sharded : Sharded st.kvPool)
    (idle : decoders st = []) (fits : FirstChunkFits st) :
    (st.schedule clock).2.entries ≠ [] := by
  rcases schedule_planned_start clock st distinct sharded with ⟨start, planned, result⟩
  rw [result]
  have start_decode : start.decodeSeqs = [] := planned.decodeSeqs.trans idle
  rcases fits with ⟨id, member, positive, room⟩
  have issued := prefill_loop_first clock (prefillers st) start planned.sharded start_decode member
    (planned.chunk id ▸ positive) (by
      rw [planned.extra id member, planned.chunk id]
      exact (room_left planned.pages_left _).mp ((can_pop_iff _ _).mp room))
  rcases prefill_loop_effect clock (prefillers st) start (by simp [start_decode])
    (by simp [start_decode]) with ⟨popped, entries, effect⟩
  have left := effect.decodeSeqs
  rw [start_decode] at left
  rw [(List.append_eq_nil_iff.mp left.symm).1]
  exact issued

end AmpFormal.PageDemand
