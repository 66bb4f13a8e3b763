import AmpFormal.ResourceLedger
import AmpFormal.SchedulerQueues

/-!
# Who holds which KV page

The sequences in the queues are the owners of a ledger of pages, the free stacks
of the pool are its free side. Every operation follows the ledger's rules but
one: `leak_scan` frees any page whose timestamp is old, held or not, and only
decode entries refresh timestamps.
-/

namespace AmpFormal.SchedulerPages

open AmpFormal.PagePoolFastModel AmpFormal.PagePoolFastModel.PagePoolFast
open AmpFormal.PagePoolFastSequential AmpFormal.ResourceLedger
open AmpFormal.SchedulerModel AmpFormal.SchedulerModel.Scheduler
open AmpFormal.ScheduleEffects AmpFormal.ScheduleTrace AmpFormal.StepCompleteEffects
open AmpFormal.TransitionRuns AmpFormal.SchedulerRuns

set_option autoImplicit false

variable {cfg : SchedulerConfig} {clock : Clock}

/-! ## The ledger of a scheduler -/

def queued (st : Scheduler cfg) (id : Int) : Prop :=
  id ∈ st.waiting ++ st.running ++ st.swapped

def pagesOf (st : Scheduler cfg) (id : Int) : List (Fin cfg.pages) := (st.seqs id).kvPageIds

abbrev PagesLedger (st : Scheduler cfg) : Prop :=
  Ledger (queued st) (pagesOf st) st.kvPool.OnFreeStack

structure PagesOwned (st : Scheduler cfg) : Prop where
  formed : WellFormed st.kvPool
  ledger : PagesLedger st

theorem pages_owned_create : PagesOwned (Scheduler.create cfg) :=
  ⟨create_well_formed.1, ledger_empty fun _ _ => rfl⟩

theorem pages_owned_frame {before after : Scheduler cfg} (owned : PagesOwned before)
    (pool : after.kvPool = before.kvPool)
    (fewer : ∀ id, queued after id →
      (queued before id ∧ (pagesOf after id).Sublist (pagesOf before id)) ∨ pagesOf after id = []) :
    PagesOwned after := by
  refine ⟨pool ▸ owned.formed, ?_⟩
  apply ledger_shrink owned.ledger fewer
  intro page idle
  left
  rw [← pool]
  exact idle

theorem set_seq_pages (st : Scheduler cfg) (id : Int) (s : Sequence cfg.pages) :
    pagesOf (st.setSeq id s) = Function.update (pagesOf st) id s.kvPageIds := by
  funext other
  unfold pagesOf setSeq
  by_cases same : other = id
  · simp [same]
  · simp [Function.update_of_ne same]

theorem set_seq_same_pages (st : Scheduler cfg) (id : Int) (s : Sequence cfg.pages)
    (same : s.kvPageIds = pagesOf st id) : pagesOf (st.setSeq id s) = pagesOf st := by
  rw [set_seq_pages, same, Function.update_eq_self]

theorem preempt_pages (st : Scheduler cfg) (id : Int) :
    pagesOf (st.preemptSequence id) = pagesOf (st.freePages id) :=
  set_seq_same_pages (st.freePages id) id _ rfl

theorem move_front_pages (st : Scheduler cfg) (front : Int) (rest : List Int) :
    pagesOf (st.moveFront front rest) = pagesOf st :=
  set_seq_same_pages st front _ rfl

theorem free_pages_pages (st : Scheduler cfg) (id : Int) :
    pagesOf (st.freePages id) = Function.update (pagesOf st) id [] := by
  funext other
  unfold pagesOf
  rw [free_pages_seqs]
  by_cases same : other = id
  · subst same
    rw [Function.update_self, Function.update_self]
    rfl
  · rw [Function.update_of_ne same, Function.update_of_ne same]

theorem abort_pages {st : Scheduler cfg} {seqId : Int}
    (seqs : (st.abortRequest seqId).seqs = (st.abortSequence seqId).seqs) :
    pagesOf (st.abortRequest seqId) = Function.update (pagesOf st) seqId [] := by
  have same : pagesOf (st.abortRequest seqId) = pagesOf (st.freePages seqId) := by
    unfold pagesOf
    rw [seqs]
    exact set_seq_same_pages (st.freePages seqId) seqId _ rfl
  rw [same, free_pages_pages]

theorem free_pages_owned {st : Scheduler cfg} (owned : PagesOwned st) {id : Int}
    (member : queued st id) : PagesOwned (st.freePages id) := by
  have queues := free_pages_same_queues st id
  have sameQueued : ∀ other, queued (st.freePages id) other ↔ queued st other := by
    intro other
    unfold queued
    rw [queues.waiting, queues.running, queues.swapped]
  have released := free_pages_well_formed owned.formed (owned.ledger.nodup id member)
    (owned.ledger.apart id member)
  have pool : (st.freePages id).kvPool = st.kvPool.freePages (pagesOf st id) ∨
      ((st.freePages id).kvPool = st.kvPool ∧ pagesOf st id = []) := by
    unfold Scheduler.freePages
    split
    case isTrue empty => exact Or.inr ⟨rfl, empty⟩
    case isFalse => exact Or.inl rfl
  have formed : WellFormed (st.freePages id).kvPool := by
    rcases pool with freed | ⟨same, _⟩
    · rw [freed]
      exact released.1
    · rw [same]
      exact owned.formed
  refine ⟨formed, ?_⟩
  apply ledger_shrink owned.ledger
  · intro other member
    left
    refine ⟨(sameQueued other).mp member, ?_⟩
    rw [free_pages_pages]
    by_cases same : other = id
    · rw [same, Function.update_self]
      exact List.nil_sublist _
    · rw [Function.update_of_ne same]
  · intro page idle
    by_cases given : page ∈ pagesOf st id
    · right
      intro other otherQueued inside
      rw [free_pages_pages] at inside
      by_cases same : other = id
      · rw [same, Function.update_self] at inside
        cases inside
      · rw [Function.update_of_ne same] at inside
        exact owned.ledger.disjoint other id ((sameQueued other).mp otherQueued) member same inside
          given
    · left
      rcases pool with freed | ⟨same, _⟩
      · rw [freed, released.2 page] at idle
        exact idle.resolve_right given
      · rwa [same] at idle

theorem try_alloc_owned {st : Scheduler cfg} (owned : PagesOwned st) (id nNewTokens : Int) :
    PagesOwned (st.tryAllocPages clock id nNewTokens).1 := by
  have granted := alloc_granted owned.formed (extraPages st id nNewTokens) id (clock st.ticks)
  rcases try_alloc_cases clock st id nNewTokens with
    ⟨_, result⟩ | ⟨_, _, result⟩ | ⟨_, _, result⟩
  · rw [result]
    exact owned
  · rw [result]
    refine ⟨granted.formed, ?_⟩
    apply ledger_shrink owned.ledger
    · intro other member
      exact Or.inl ⟨member, List.Sublist.refl _⟩
    · intro page idle
      exact Or.inl ((granted.taken page).mpr (Or.inl idle))
  · rw [result]
    refine ⟨granted.formed, ?_⟩
    have pages : pagesOf ((afterPool clock st id nNewTokens).setSeq id (withPages (st.seqs id)
        ((st.seqs id).kvPageIds ++ (poolAnswer clock st id nNewTokens).2))) =
        Function.update (pagesOf st) id
          (pagesOf st id ++ (poolAnswer clock st id nNewTokens).2) := set_seq_pages _ _ _
    unfold PagesLedger
    rw [pages]
    apply ledger_grant owned.ledger id granted.distinct
    · intro page given
      exact (granted.taken page).mpr (Or.inr given)
    · intro page idle
      exact ⟨(granted.taken page).mpr (Or.inl idle), fun given => granted.apart page given idle⟩

theorem micro_owned {before after : Scheduler cfg} (micro : Micro clock before after)
    (owned : PagesOwned before) : PagesOwned after := by
  cases micro with
  | alloc id nNewTokens inQueues => exact try_alloc_owned owned id nNewTokens
  | preempt id running =>
      have member : queued before id := by
        unfold queued
        simp [running]
      apply pages_owned_frame (free_pages_owned owned member)
      · rfl
      · intro other inQueues
        left
        rw [preempt_pages]
        exact ⟨inQueues, List.Sublist.refl _⟩
  | promote front rest head =>
      apply pages_owned_frame owned
      · rfl
      · intro other inQueues
        left
        constructor
        · unfold queued moveFront setSeq at inQueues
          unfold queued
          simp only [List.mem_append, List.mem_singleton] at inQueues ⊢
          rw [head, List.mem_cons]
          tauto
        · rw [move_front_pages]

/-! ## The pages during `step_complete` -/

def expired (ttlMs : Int) (now stamp : UInt64) : Bool :=
  stamp != 0 && now - stamp > UInt64.ofInt ttlMs * 1000

theorem is_stale_eq {pages shards : Nat} (pool : PagePoolFast pages shards) (ttlMs : Int)
    (now : UInt64) (page : Fin pages) :
    pool.isStale ttlMs now page = expired ttlMs now (pool.touchUs page) := rfl

/-- The timestamp that a page of sequence `id`, stamped `stamp` before the call,
carries when `leak_scan` runs. -/
def stampAtScan (clock : Clock) (id : Int) : List BatchEntry → Nat → UInt64 → UInt64
  | [], _, stamp => stamp
  | e :: rest, tick, stamp =>
      if e.isPrefill then stampAtScan clock id rest tick stamp
      else stampAtScan clock id rest (tick + 1) (if e.seq = id then clock tick else stamp)

theorem touch_entries_formed (clock : Clock) (seqs : Int → Sequence cfg.pages)
    (entries : List BatchEntry) (tick : Nat) {pool : PagePoolFast cfg.pages 16} (formed : WellFormed pool)
    (held : ∀ e ∈ entries, ∀ page ∈ (seqs e.seq).kvPageIds, ¬pool.OnFreeStack page) :
    WellFormed (touchEntries clock seqs entries tick pool) ∧
      (touchEntries clock seqs entries tick pool).OnFreeStack = pool.OnFreeStack := by
  induction entries generalizing tick pool with
  | nil => exact ⟨formed, rfl⟩
  | cons e rest ih =>
      unfold touchEntries
      split
      · exact ih tick formed fun other member => held other (by simp [member])
      · exact ih (tick + 1) (touch_well_formed formed (held e (by simp)) _)
          fun other member => held other (by simp [member])

theorem touch_entries_stamp (st : Scheduler cfg) (ledger : PagesLedger st)
    (entries : List BatchEntry) (owners : ∀ e ∈ entries, queued st e.seq) (tick : Nat)
    (pool : PagePoolFast cfg.pages 16) {id : Int} (member : queued st id) {page : Fin cfg.pages}
    (inside : page ∈ pagesOf st id) :
    (touchEntries clock st.seqs entries tick pool).touchUs page =
      stampAtScan clock id entries tick (pool.touchUs page) := by
  induction entries generalizing tick pool with
  | nil => rfl
  | cons e rest ih =>
      have later := ih fun other inRest => owners other (by simp [inRest])
      unfold touchEntries stampAtScan
      split
      · exact later tick pool
      · rw [later]
        congr 1
        rw [touch_stamps]
        by_cases same : e.seq = id
        · rw [if_pos same, if_pos]
          rw [same]
          exact inside
        · rw [if_neg same, if_neg]
          intro shared
          exact ledger.disjoint e.seq id (owners e (by simp)) member same shared inside

theorem step_pages {before after : Scheduler cfg} {batch : ScheduledBatch}
    {newTokens : List Int} {callbacks : List (Int × List Int)}
    (effect : StepEffect before batch newTokens after callbacks) :
    pagesOf after = pagesOf before := by
  funext id
  unfold pagesOf
  rcases step_seq_cases effect id with
    ⟨tok, _, _, same⟩ | ⟨_, _, e, _, _, _, same⟩ | ⟨_, _, same⟩
  · rw [same, (decoded_form_fields _ tok).2.2.1]
  · rw [same, (advance_prefill_fields _ e.nTokens).2.2]
  · rw [same]

theorem step_queued {before after : Scheduler cfg} {batch : ScheduledBatch}
    {newTokens : List Int} {callbacks : List (Int × List Int)}
    (effect : StepEffect before batch newTokens after callbacks) {id : Int}
    (member : queued after id) : queued before id := by
  unfold queued at member ⊢
  rw [effect.waiting, effect.running, effect.swapped] at member
  exact (((List.Sublist.refl _).append List.filter_sublist).append (List.Sublist.refl _)).subset
    member

theorem step_owner_queued {before after : Scheduler cfg} {batch : ScheduledBatch}
    {newTokens : List Int} {callbacks : List (Int × List Int)}
    (effect : StepEffect before batch newTokens after callbacks) :
    ∀ e ∈ batch.entries, queued before e.seq := by
  intro e member
  unfold queued
  simp [effect.owned e member]

/-- `step_complete` keeps the ledger when `leak_scan` finds no stale page of a
sequence that stays. -/
theorem step_complete_owned {st after : Scheduler cfg} {batch : ScheduledBatch}
    {newTokens : List Int} {callbacks : List (Int × List Int)} (owned : PagesOwned st)
    (distinct : (batch.entries.map BatchEntry.seq).Nodup)
    (stepped : st.stepComplete clock batch newTokens = some (after, callbacks))
    (fresh : ∀ id, queued after id → ∀ page ∈ pagesOf st id,
      (touchEntries clock st.seqs batch.entries st.ticks st.kvPool).isStale 30000
        (clock (st.ticks + decodeCount batch.entries)) page = false) :
    PagesOwned after := by
  have effect := step_complete_effect distinct stepped
  have pages := step_pages effect
  have touched := touch_entries_formed clock st.seqs batch.entries st.ticks owned.formed
    (fun e member page inside =>
      owned.ledger.apart e.seq (step_owner_queued effect e member) page inside)
  have scanned := leak_scan_well_formed touched.1 30000
    (clock (st.ticks + decodeCount batch.entries))
  rw [← (step_complete_pool distinct stepped).1, touched.2] at scanned
  refine ⟨scanned.1, ?_⟩
  apply ledger_shrink owned.ledger
  · intro id member
    left
    rw [pages]
    exact ⟨step_queued effect member, List.Sublist.refl _⟩
  · intro page idle
    rcases (scanned.2 page).mp idle with before | stale
    · exact Or.inl before
    · right
      intro id member inside
      rw [pages] at inside
      rw [fresh id member page inside] at stale
      cases stale

/-! ## Runs -/

def Finishing (st : Scheduler cfg) (batch : ScheduledBatch) (newTokens : List Int) (id : Int) :
    Prop :=
  ∃ assigned ∈ assignedTokens batch newTokens, assigned.1 = id ∧
    ((st.seqs id).appendToken assigned.2).finishes assigned.2 = true

/-- At the `leak_scan` of a `step_complete` no page of a sequence that stays in
the queues is older than 30 seconds, decode entries counting as refreshed. -/
def PagesStayFresh (clock : Clock) (d : Driver cfg) : Call → Prop
  | .stepComplete newTokens => ∀ batch ∈ d.pending,
      ∀ id ∈ d.sched.waiting ++ d.sched.running ++ d.sched.swapped,
        ¬Finishing d.sched batch newTokens id → ∀ page ∈ pagesOf d.sched id,
          expired 30000 (clock (d.sched.ticks + decodeCount batch.entries))
            (stampAtScan clock id batch.entries d.sched.ticks (d.sched.kvPool.touchUs page)) = false
  | _ => True

theorem finishing_leaves {d : Driver cfg} (consistent : Consistent d) {after : Scheduler cfg}
    {batch : ScheduledBatch} {newTokens : List Int} {callbacks : List (Int × List Int)}
    (effect : StepEffect d.sched batch newTokens after callbacks) {id : Int}
    (finishing : Finishing d.sched batch newTokens id) : ¬queued after id := by
  intro member
  rcases finishing with ⟨⟨owner, tok⟩, assigned, rfl, finished⟩
  rcases assigned_seq_mem assigned with ⟨e, inBatch, _, same⟩
  have running : owner ∈ d.sched.running := by
    have owned := effect.owned e inBatch
    rw [same] at owned
    exact owned
  have done : (after.seqs owner).isDone = true := by
    rw [effect.decode_seq _ assigned, decoded_form_finished finished]
    rfl
  unfold queued at member
  rw [effect.waiting, effect.running, effect.swapped, consistent.unswapped, List.append_nil]
    at member
  rcases List.mem_append.mp member with waiting | kept
  · exact (List.nodup_append.mp consistent.distinct).2.2 owner waiting owner running rfl
  · have alive := (List.mem_filter.mp kept).2
    rw [done] at alive
    cases alive

theorem unfinished_stays {d : Driver cfg} (consistent : Consistent d) {after : Scheduler cfg}
    {batch : ScheduledBatch} {newTokens : List Int} {callbacks : List (Int × List Int)}
    (effect : StepEffect d.sched batch newTokens after callbacks) {id : Int}
    (member : queued d.sched id) (unfinished : ¬Finishing d.sched batch newTokens id) :
    queued after id := by
  unfold queued at member ⊢
  rw [consistent.unswapped, List.append_nil] at member
  have active := consistent.active id member
  rw [effect.waiting, effect.running, effect.swapped, consistent.unswapped, List.append_nil]
  rcases List.mem_append.mp member with waiting | inRunning
  · exact List.mem_append_left _ waiting
  · apply List.mem_append_right
    apply List.mem_filter.mpr
    refine ⟨inRunning, ?_⟩
    rcases step_seq_cases effect id with
      ⟨tok, assigned, _, same⟩ | ⟨_, _, e, _, _, _, same⟩ | ⟨_, _, same⟩
    · rw [same, decoded_form_done _ tok active]
      cases finished : ((d.sched.seqs id).appendToken tok).finishes tok with
      | true => exact absurd ⟨_, assigned, rfl, finished⟩ unfinished
      | false => rfl
    · rw [same, advance_prefill_done _ _ active]
      rfl
    · rw [same, active]
      rfl

theorem pages_owned_step {d after : Driver cfg} (consistent : Consistent d)
    (owned : PagesOwned d.sched) {call : Call} (moved : d.step clock call = some after)
    (fresh : ∀ newTokens batch, call = .stepComplete newTokens → d.pending = some batch →
      ∀ id, queued after.sched id → ∀ page ∈ pagesOf d.sched id,
        (touchEntries clock d.sched.seqs batch.entries d.sched.ticks d.sched.kvPool).isStale 30000
          (clock (d.sched.ticks + decodeCount batch.entries)) page = false) :
    PagesOwned after.sched := by
  cases call with
  | addRequest promptTokens maxNewTokens eosTokenId =>
      rcases step_add_request moved with ⟨added, event, effect⟩
      apply pages_owned_frame owned effect.kvPool
      intro id member
      unfold queued at member
      rw [effect.swapped, consistent.unswapped, List.append_nil] at member
      rcases add_effect_queued effect member with old | ⟨new, _, sequence⟩
      · left
        unfold pagesOf
        rw [add_effect_old_seq consistent effect old]
        exact ⟨List.mem_append_left _ old, List.Sublist.refl _⟩
      · right
        unfold pagesOf
        rw [new, sequence]
  | abortRequest seqId =>
      rcases step_abort_request consistent.unswapped moved with ⟨sched, _, _⟩
      rcases abort_request_effect d.sched seqId consistent.unswapped consistent.distinct with
        ⟨effect, ⟨_, same⟩ | ⟨found, pool, _, seqs⟩⟩
      · rw [sched, same]
        exact owned
      · have member : queued d.sched seqId := List.mem_append_left _ found
        rw [sched]
        have pages : pagesOf (d.sched.abortRequest seqId) = pagesOf (d.sched.freePages seqId) := by
          rw [abort_pages seqs, free_pages_pages]
        have queues := free_pages_same_queues d.sched seqId
        apply pages_owned_frame (free_pages_owned owned member) pool
        intro id later
        left
        rw [pages]
        refine ⟨?_, List.Sublist.refl _⟩
        unfold queued at later ⊢
        rw [queues.waiting, queues.running, queues.swapped, consistent.unswapped, List.append_nil]
        rw [effect.swapped, consistent.unswapped, List.append_nil] at later
        exact abort_effect_queued effect later
  | schedule =>
      rcases step_schedule moved with ⟨_, rfl⟩
      exact trace_invariant (fun _ _ micro => micro_owned micro)
        (schedule_trace d.sched consistent.distinct) owned
  | stepComplete newTokens =>
      rcases step_step_complete moved with ⟨batch, ⟨sched, callbacks⟩, pending, stepped, rfl⟩
      exact step_complete_owned owned (consistent.pending batch pending).distinct stepped
        (fresh newTokens batch rfl pending)

/-- With fresh pages the scan finds nothing stale among the sequences that
stay. -/
theorem fresh_pages_not_stale {d after : Driver cfg} (consistent : Consistent d)
    (owned : PagesOwned d.sched) {newTokens : List Int} {batch : ScheduledBatch}
    (pending : d.pending = some batch)
    (moved : d.step clock (.stepComplete newTokens) = some after)
    (fresh : PagesStayFresh clock d (.stepComplete newTokens)) {id : Int}
    (member : queued after.sched id) {page : Fin cfg.pages} (inside : page ∈ pagesOf d.sched id) :
    (touchEntries clock d.sched.seqs batch.entries d.sched.ticks d.sched.kvPool).isStale 30000
      (clock (d.sched.ticks + decodeCount batch.entries)) page = false := by
  rcases step_step_complete moved with ⟨other, ⟨sched, callbacks⟩, samePending, stepped, rfl⟩
  rw [pending] at samePending
  cases samePending
  have effect := step_complete_effect (consistent.pending batch pending).distinct stepped
  have before := step_queued effect member
  rw [is_stale_eq, touch_entries_stamp d.sched owned.ledger batch.entries
    (step_owner_queued effect) _ _ before inside]
  exact fresh batch pending id before
    (fun finishing => finishing_leaves consistent effect finishing member) page inside

theorem pages_owned_fresh {d after : Driver cfg} (consistent : Consistent d)
    (owned : PagesOwned d.sched) {call : Call} (moved : d.step clock call = some after)
    (fresh : PagesStayFresh clock d call) : PagesOwned after.sched := by
  apply pages_owned_step consistent owned moved
  intro newTokens batch same pending id member page inside
  subst same
  exact fresh_pages_not_stale consistent owned pending moved fresh member inside

theorem pages_owned_reached {allowed : Driver cfg → Call → Prop}
    (fresh : ∀ d call, allowed d call → PagesStayFresh clock d call) {d : Driver cfg}
    (reached : Driver.Reached clock allowed d) : PagesOwned d.sched := by
  apply reaches_invariant (motive := fun d : Driver cfg => PagesOwned d.sched) pages_owned_create
    _ reached
  intro before call after prior owned meets moved
  exact pages_owned_fresh (consistent_reached prior) owned moved (fresh before call meets)

theorem fresh_of_ledger {d after : Driver cfg} (consistent : Consistent d)
    (owned : PagesOwned d.sched) {newTokens : List Int}
    (moved : d.step clock (.stepComplete newTokens) = some after)
    (ledger : PagesLedger after.sched) : PagesStayFresh clock d (.stepComplete newTokens) := by
  rcases step_step_complete moved with ⟨batch, ⟨sched, callbacks⟩, pending, stepped, rfl⟩
  have distinct := (consistent.pending batch pending).distinct
  have effect := step_complete_effect distinct stepped
  have touched := touch_entries_formed clock d.sched.seqs batch.entries d.sched.ticks owned.formed
    (fun e member page inside =>
      owned.ledger.apart e.seq (step_owner_queued effect e member) page inside)
  have scanned := (leak_scan_well_formed touched.1 30000
    (clock (d.sched.ticks + decodeCount batch.entries))).2
  rw [← (step_complete_pool distinct stepped).1] at scanned
  intro other samePending id member unfinished page inside
  rw [pending] at samePending
  cases samePending
  rw [← touch_entries_stamp d.sched owned.ledger batch.entries (step_owner_queued effect) _ _
    member inside, ← is_stale_eq, Bool.eq_false_iff]
  intro stale
  have stays := unfinished_stays consistent effect member unfinished
  apply ledger.apart id stays page
  · rw [step_pages effect]
    exact inside
  · exact (scanned page).mpr (Or.inr stale)

/-- Aborts stay outside the steps and no page held on is left to go stale. -/
def FreshCalls (clock : Clock) (d : Driver cfg) (call : Call) : Prop :=
  d.AbortsIdle call ∧ PagesStayFresh clock d call

/-- In every run of such calls the sequences in the queues hold disjoint lists
of distinct pages, none of these is on a free stack, and a further call keeps it
so exactly when it leaves no page to go stale. -/
theorem pages_exclusive_iff_fresh {d : Driver cfg}
    (reached : Driver.Reached clock (FreshCalls clock) d) :
    PagesLedger d.sched ∧ ∀ call after, d.step clock call = some after →
      (PagesLedger after.sched ↔ PagesStayFresh clock d call) := by
  have consistent := consistent_reached reached
  have owned := pages_owned_reached (fun _ _ meets => meets.2) reached
  refine ⟨owned.ledger, fun call after moved => ⟨?_, fun fresh => ?_⟩⟩
  · intro ledger
    cases call with
    | addRequest promptTokens maxNewTokens eosTokenId => trivial
    | abortRequest seqId => trivial
    | schedule => trivial
    | stepComplete newTokens => exact fresh_of_ledger consistent owned moved ledger
  · exact (pages_owned_fresh consistent owned moved fresh).ledger

instance queuedDecidable (st : Scheduler cfg) (id : Int) : Decidable (queued st id) :=
  inferInstanceAs (Decidable (id ∈ _))

instance finishingDecidable (st : Scheduler cfg) (batch : ScheduledBatch) (newTokens : List Int)
    (id : Int) : Decidable (Finishing st batch newTokens id) :=
  inferInstanceAs (Decidable (∃ assigned ∈ assignedTokens batch newTokens, _))

instance pagesStayFreshDecidable (d : Driver cfg) : ∀ call, Decidable (PagesStayFresh clock d call)
  | .addRequest _ _ _ => inferInstanceAs (Decidable True)
  | .abortRequest _ => inferInstanceAs (Decidable True)
  | .schedule => inferInstanceAs (Decidable True)
  | .stepComplete _ => inferInstanceAs (Decidable (∀ batch ∈ d.pending, ∀ id ∈ _, _))

instance freshCallsDecidable (d : Driver cfg) (call : Call) :
    Decidable (FreshCalls clock d call) :=
  inferInstanceAs (Decidable (_ ∧ _))

theorem pages_exclusive_iff_fresh_two_requests :
    let d := (runCalls (Driver.step tickingClock) (FreshCalls tickingClock)
      (Driver.create { kvPageSizeTokens := 2, maxPagesTotal := 8 })
      [.addRequest [7, 8, 9] 3 (-1), .addRequest [5] 3 (-1), .schedule, .stepComplete [],
        .schedule]).get (by decide)
    PagesLedger d.sched ∧
      (PagesLedger ((d.step tickingClock (.stepComplete [3, 4])).get (by decide)).sched ↔
        PagesStayFresh tickingClock d (.stepComplete [3, 4])) := by
  intro d
  have exclusive := pages_exclusive_iff_fresh (d := d) (reaches_of_run_get _ (by decide))
  exact ⟨exclusive.1, exclusive.2 (.stepComplete [3, 4]) _ (Option.some_get _).symm⟩

/-- A clock on which 40 seconds pass between the first reading and the second. -/
def leapingClock : Clock := fun reading => if reading = 0 then 1 else 40000001

/-- The pages of a sequence in prefill are reclaimed under it after 40 seconds
and handed to the next request. -/
theorem pages_shared_after_reclaim :
    ¬∀ (cfg : SchedulerConfig) (clock : Clock) (d : Driver cfg),
      Driver.Reached clock Driver.AbortsIdle d → PagesLedger d.sched := by
  intro always
  have ledger := always
    { kvPageSizeTokens := 4, maxPagesTotal := 2, maxPrefillTokensPerStep := 2 } leapingClock _
    (reaches_of_run_get [.addRequest [5, 6, 7, 8] 3 (-1), .schedule, .stepComplete [],
      .addRequest [5] 3 (-1), .schedule] (by decide))
  have disjoint := ledger.disjoint 0 1 (by decide) (by decide) (by decide)
  exact disjoint (a := ⟨0, by decide⟩) (by decide) (by decide)

end AmpFormal.SchedulerPages
