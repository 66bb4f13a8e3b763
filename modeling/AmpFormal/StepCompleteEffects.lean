import AmpFormal.SchedulerModel
import Mathlib.Data.List.GetD

/-!
# What `step_complete` does to the sequences

Every entry of the batch changes its own sequence once: a prefill entry moves
the cursor, a decode entry appends the token assigned to it and may finish the
sequence, which is then reported to the completion callback and removed.
-/

namespace AmpFormal.StepCompleteEffects

open AmpFormal.PagePoolFastModel AmpFormal.SchedulerModel AmpFormal.SchedulerModel.Scheduler

set_option autoImplicit false

variable {cfg : SchedulerConfig} {clock : Clock}

/-- The tokens a call assigns, in batch order: the j-th decode entry from `k`
on takes `newTokens[j]`, or 0 when the list is too short. -/
def assignedFrom (k : Nat) (entries : List BatchEntry) (newTokens : List Int) :
    List (Int × Int) :=
  ((entries.filter fun e => !e.isPrefill).zipIdx k).map
    fun indexed => (indexed.1.seq, newTokens.getD indexed.2 0)

abbrev assignedTokens (batch : ScheduledBatch) (newTokens : List Int) : List (Int × Int) :=
  assignedFrom 0 batch.entries newTokens

def decodedForm {pages : Nat} (s : Sequence pages) (tok : Int) : Sequence pages :=
  if (s.appendToken tok).finishes tok then { s.appendToken tok with state := .done }
  else s.appendToken tok

def callbackFor {pages : Nat} (seqs : Int → Sequence pages) (assigned : Int × Int) :
    Option (Int × List Int) :=
  if ((seqs assigned.1).appendToken assigned.2).finishes assigned.2 then
    some (assigned.1, (seqs assigned.1).outputTokens ++ [assigned.2])
  else none

theorem assigned_from_prefill {k : Nat} {e : BatchEntry} {rest : List BatchEntry}
    {newTokens : List Int} (kind : e.isPrefill = true) :
    assignedFrom k (e :: rest) newTokens = assignedFrom k rest newTokens := by
  simp [assignedFrom, kind]

theorem assigned_from_decode {k : Nat} {e : BatchEntry} {rest : List BatchEntry}
    {newTokens : List Int} (kind : e.isPrefill = false) :
    assignedFrom k (e :: rest) newTokens =
      (e.seq, newTokens.getD k 0) :: assignedFrom (k + 1) rest newTokens := by
  simp [assignedFrom, kind, List.zipIdx_cons]

theorem assigned_from_seqs (k : Nat) (entries : List BatchEntry) (newTokens : List Int) :
    (assignedFrom k entries newTokens).map Prod.fst =
      (entries.filter fun e => !e.isPrefill).map BatchEntry.seq := by
  induction entries generalizing k with
  | nil => rfl
  | cons e rest ih =>
      cases kind : e.isPrefill with
      | true => rw [assigned_from_prefill kind, ih k]; simp [kind]
      | false => rw [assigned_from_decode kind, List.map_cons, ih (k + 1)]; simp [kind]

theorem assigned_seq_mem {k : Nat} {entries : List BatchEntry} {newTokens : List Int}
    {assigned : Int × Int} (member : assigned ∈ assignedFrom k entries newTokens) :
    ∃ e ∈ entries, e.isPrefill = false ∧ e.seq = assigned.1 := by
  have inSeqs := List.mem_map_of_mem (f := Prod.fst) member
  rw [assigned_from_seqs] at inSeqs
  rcases List.mem_map.mp inSeqs with ⟨e, filtered, same⟩
  rcases List.mem_filter.mp filtered with ⟨inEntries, kind⟩
  exact ⟨e, inEntries, by simpa using kind, same⟩

/-- Each entry changes its own sequence once, the callbacks are those of the
finishing decode entries, in order. -/
structure CompleteEffect (k : Nat) (entries : List BatchEntry) (newTokens : List Int)
    (before after : CompleteLoop cfg) : Prop where
  waiting : after.sched.waiting = before.sched.waiting
  running : after.sched.running = before.sched.running
  swapped : after.sched.swapped = before.sched.swapped
  nextId : after.sched.nextId = before.sched.nextId
  totalRequests : after.sched.totalRequests = before.sched.totalRequests
  other_seq : ∀ id, id ∉ entries.map BatchEntry.seq → after.sched.seqs id = before.sched.seqs id
  prefill_seq : ∀ e ∈ entries, e.isPrefill = true →
    after.sched.seqs e.seq = (before.sched.seqs e.seq).advancePrefill e.nTokens
  decode_seq : ∀ assigned ∈ assignedFrom k entries newTokens,
    after.sched.seqs assigned.1 = decodedForm (before.sched.seqs assigned.1) assigned.2
  callbacks : after.callbacks = before.callbacks ++
    (assignedFrom k entries newTokens).filterMap (callbackFor before.sched.seqs)
  completed : after.sched.completed + before.callbacks.length =
    before.sched.completed + after.callbacks.length

theorem complete_decode_result (clock : Clock) (newTokens : List Int) (loop : CompleteLoop cfg)
    (e : BatchEntry) (k : Nat) (index : loop.decodeIdx = min k newTokens.length) :
    let tok := newTokens.getD k 0
    let after := loop.completeDecode clock newTokens e
    after.sched.seqs = Function.update loop.sched.seqs e.seq
      (decodedForm (loop.sched.seqs e.seq) tok) ∧
    after.decodeIdx = min (k + 1) newTokens.length ∧
    after.callbacks = loop.callbacks ++ (callbackFor loop.sched.seqs (e.seq, tok)).toList ∧
    after.sched.completed + loop.callbacks.length =
      loop.sched.completed + after.callbacks.length ∧
    after.sched.waiting = loop.sched.waiting ∧ after.sched.running = loop.sched.running ∧
    after.sched.swapped = loop.sched.swapped ∧ after.sched.nextId = loop.sched.nextId ∧
    after.sched.totalRequests = loop.sched.totalRequests := by
  have token : (if loop.decodeIdx < newTokens.length then newTokens.getD loop.decodeIdx 0 else 0) =
      newTokens.getD k 0 := by
    split
    case isTrue inside =>
      have same : loop.decodeIdx = k := by omega
      rw [same]
    case isFalse outside => exact (List.getD_eq_default newTokens 0 (by omega)).symm
  have advanced : (if loop.decodeIdx < newTokens.length then loop.decodeIdx + 1
      else loop.decodeIdx) = min (k + 1) newTokens.length := by
    split <;> omega
  dsimp only
  by_cases finished : ((loop.sched.seqs e.seq).appendToken (newTokens.getD k 0)).finishes
      (newTokens.getD k 0) = true
  · simp only [CompleteLoop.completeDecode, token, advanced, finished, if_true, decodedForm,
      callbackFor, Option.toList_some, List.length_append, List.length_cons, List.length_nil]
    refine ⟨rfl, trivial, rfl, ?_, rfl, rfl, rfl, rfl, rfl⟩
    omega
  · simp only [CompleteLoop.completeDecode, token, advanced, finished, decodedForm,
      callbackFor, Bool.false_eq_true, if_false, Option.toList_none, List.append_nil]
    exact ⟨rfl, trivial, trivial, rfl, rfl, rfl, rfl, rfl, rfl⟩

/-- The number of decode entries up to and including `e`, `k` of them before it. -/
def nextDecode (k : Nat) (e : BatchEntry) : Nat := if e.isPrefill then k else k + 1

theorem assigned_from_cons (k : Nat) (e : BatchEntry) (rest : List BatchEntry)
    (newTokens : List Int) :
    assignedFrom k (e :: rest) newTokens =
      assignedFrom k [e] newTokens ++ assignedFrom (nextDecode k e) rest newTokens := by
  cases kind : e.isPrefill with
  | true =>
      rw [assigned_from_prefill kind, assigned_from_prefill kind]
      simp [nextDecode, kind, assignedFrom]
  | false =>
      rw [assigned_from_decode kind, assigned_from_decode kind]
      simp [nextDecode, kind, assignedFrom]

theorem complete_entry_prefill {newTokens : List Int} {loop : CompleteLoop cfg} {e : BatchEntry}
    (kind : e.isPrefill = true) :
    CompleteLoop.completeEntry clock newTokens loop e = loop.completePrefill e := by
  simp [CompleteLoop.completeEntry, kind]

theorem complete_entry_decode {newTokens : List Int} {loop : CompleteLoop cfg} {e : BatchEntry}
    (kind : e.isPrefill = false) :
    CompleteLoop.completeEntry clock newTokens loop e =
      loop.completeDecode clock newTokens e := by
  simp [CompleteLoop.completeEntry, kind]

theorem complete_entry_effect (clock : Clock) (newTokens : List Int) (loop : CompleteLoop cfg)
    (e : BatchEntry) (k : Nat) (index : loop.decodeIdx = min k newTokens.length) :
    CompleteEffect k [e] newTokens loop (CompleteLoop.completeEntry clock newTokens loop e) ∧
      (CompleteLoop.completeEntry clock newTokens loop e).decodeIdx =
        min (nextDecode k e) newTokens.length := by
  cases kind : e.isPrefill with
  | true =>
      have nothing : assignedFrom k [e] newTokens = [] := by
        rw [assigned_from_prefill kind]
        rfl
      rw [complete_entry_prefill kind]
      refine ⟨⟨rfl, rfl, rfl, rfl, rfl, ?_, ?_, ?_, ?_, rfl⟩, ?_⟩
      · exact fun id absent => Function.update_of_ne (List.ne_of_not_mem_cons absent) _ _
      · intro other member _
        obtain rfl := List.mem_singleton.mp member
        exact Function.update_self _ _ _
      · simp [nothing]
      · rw [nothing]
        exact (List.append_nil _).symm
      · rw [nextDecode, if_pos kind]
        exact index
  | false =>
      have one : assignedFrom k [e] newTokens = [(e.seq, newTokens.getD k 0)] := by
        rw [assigned_from_decode kind]
        rfl
      rcases complete_decode_result clock newTokens loop e k index with
        ⟨seqs, nextIndex, callbacks, completed, waiting, running, swapped, nextId, total⟩
      rw [complete_entry_decode kind]
      refine ⟨⟨waiting, running, swapped, nextId, total, ?_, ?_, ?_, ?_, completed⟩, ?_⟩
      · intro id absent
        rw [seqs, Function.update_of_ne (List.ne_of_not_mem_cons absent)]
      · intro other member prefill
        obtain rfl := List.mem_singleton.mp member
        cases kind.symm.trans prefill
      · intro assigned member
        rw [one] at member
        obtain rfl := List.mem_singleton.mp member
        rw [seqs, Function.update_self]
      · rw [callbacks, one, List.filterMap_cons, List.filterMap_nil]
        cases callbackFor loop.sched.seqs (e.seq, newTokens.getD k 0) <;> rfl
      · rw [nextDecode, if_neg (by simp [kind])]
        exact nextIndex

theorem complete_effect_cons {k : Nat} {e : BatchEntry} {rest : List BatchEntry}
    {newTokens : List Int} {before middle after : CompleteLoop cfg}
    (left : CompleteEffect k [e] newTokens before middle)
    (right : CompleteEffect (nextDecode k e) rest newTokens middle after)
    (absent : e.seq ∉ rest.map BatchEntry.seq) :
    CompleteEffect k (e :: rest) newTokens before after := by
  have kept : ∀ id, id ≠ e.seq → middle.sched.seqs id = before.sched.seqs id :=
    fun id different => left.other_seq id (by simpa using different)
  have later : ∀ other ∈ rest, other.seq ≠ e.seq := by
    intro other member same
    exact absent (same ▸ List.mem_map_of_mem member)
  have laterKept : ∀ assigned ∈ assignedFrom (nextDecode k e) rest newTokens,
      middle.sched.seqs assigned.1 = before.sched.seqs assigned.1 := by
    intro assigned member
    rcases assigned_seq_mem member with ⟨other, behind, _, same⟩
    exact kept assigned.1 (same ▸ later other behind)
  refine ⟨right.waiting.trans left.waiting, right.running.trans left.running,
    right.swapped.trans left.swapped, right.nextId.trans left.nextId,
    right.totalRequests.trans left.totalRequests, ?_, ?_, ?_, ?_, ?_⟩
  · intro id outside
    rw [List.map_cons, List.mem_cons, not_or] at outside
    rw [right.other_seq id outside.2, kept id outside.1]
  · intro other member prefill
    rcases List.mem_cons.mp member with rfl | behind
    · rw [right.other_seq other.seq absent]
      exact left.prefill_seq other List.mem_cons_self prefill
    · rw [right.prefill_seq other behind prefill, kept other.seq (later other behind)]
  · intro assigned member
    rw [assigned_from_cons, List.mem_append] at member
    rcases member with here | behind
    · rcases assigned_seq_mem here with ⟨other, only, _, same⟩
      obtain rfl := List.mem_singleton.mp only
      rw [right.other_seq assigned.1 (same ▸ absent), left.decode_seq assigned here]
    · rw [right.decode_seq assigned behind, laterKept assigned behind]
  · rw [right.callbacks, left.callbacks, assigned_from_cons k e rest, List.filterMap_append,
      List.append_assoc]
    congr 2
    apply List.filterMap_congr
    intro assigned member
    rw [callbackFor, callbackFor, laterKept assigned member]
  · have first := left.completed
    have second := right.completed
    omega

theorem complete_entries_effect (clock : Clock) (entries : List BatchEntry) (newTokens : List Int)
    (distinct : (entries.map BatchEntry.seq).Nodup) (k : Nat) (loop : CompleteLoop cfg)
    (index : loop.decodeIdx = min k newTokens.length) :
    CompleteEffect k entries newTokens loop
      (entries.foldl (CompleteLoop.completeEntry clock newTokens) loop) := by
  induction entries generalizing k loop with
  | nil => exact ⟨rfl, rfl, rfl, rfl, rfl, fun _ _ => rfl, by simp, by simp [assignedFrom],
      by simp [assignedFrom], rfl⟩
  | cons e rest ih =>
      rw [List.map_cons, List.nodup_cons] at distinct
      obtain ⟨first, nextIndex⟩ := complete_entry_effect clock newTokens loop e k index
      exact complete_effect_cons first (ih distinct.2 (nextDecode k e) _ nextIndex) distinct.1

structure StepEffect (before : Scheduler cfg) (batch : ScheduledBatch) (newTokens : List Int)
    (after : Scheduler cfg) (callbacks : List (Int × List Int)) : Prop where
  waiting : after.waiting = before.waiting
  running : after.running = before.running.filter fun id => !(after.seqs id).isDone
  swapped : after.swapped = before.swapped
  nextId : after.nextId = before.nextId
  totalRequests : after.totalRequests = before.totalRequests
  owned : ∀ e ∈ batch.entries, e.seq ∈ before.running
  other_seq : ∀ id, id ∉ batch.entries.map BatchEntry.seq → after.seqs id = before.seqs id
  prefill_seq : ∀ e ∈ batch.entries, e.isPrefill = true →
    after.seqs e.seq = (before.seqs e.seq).advancePrefill e.nTokens
  decode_seq : ∀ assigned ∈ assignedTokens batch newTokens,
    after.seqs assigned.1 = decodedForm (before.seqs assigned.1) assigned.2
  callbacks_eq : callbacks =
    (assignedTokens batch newTokens).filterMap (callbackFor before.seqs)
  completed : after.completed = before.completed + callbacks.length

theorem step_complete_effect {st after : Scheduler cfg} {batch : ScheduledBatch}
    {newTokens : List Int} {callbacks : List (Int × List Int)}
    (distinct : (batch.entries.map BatchEntry.seq).Nodup)
    (stepped : st.stepComplete clock batch newTokens = some (after, callbacks)) :
    StepEffect st batch newTokens after callbacks := by
  unfold stepComplete at stepped
  split at stepped
  case isFalse => cases stepped
  case isTrue owned =>
    have effect := complete_entries_effect clock batch.entries newTokens distinct 0
      { sched := st } (by simp)
    change CompleteEffect 0 batch.entries newTokens _
      (st.completeEntries clock batch.entries newTokens) at effect
    simp only [Option.some.injEq, Prod.mk.injEq] at stepped
    rcases stepped with ⟨rfl, rfl⟩
    refine ⟨effect.waiting, ?_, effect.swapped, effect.nextId, effect.totalRequests, owned,
      effect.other_seq, effect.prefill_seq, effect.decode_seq, ?_, ?_⟩
    · change (st.completeEntries clock batch.entries newTokens).sched.running.filter _ = _
      rw [effect.running]
      rfl
    · exact effect.callbacks
    · exact effect.completed

/-! ## The pool during `step_complete` -/

/-- The timestamps the decode entries write, one clock reading each. -/
def touchEntries (clock : Clock) (seqs : Int → Sequence cfg.pages) :
    List BatchEntry → Nat → PagePoolFast cfg.pages 16 → PagePoolFast cfg.pages 16
  | [], _, pool => pool
  | e :: rest, tick, pool =>
      if e.isPrefill then touchEntries clock seqs rest tick pool
      else touchEntries clock seqs rest (tick + 1)
        (pool.touch (seqs e.seq).kvPageIds (clock tick))

def decodeCount (entries : List BatchEntry) : Nat := entries.countP fun e => !e.isPrefill

theorem touch_entries_congr {seqs other : Int → Sequence cfg.pages} (entries : List BatchEntry)
    (tick : Nat) (pool : PagePoolFast cfg.pages 16)
    (same : ∀ e ∈ entries, other e.seq = seqs e.seq) :
    touchEntries clock other entries tick pool = touchEntries clock seqs entries tick pool := by
  induction entries generalizing tick pool with
  | nil => rfl
  | cons e rest ih =>
      have tail := fun tick pool => ih tick pool fun other member => same other (by simp [member])
      unfold touchEntries
      rw [same e (by simp), tail, tail]

theorem complete_decode_pool (clock : Clock) (newTokens : List Int) (loop : CompleteLoop cfg)
    (e : BatchEntry) :
    (loop.completeDecode clock newTokens e).sched.kvPool =
      loop.sched.kvPool.touch (loop.sched.seqs e.seq).kvPageIds (clock loop.sched.ticks) ∧
    (loop.completeDecode clock newTokens e).sched.ticks = loop.sched.ticks + 1 ∧
    ∀ id, id ≠ e.seq →
      (loop.completeDecode clock newTokens e).sched.seqs id = loop.sched.seqs id := by
  unfold CompleteLoop.completeDecode
  dsimp only
  generalize (if loop.decodeIdx < newTokens.length then newTokens.getD loop.decodeIdx 0
    else 0) = tok
  by_cases finished : ((loop.sched.seqs e.seq).appendToken tok).finishes tok = true
  all_goals simp only [finished, if_true, if_false, Bool.false_eq_true]
  · exact ⟨rfl, rfl, fun id different => Function.update_of_ne different _ _⟩
  · exact ⟨rfl, rfl, fun id different => Function.update_of_ne different _ _⟩

theorem complete_entries_pool (clock : Clock) (entries : List BatchEntry) (newTokens : List Int)
    (distinct : (entries.map BatchEntry.seq).Nodup) (loop : CompleteLoop cfg) :
    (entries.foldl (CompleteLoop.completeEntry clock newTokens) loop).sched.kvPool =
      touchEntries clock loop.sched.seqs entries loop.sched.ticks loop.sched.kvPool ∧
    (entries.foldl (CompleteLoop.completeEntry clock newTokens) loop).sched.ticks =
      loop.sched.ticks + decodeCount entries := by
  induction entries generalizing loop with
  | nil => exact ⟨rfl, rfl⟩
  | cons e rest ih =>
      rw [List.map_cons, List.nodup_cons] at distinct
      have later : ∀ other ∈ rest, other.seq ≠ e.seq := by
        intro other member same
        exact distinct.1 (same ▸ List.mem_map_of_mem member)
      rw [List.foldl_cons]
      cases kind : e.isPrefill with
      | true =>
          rcases ih distinct.2 (loop.completePrefill e) with ⟨pool, ticks⟩
          rw [complete_entry_prefill kind, pool, ticks, touchEntries, kind, if_pos rfl]
          constructor
          · apply touch_entries_congr
            intro other member
            exact Function.update_of_ne (later other member) _ _
          · simp [decodeCount, kind]
            rfl
      | false =>
          have changed := complete_decode_pool clock newTokens loop e
          rcases ih distinct.2 (loop.completeDecode clock newTokens e) with ⟨pool, ticks⟩
          rw [complete_entry_decode kind, pool, ticks, changed.1, changed.2.1, touchEntries, kind,
            if_neg Bool.false_ne_true]
          constructor
          · apply touch_entries_congr
            intro other member
            exact changed.2.2 other.seq (later other member)
          · simp [decodeCount, kind]
            omega

/-- The pool and the clock after `step_complete`. -/
theorem step_complete_pool {st after : Scheduler cfg} {batch : ScheduledBatch}
    {newTokens : List Int} {callbacks : List (Int × List Int)}
    (distinct : (batch.entries.map BatchEntry.seq).Nodup)
    (stepped : st.stepComplete clock batch newTokens = some (after, callbacks)) :
    after.kvPool = ((touchEntries clock st.seqs batch.entries st.ticks st.kvPool).leakScan 30000
        (clock (st.ticks + decodeCount batch.entries))).1 ∧
      after.ticks = st.ticks + decodeCount batch.entries + 1 := by
  unfold stepComplete at stepped
  split at stepped
  case isFalse => cases stepped
  case isTrue =>
    rcases complete_entries_pool clock batch.entries newTokens distinct
      { sched := st } with ⟨pool, ticks⟩
    change (st.completeEntries clock batch.entries newTokens).sched.kvPool = _ at pool
    change (st.completeEntries clock batch.entries newTokens).sched.ticks = _ at ticks
    simp only [Option.some.injEq, Prod.mk.injEq] at stepped
    rcases stepped with ⟨rfl, _⟩
    simp only [Scheduler.leakScan, removeDone]
    rw [pool, ticks]
    exact ⟨rfl, rfl⟩

/-! ## Consequences for one sequence -/

theorem step_assigned_nodup {batch : ScheduledBatch} (newTokens : List Int)
    (distinct : (batch.entries.map BatchEntry.seq).Nodup) :
    ((assignedTokens batch newTokens).map Prod.fst).Nodup := by
  rw [assigned_from_seqs]
  exact distinct.sublist (List.filter_sublist.map BatchEntry.seq)

theorem step_seq_cases {before after : Scheduler cfg} {batch : ScheduledBatch}
    {newTokens : List Int} {callbacks : List (Int × List Int)}
    (effect : StepEffect before batch newTokens after callbacks) (id : Int) :
    (∃ tok, (id, tok) ∈ assignedTokens batch newTokens ∧ id ∈ before.running ∧
      after.seqs id = decodedForm (before.seqs id) tok) ∨
    (id ∉ (assignedTokens batch newTokens).map Prod.fst ∧ id ∈ before.running ∧
      ∃ e ∈ batch.entries, e.seq = id ∧ e.isPrefill = true ∧
        after.seqs id = (before.seqs id).advancePrefill e.nTokens) ∨
    (id ∉ (assignedTokens batch newTokens).map Prod.fst ∧
      id ∉ batch.entries.map BatchEntry.seq ∧ after.seqs id = before.seqs id) := by
  by_cases assigned : id ∈ (assignedTokens batch newTokens).map Prod.fst
  · left
    rcases List.mem_map.mp assigned with ⟨⟨_, tok⟩, member, rfl⟩
    rcases assigned_seq_mem member with ⟨e, inBatch, _, same⟩
    exact ⟨tok, member, same ▸ effect.owned e inBatch, effect.decode_seq _ member⟩
  · right
    by_cases named : id ∈ batch.entries.map BatchEntry.seq
    · left
      rcases List.mem_map.mp named with ⟨e, inBatch, rfl⟩
      refine ⟨assigned, effect.owned e inBatch, e, inBatch, rfl, ?_⟩
      cases kind : e.isPrefill with
      | true => exact ⟨rfl, effect.prefill_seq e inBatch kind⟩
      | false =>
          -- A decode entry would have a token assigned to it.
          rw [assigned_from_seqs] at assigned
          exact absurd (List.mem_map_of_mem (List.mem_filter.mpr ⟨inBatch, by simp [kind]⟩)) assigned
    · right
      exact ⟨assigned, named, effect.other_seq id named⟩

theorem step_still_queued {before after : Scheduler cfg} {batch : ScheduledBatch}
    {newTokens : List Int} {callbacks : List (Int × List Int)}
    (effect : StepEffect before batch newTokens after callbacks) {id : Int}
    (queued : id ∈ after.waiting ++ after.running) : id ∈ before.waiting ++ before.running := by
  rw [effect.waiting, effect.running] at queued
  exact ((List.Sublist.refl _).append List.filter_sublist).subset queued

theorem step_callback_iff {before after : Scheduler cfg} {batch : ScheduledBatch}
    {newTokens : List Int} {callbacks : List (Int × List Int)}
    (effect : StepEffect before batch newTokens after callbacks) (id : Int) (toks : List Int) :
    (id, toks) ∈ callbacks ↔ ∃ tok, (id, tok) ∈ assignedTokens batch newTokens ∧
      ((before.seqs id).appendToken tok).finishes tok = true ∧
      toks = (before.seqs id).outputTokens ++ [tok] := by
  rw [effect.callbacks_eq, List.mem_filterMap]
  constructor
  · intro given
    rcases given with ⟨⟨owner, tok⟩, member, called⟩
    unfold callbackFor at called
    split at called
    case isTrue finished =>
      cases called
      exact ⟨tok, member, finished, rfl⟩
    case isFalse => cases called
  · intro given
    rcases given with ⟨tok, member, finished, rfl⟩
    refine ⟨(id, tok), member, ?_⟩
    unfold callbackFor
    exact if_pos finished

theorem step_callbacks_nodup {before after : Scheduler cfg} {batch : ScheduledBatch}
    {newTokens : List Int} {callbacks : List (Int × List Int)}
    (distinct : (batch.entries.map BatchEntry.seq).Nodup)
    (effect : StepEffect before batch newTokens after callbacks) :
    (callbacks.map Prod.fst).Nodup := by
  have owners : ∀ assigned : List (Int × Int),
      ((assigned.filterMap (callbackFor before.seqs)).map Prod.fst).Sublist
        (assigned.map Prod.fst) := by
    intro assigned
    induction assigned with
    | nil => simp
    | cons first rest ih =>
        unfold callbackFor at ih ⊢
        rw [List.filterMap_cons]
        split
        case h_1 => exact ih.trans (List.sublist_cons_self _ _)
        case h_2 called =>
          split at called
          case isTrue =>
            cases called
            exact ih.cons_cons _
          case isFalse => cases called
  rw [effect.callbacks_eq]
  exact (step_assigned_nodup newTokens distinct).sublist (owners _)

/-! ## Fields of the changed sequences -/

section Fields

variable {pages : Nat} (s : Sequence pages)

theorem finishes_iff (tok : Int) :
    s.finishes tok = true ↔ s.maxNewTokens ≤ (s.outputTokens.length : Int) ∨
      (0 ≤ s.eosTokenId ∧ tok = s.eosTokenId) := by
  simp [Sequence.finishes]

theorem decoded_form_finished {s : Sequence pages} {tok : Int}
    (finished : (s.appendToken tok).finishes tok = true) :
    decodedForm s tok = { s.appendToken tok with state := .done } := if_pos finished

theorem decoded_form_running {s : Sequence pages} {tok : Int}
    (running : (s.appendToken tok).finishes tok = false) :
    decodedForm s tok = s.appendToken tok := by
  unfold decodedForm
  rw [running]
  rfl

theorem decoded_form_done (tok : Int) (active : s.isDone = false) :
    (decodedForm s tok).isDone = (s.appendToken tok).finishes tok := by
  cases finished : (s.appendToken tok).finishes tok with
  | true =>
      rw [decoded_form_finished finished]
      rfl
  | false =>
      rw [decoded_form_running finished]
      exact active

theorem advance_prefill_cases (n : Int) :
    ((s.remainingPrefill ≤ n ∧ s.advancePrefill n =
        { s with prefillCursor := s.prefillCursor + n, state := .decode }) ∨
      (n < s.remainingPrefill ∧ s.advancePrefill n =
        { s with prefillCursor := s.prefillCursor + n })) := by
  by_cases reached : s.remainingPrefill ≤ n
  · left
    refine ⟨reached, if_pos ?_⟩
    unfold Sequence.remainingPrefill at reached ⊢
    dsimp only
    omega
  · right
    refine ⟨by omega, if_neg ?_⟩
    unfold Sequence.remainingPrefill at reached ⊢
    dsimp only
    omega

theorem advance_prefill_done (n : Int) (active : s.isDone = false) :
    (s.advancePrefill n).isDone = false := by
  rcases advance_prefill_cases s n with ⟨_, same⟩ | ⟨_, same⟩
  · rw [same]
    rfl
  · rw [same]
    exact active

theorem decoded_form_fields (tok : Int) :
    (decodedForm s tok).promptTokens = s.promptTokens ∧
      (decodedForm s tok).prefillCursor = s.prefillCursor ∧
      (decodedForm s tok).kvPageIds = s.kvPageIds ∧
      ((decodedForm s tok).state = s.state ∨ (decodedForm s tok).state = .done) := by
  cases finished : (s.appendToken tok).finishes tok with
  | true =>
      rw [decoded_form_finished finished]
      exact ⟨rfl, rfl, rfl, Or.inr rfl⟩
  | false =>
      rw [decoded_form_running finished]
      exact ⟨rfl, rfl, rfl, Or.inl rfl⟩

theorem advance_prefill_fields (n : Int) :
    (s.advancePrefill n).promptTokens = s.promptTokens ∧
      (s.advancePrefill n).prefillCursor = s.prefillCursor + n ∧
      (s.advancePrefill n).kvPageIds = s.kvPageIds := by
  rcases advance_prefill_cases s n with ⟨_, same⟩ | ⟨_, same⟩
  · rw [same]
    exact ⟨rfl, rfl, rfl⟩
  · rw [same]
    exact ⟨rfl, rfl, rfl⟩

end Fields

end AmpFormal.StepCompleteEffects
