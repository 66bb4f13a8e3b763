import AmpFormal.CacheAsyncShutdownMoves
import AmpFormal.CacheAsyncWakeups

/-!
# The two models of the asynchronous cache

`CacheAsyncModel` evaluates the predicate of a wait and blocks in one step, and keeps
the disk as a map. `CacheAsyncShutdownModel` takes two steps for a wait and writes
files. Until its destructor starts it does nothing that the first model does not do:
`qm_` is held between the two steps, so that the predicate is still false when the
thread blocks and may as well be evaluated then. What holds in every run of the first
model therefore holds in the second.
-/

namespace AmpFormal.CacheAsyncRefinement

open AmpFormal.FileDirectory AmpFormal.TransitionRuns AmpFormal.CacheStoreModel
open AmpFormal.CacheAsyncShutdownModel AmpFormal.CacheAsyncShutdownModel.CacheStoreAsync
open AmpFormal.CacheAsyncShutdownMoves
open AmpFormal.CacheAsyncModel (Waiter)

set_option autoImplicit false

variable {Tid : Type}

abbrev Coarse (Tid : Type) := CacheAsyncModel.CacheStoreAsync Tid String Bytes

/-- A plain key, and with a put a payload whose length fits the header. -/
def Storable : Call → Prop
  | .get key => Plain key
  | .put key bin => Plain key ∧ bin.length < 2 ^ 32
  | .flush => True

def StorableCall : Action Tid → Prop
  | .call _ call => Storable call
  | _ => True

/-- Where the coarse model has a client; `stamp` is the time at which a put updated
L1. -/
def ClientPc.coarse (stamp : Nat) : ClientPc → CacheAsyncModel.ClientPc String Bytes
  | .idle => .idle
  | .getLookup key => .getLookup key
  | .getDisk key => .getDisk key
  | .getPromote key bin => .getPromote key bin
  | .putStore key bin => .putStore key bin
  | .putQueue key bin => .putQueue key bin stamp
  | .putCount key bin => .putCount key bin
  | .putNotify key bin => .putNotify key bin
  | .flush _ => .flushWait

def WriterPc.coarse : WriterPc → CacheAsyncModel.WriterPc String Bytes
  | .wait _ => .waiting
  | .writing job => .writing job
  | .written => .written
  | .persisted => .persisted
  | .returned => .returned

def Action.coarse : Action Tid → Option (CacheAsyncModel.Action Tid String Bytes)
  | .call tid call => some (.call tid call)
  | .client tid => some (.client tid)
  | .notify tid woken => some (.notify tid woken)
  | .writer => some .writer
  | .destroy | .destructor => none

/-- The two states agree wherever both models keep something. -/
structure Simulates (s : CacheStoreAsync Tid) (t : Coarse Tid) : Prop where
  l1 : t.l1 = s.l1
  disk : ∀ key, Plain key → t.disk key = get s.disk key
  q : t.q = s.q
  busy : t.busy = s.busy
  stop : t.stop = s.stop
  waiters : ∀ waiter, waiter ∈ t.waiters ↔ s.blocked waiter = true
  writer : t.writer = WriterPc.coarse s.writer
  client : ∀ tid, ∃ stamp, (t.client tid).pc = ClientPc.coarse stamp (s.client tid)
  l1Hits : t.l1Hits = s.l1Hits
  writesQueued : t.writesQueued = s.writesQueued
  writesPersisted : t.writesPersisted = s.writesPersisted
  history : t.history.map (fun record => (record.call, record.result)) = s.history

/-! ## A thread about to block -/

structure Held (s : CacheStoreAsync Tid) : Prop where
  client : ∀ tid, s.client tid = .flush .block →
    s.qm = some (.client tid) ∧ ¬(s.q = [] ∧ s.busy = false)
  writer : s.writer = .wait .block → s.qm = some .writer ∧ s.q = [] ∧ s.stop = false

section Held

variable {s after : CacheStoreAsync Tid}

theorem held_of_same (held : Held s) (qm : after.qm = s.qm) (q : after.q = s.q)
    (busy : after.busy = s.busy) (stop : after.stop = s.stop)
    (client : ∀ tid, after.client tid = .flush .block → s.client tid = .flush .block)
    (writer : after.writer = .wait .block → s.writer = .wait .block) : Held after := by
  refine ⟨fun tid at_block => ?_, fun at_block => ?_⟩
  · rw [qm, q, busy]
    exact held.client tid (client tid at_block)
  · rw [qm, q, stop]
    exact held.writer (writer at_block)

theorem client_not_block (held : Held s) (unlocked : s.qm = none) (tid : Tid) :
    s.client tid ≠ .flush .block := by
  intro at_block
  have holder := (held.client tid at_block).1
  rw [unlocked] at holder
  cases holder

theorem writer_not_block (held : Held s) (unlocked : s.qm = none) : s.writer ≠ .wait .block := by
  intro at_block
  have holder := (held.writer at_block).1
  rw [unlocked] at holder
  cases holder

theorem held_of_unlocked (held : Held s) (unlocked : s.qm = none)
    (client : ∀ tid, after.client tid = .flush .block → s.client tid = .flush .block)
    (writer : after.writer = .wait .block → s.writer = .wait .block) : Held after where
  client tid at_block := absurd (client tid at_block) (client_not_block held unlocked tid)
  writer at_block := absurd (writer at_block) (writer_not_block held unlocked)

theorem client_woken_block {pc : ClientPc} (at_block : pc.woken = .flush .block) :
    pc = .flush .block := by
  unfold ClientPc.woken at at_block
  split at at_block
  case h_1 => cases at_block
  case h_2 => exact at_block

theorem writer_woken_block {pc : WriterPc} (at_block : pc.woken = .wait .block) :
    pc = .wait .block := by
  unfold WriterPc.woken at at_block
  split at at_block
  case h_1 => cases at_block
  case h_2 => exact at_block

theorem writer_held (held : Held s) (moves : WriterMoves s after) : Held after := by
  cases moves with
  | pop job rest pc unlocked queued =>
      exact held_of_unlocked held unlocked (fun _ same => same) (by simp)
  | stopped pc unlocked empty stop =>
      exact held_of_unlocked held unlocked (fun _ same => same) (by simp)
  | waits pc unlocked empty running =>
      exact ⟨fun tid at_block => absurd at_block (client_not_block held unlocked tid),
        fun _ => ⟨rfl, empty, running⟩⟩
  | blocks pc =>
      refine ⟨fun tid at_block => ?_, by simp⟩
      have holder := (held.client tid at_block).1
      rw [(held.writer pc).1] at holder
      cases holder
  | write job disk pc done => exact held_of_same held rfl rfl rfl rfl (fun _ same => same) (by simp)
  | count pc => exact held_of_same held rfl rfl rfl rfl (fun _ same => same) (by simp)
  | signal pc unlocked =>
      refine held_of_unlocked held unlocked (fun tid at_block => ?_) (by simp)
      split at at_block
      case isTrue => exact client_woken_block at_block
      case isFalse => exact at_block

variable [DecidableEq Tid]

@[simp]
theorem goto_client (tid : Tid) (pc : ClientPc) :
    (s.goto tid pc).client = Function.update s.client tid pc := rfl

theorem goto_block {tid other : Tid} {pc : ClientPc} (elsewhere : pc ≠ .flush .block)
    (at_block : (s.goto tid pc).client other = .flush .block) : s.client other = .flush .block := by
  by_cases same : other = tid
  · rw [same, goto_client, Function.update_self] at at_block
    exact absurd at_block elsewhere
  · rw [goto_client, Function.update_of_ne same] at at_block
    exact at_block

theorem client_held {tid : Tid} (held : Held s) (moves : ClientMoves s tid after) :
    Held after := by
  have stays : ∀ {pc : ClientPc}, pc ≠ .flush .block → ∀ other,
      (s.goto tid pc).client other = .flush .block → s.client other = .flush .block :=
    fun elsewhere _ => goto_block elsewhere
  cases moves with
  | lookupHit key bin pc found =>
      exact held_of_same held rfl rfl rfl rfl (stays (by simp)) fun same => same
  | lookupMiss key pc missed =>
      exact held_of_same held rfl rfl rfl rfl (stays (by simp)) fun same => same
  | diskHit key bin pc found =>
      exact held_of_same held rfl rfl rfl rfl (stays (by simp)) fun same => same
  | diskMiss key pc missed =>
      exact held_of_same held rfl rfl rfl rfl (stays (by simp)) fun same => same
  | promote key bin pc =>
      exact held_of_same held rfl rfl rfl rfl (stays (by simp)) fun same => same
  | store key bin pc =>
      exact held_of_same held rfl rfl rfl rfl (stays (by simp)) fun same => same
  | queue key bin pc unlocked =>
      exact held_of_unlocked held unlocked (stays (by simp)) fun same => same
  | count key bin pc =>
      exact held_of_same held rfl rfl rfl rfl (stays (by simp)) fun same => same
  | flushed pc unlocked empty done =>
      exact held_of_same held rfl rfl rfl rfl (stays (by simp)) fun same => same
  | waits pc unlocked pending =>
      refine ⟨fun other at_block => ?_, fun at_block => ?_⟩
      · by_cases same : other = tid
        · exact ⟨by rw [same]; rfl, pending⟩
        · simp only [goto_client, Function.update_of_ne same] at at_block
          exact absurd at_block (client_not_block held unlocked other)
      · have before : s.writer = .wait .block := at_block
        exact absurd before (writer_not_block held unlocked)
  | blocks pc =>
      have holder := (held.client tid pc).1
      refine ⟨fun other at_block => ?_, fun at_block => ?_⟩
      · have before := stays (by simp) other at_block
        have other_holder := (held.client other before).1
        rw [holder, Option.some.injEq] at other_holder
        cases other_holder
        simp at at_block
      · have other_holder := (held.writer at_block).1
        rw [holder] at other_holder
        cases other_holder

theorem notified_held (held : Held s) (woken : Option (Waiter Tid)) : Held (notified s woken) := by
  cases woken with
  | none => exact held
  | some waiter =>
      cases waiter with
      | client tid =>
          refine held_of_same held rfl rfl rfl rfl (fun other at_block => ?_) fun same => same
          by_cases same : other = tid
          · rw [same, notified, wake, goto_client, Function.update_self] at at_block
            rw [same]
            exact client_woken_block at_block
          · rw [notified, wake, goto_client, Function.update_of_ne same] at at_block
            exact at_block
      | writer =>
          exact held_of_same held rfl rfl rfl rfl (fun _ same => same) writer_woken_block

/-- The destructor is not at work yet, so `stop_` is not assigned behind `qm_`. -/
theorem moves_held {action : Action Tid} (held : Held s) (moves : Moves s action after)
    (alive : after.destructor = .alive) : Held after := by
  cases moves with
  | call tid call before pc =>
      refine held_of_same held rfl rfl rfl rfl (fun other => goto_block ?_) fun same => same
      cases call <;> simp [entry]
  | client tid after moves => exact client_held held moves
  | notify tid key bin woken pc blocked nobody =>
      exact held_of_same (notified_held held woken) rfl rfl rfl rfl
        (fun other => goto_block (by simp)) fun same => same
  | writer after moves => exact writer_held held moves
  | destroy before idle => cases alive
  | destructor after moves => cases moves <;> cases alive

end Held

/-! ## What is stored -/

/-- Every call in progress and every job has a plain key and a payload that fits. -/
structure StorableJobs (s : CacheStoreAsync Tid) : Prop where
  client : ∀ tid, ∀ call ∈ (ClientPc.coarse 0 (s.client tid)).call, Storable call
  queued : ∀ job ∈ s.q, Storable (.put job.1 job.2)
  writing : ∀ job, s.writer = .writing job → Storable (.put job.1 job.2)

section StorableJobs

variable {s after : CacheStoreAsync Tid}

theorem client_woken_call (pc : ClientPc) :
    (ClientPc.coarse 0 pc.woken).call = (ClientPc.coarse 0 pc).call := by
  unfold ClientPc.woken
  split <;> rfl

theorem writer_woken_writing {pc : WriterPc} {job : String × Bytes}
    (writing : pc.woken = .writing job) : pc = .writing job := by
  unfold WriterPc.woken at writing
  split at writing
  case h_1 => cases writing
  case h_2 => exact writing

theorem writer_storable (jobs : StorableJobs s) (moves : WriterMoves s after) :
    StorableJobs after := by
  cases moves with
  | pop job rest pc unlocked queued =>
      refine ⟨jobs.client, fun other member => ?_, fun other writing => ?_⟩
      · exact jobs.queued other (queued ▸ List.mem_cons_of_mem job member)
      · cases writing
        exact jobs.queued job (queued ▸ List.mem_cons_self)
  | stopped pc unlocked empty stop => exact ⟨jobs.client, jobs.queued, by simp⟩
  | waits pc unlocked empty running => exact ⟨jobs.client, jobs.queued, by simp⟩
  | blocks pc => exact ⟨jobs.client, jobs.queued, by simp⟩
  | write job disk pc done => exact ⟨jobs.client, jobs.queued, by simp⟩
  | count pc => exact ⟨jobs.client, jobs.queued, by simp⟩
  | signal pc unlocked =>
      split
      case isTrue =>
        refine ⟨fun tid call member => jobs.client tid call ?_, jobs.queued, by simp⟩
        rw [← client_woken_call]
        exact member
      case isFalse => exact ⟨jobs.client, jobs.queued, by simp⟩

variable [DecidableEq Tid]

theorem goto_storable {tid : Tid} {pc : ClientPc} (jobs : StorableJobs s)
    (kept : ∀ call ∈ (ClientPc.coarse 0 pc).call, Storable call) :
    StorableJobs (s.goto tid pc) := by
  refine ⟨fun other call member => ?_, jobs.queued, jobs.writing⟩
  by_cases same : other = tid
  · rw [goto_client, same, Function.update_self] at member
    exact kept call member
  · rw [goto_client, Function.update_of_ne same] at member
    exact jobs.client other call member

theorem client_storable {tid : Tid} (jobs : StorableJobs s) (moves : ClientMoves s tid after) :
    StorableJobs after := by
  have current : ∀ {call : Call}, (ClientPc.coarse 0 (s.client tid)).call = some call →
      Storable call := fun running => jobs.client tid _ running
  have stays : ∀ {pc : ClientPc},
      (ClientPc.coarse 0 pc).call = (ClientPc.coarse 0 (s.client tid)).call →
      StorableJobs (s.goto tid pc) :=
    fun same => goto_storable jobs fun call member => jobs.client tid call (same ▸ member)
  have idle : StorableJobs (s.goto tid .idle) := goto_storable jobs fun call member => by cases member
  cases moves with
  | lookupHit key bin pc found => exact ⟨idle.client, idle.queued, idle.writing⟩
  | lookupMiss key pc missed => exact stays (by rw [pc]; rfl)
  | diskHit key bin pc found => exact stays (by rw [pc]; rfl)
  | diskMiss key pc missed => exact ⟨idle.client, idle.queued, idle.writing⟩
  | promote key bin pc => exact ⟨idle.client, idle.queued, idle.writing⟩
  | store key bin pc =>
      have next : StorableJobs (s.goto tid (.putQueue key bin)) := stays (by rw [pc]; rfl)
      exact ⟨next.client, next.queued, next.writing⟩
  | queue key bin pc unlocked =>
      have next : StorableJobs (s.goto tid (.putCount key bin)) := stays (by rw [pc]; rfl)
      refine ⟨next.client, fun job member => ?_, next.writing⟩
      rcases List.mem_append.mp member with earlier | pushed
      · exact jobs.queued job earlier
      · rw [List.mem_singleton.mp pushed]
        exact current (by rw [pc]; rfl)
  | count key bin pc =>
      have next : StorableJobs (s.goto tid (.putNotify key bin)) := stays (by rw [pc]; rfl)
      exact ⟨next.client, next.queued, next.writing⟩
  | flushed pc unlocked empty done => exact ⟨idle.client, idle.queued, idle.writing⟩
  | waits pc unlocked pending =>
      have next : StorableJobs (s.goto tid (.flush .block)) := stays (by rw [pc]; rfl)
      exact ⟨next.client, next.queued, next.writing⟩
  | blocks pc =>
      have next : StorableJobs (s.goto tid (.flush .blocked)) := stays (by rw [pc]; rfl)
      exact ⟨next.client, next.queued, next.writing⟩

theorem notified_storable (jobs : StorableJobs s) (woken : Option (Waiter Tid)) :
    StorableJobs (notified s woken) := by
  cases woken with
  | none => exact jobs
  | some waiter =>
      cases waiter with
      | client tid =>
          refine goto_storable jobs fun call member => jobs.client tid call ?_
          rw [← client_woken_call]
          exact member
      | writer =>
          exact ⟨jobs.client, jobs.queued, fun job writing =>
            jobs.writing job (writer_woken_writing writing)⟩

theorem moves_storable {action : Action Tid} (jobs : StorableJobs s)
    (storable : StorableCall action) (moves : Moves s action after) : StorableJobs after := by
  cases moves with
  | call tid call alive pc =>
      refine goto_storable jobs fun other member => ?_
      have same : (ClientPc.coarse 0 (entry call)).call = some call := by cases call <;> rfl
      rw [same, Option.mem_some_iff] at member
      exact member ▸ storable
  | client tid after moves => exact client_storable jobs moves
  | notify tid key bin woken pc blocked nobody =>
      have idle : StorableJobs ((notified s woken).goto tid .idle) :=
        goto_storable (notified_storable jobs woken) fun call member => by cases member
      exact ⟨idle.client, idle.queued, idle.writing⟩
  | writer after moves => exact writer_storable jobs moves
  | destroy alive idle => exact ⟨jobs.client, jobs.queued, jobs.writing⟩
  | destructor after moves =>
      cases moves with
      | setStop pc => exact ⟨jobs.client, jobs.queued, jobs.writing⟩
      | notifyAll pc =>
          refine ⟨fun tid call member => jobs.client tid call ?_, jobs.queued, fun job writing =>
            jobs.writing job (writer_woken_writing writing)⟩
          rw [← client_woken_call]
          exact member
      | join pc exited => exact ⟨jobs.client, jobs.queued, jobs.writing⟩

end StorableJobs

/-! ## One step -/

section Steps

variable {s : CacheStoreAsync Tid} {t : Coarse Tid}

theorem coarse_woken (stamp : Nat) (pc : ClientPc) :
    ClientPc.coarse stamp pc.woken = ClientPc.coarse stamp pc := by
  unfold ClientPc.woken
  split <;> rfl

theorem writer_coarse_woken (pc : WriterPc) : WriterPc.coarse pc.woken = WriterPc.coarse pc := by
  unfold WriterPc.woken
  split <;> rfl

theorem client_woken_awake (pc : ClientPc) : pc.woken ≠ .flush .blocked := by
  unfold ClientPc.woken
  split
  case h_1 => simp
  case h_2 awake => exact awake

theorem writer_woken_awake (pc : WriterPc) : pc.woken ≠ .wait .blocked := by
  unfold WriterPc.woken
  split
  case h_1 => simp
  case h_2 awake => exact awake

theorem awake_of_not_blocked (sim : Simulates s t) {waiter : Waiter Tid}
    (awake : s.blocked waiter = false) : waiter ∉ t.waiters := by
  rw [sim.waiters, awake]
  exact Bool.false_ne_true

theorem notify_all_simulated (sim : Simulates s t) :
    Simulates s.notifyAll { t with waiters := [] } := by
  refine { sim with
    waiters := fun waiter => ?_
    writer := sim.writer.trans (writer_coarse_woken s.writer).symm
    client := fun tid => ?_ }
  · cases waiter with
    | client tid => simp [blocked, notifyAll, client_woken_awake]
    | writer => simp [blocked, notifyAll, writer_woken_awake]
  · obtain ⟨stamp, same⟩ := sim.client tid
    exact ⟨stamp, same.trans (coarse_woken stamp (s.client tid)).symm⟩

theorem set_l1_simulated (sim : Simulates s t) (key : String) (bin : Bytes) :
    Simulates (s.setL1 key bin) (t.setL1 key bin) :=
  { sim with l1 := by simp [setL1, CacheAsyncModel.CacheStoreAsync.setL1, sim.l1] }

/-- The clients are as they were, so only the writer may get blocked or woken. -/
theorem writer_waiters (sim : Simulates s t) {pc : WriterPc} (awake : s.writer ≠ .wait .blocked)
    (stays : pc ≠ .wait .blocked) (waiter : Waiter Tid) :
    waiter ∈ t.waiters ↔ blocked { s with writer := pc } waiter = true := by
  refine (sim.waiters waiter).trans ?_
  cases waiter with
  | client tid => rfl
  | writer => simp [blocked, awake, stays]

variable [DecidableEq Tid]

theorem goto_simulated (sim : Simulates s t) {tid : Tid} {pc : ClientPc} (stamp : Nat)
    (awake : s.client tid ≠ .flush .blocked) (stays : pc ≠ .flush .blocked) :
    Simulates (s.goto tid pc) (t.goto tid (ClientPc.coarse stamp pc)) := by
  refine { sim with waiters := fun waiter => ?_, client := fun other => ?_ }
  · refine (sim.waiters waiter).trans ?_
    cases waiter with
    | client other =>
        by_cases same : other = tid
        · simp [blocked, goto, same, awake, stays]
        · simp [blocked, goto, same]
    | writer => rfl
  · by_cases same : other = tid
    · refine ⟨stamp, ?_⟩
      simp [goto, CacheAsyncModel.CacheStoreAsync.goto, same]
    · obtain ⟨stamp, before⟩ := sim.client other
      refine ⟨stamp, ?_⟩
      simpa [goto, CacheAsyncModel.CacheStoreAsync.goto, same] using before

theorem finish_simulated (sim : Simulates s t) {tid : Tid} (awake : s.client tid ≠ .flush .blocked)
    (call : Call) (result : Option Bytes) :
    Simulates (s.finish tid call result) (t.finish tid call result) := by
  have idle : Simulates (s.goto tid .idle) (t.goto tid .idle) :=
    goto_simulated sim 0 awake (by simp)
  refine { idle with history := ?_ }
  simp [finish, CacheAsyncModel.CacheStoreAsync.finish, sim.history]

/-- Evaluating a false predicate with `qm_` held is not a step of the coarse model. -/
theorem client_waits_simulated (sim : Simulates s t) {tid : Tid}
    (pc : s.client tid = .flush .evaluate) :
    Simulates ({ s with qm := some (.client tid) }.goto tid (.flush .block)) t := by
  refine { sim with waiters := fun waiter => ?_, client := fun other => ?_ }
  · refine (sim.waiters waiter).trans ?_
    cases waiter with
    | client other =>
        by_cases same : other = tid
        · simp [blocked, goto, same, pc]
        · simp [blocked, goto, same]
    | writer => rfl
  · obtain ⟨stamp, before⟩ := sim.client other
    refine ⟨stamp, before.trans ?_⟩
    by_cases same : other = tid
    · simp [goto, same, pc, ClientPc.coarse]
    · simp [goto, same]

/-- The thread blocks: the coarse model evaluates the predicate now. -/
theorem client_blocks_simulated (sim : Simulates s t) {tid : Tid}
    (pc : s.client tid = .flush .block) :
    Simulates ({ s with qm := none }.goto tid (.flush .blocked))
      { t with waiters := t.waiters ++ [.client tid] } := by
  refine { sim with waiters := fun waiter => ?_, client := fun other => ?_ }
  · rw [List.mem_append, List.mem_singleton, sim.waiters waiter]
    cases waiter with
    | client other =>
        by_cases same : other = tid
        · simp [blocked, goto, same]
        · simp [blocked, goto, same]
    | writer => simp [blocked, goto]
  · obtain ⟨stamp, before⟩ := sim.client other
    refine ⟨stamp, before.trans ?_⟩
    by_cases same : other = tid
    · simp [goto, same, pc, ClientPc.coarse]
    · simp [goto, same]

theorem wake_simulated (sim : Simulates s t) {waiter : Waiter Tid} :
    Simulates (s.wake waiter) { t with waiters := t.waiters.filter (· ≠ waiter) } := by
  cases waiter with
  | client tid =>
      refine { sim with waiters := fun other => ?_, client := fun other => ?_ }
      · rw [List.mem_filter, sim.waiters other]
        cases other with
        | client other =>
            by_cases same : other = tid
            · simp [blocked, wake, goto, same, client_woken_awake]
            · simp [blocked, wake, goto, same]
        | writer => simp [blocked, wake, goto]
      · obtain ⟨stamp, before⟩ := sim.client other
        refine ⟨stamp, before.trans ?_⟩
        by_cases same : other = tid
        · simp [wake, goto, same, coarse_woken]
        · simp [wake, goto, same]
  | writer =>
      refine { sim with
        waiters := fun other => ?_
        writer := sim.writer.trans (writer_coarse_woken s.writer).symm }
      rw [List.mem_filter, sim.waiters other]
      cases other with
      | client other => simp [blocked, wake]
      | writer => simp [blocked, wake, writer_woken_awake]

theorem notified_simulated (sim : Simulates s t) {woken : Option (Waiter Tid)}
    (blocked : ∀ waiter ∈ woken, s.blocked waiter = true)
    (nobody : woken = none → ∀ waiter, s.blocked waiter = false) :
    ∃ next, t.notifyOne woken = some next ∧ Simulates (notified s woken) next := by
  cases woken with
  | none =>
      have empty : t.waiters = [] := by
        rw [List.eq_nil_iff_forall_not_mem]
        intro waiter member
        rw [sim.waiters, nobody rfl waiter] at member
        cases member
      exact ⟨t, by simp [CacheAsyncModel.CacheStoreAsync.notifyOne, empty], sim⟩
  | some waiter =>
      have member : waiter ∈ t.waiters := (sim.waiters waiter).mpr (blocked waiter rfl)
      exact ⟨{ t with waiters := t.waiters.filter (· ≠ waiter) },
        by simp [CacheAsyncModel.CacheStoreAsync.notifyOne, member], wake_simulated sim⟩

theorem notified_awake (woken : Option (Waiter Tid)) {tid : Tid}
    (awake : s.client tid ≠ .flush .blocked) :
    (notified s woken).client tid ≠ .flush .blocked := by
  cases woken with
  | none => exact awake
  | some waiter =>
      cases waiter with
      | client other =>
          by_cases same : tid = other
          · simp [notified, wake, same, client_woken_awake]
          · simpa [notified, wake, same] using awake
      | writer => exact awake

theorem call_simulated (sim : Simulates s t) {tid : Tid} (call : Call)
    (pc : s.client tid = .idle) :
    ∃ next, t.callStep tid call = some next ∧ Simulates (s.goto tid (entry call)) next := by
  obtain ⟨stamp, coarse⟩ := sim.client tid
  rw [pc] at coarse
  refine ⟨{ t with
    client := Function.update t.client tid { pc := call.entry, started := t.clock } }, ?_, ?_⟩
  · simp [CacheAsyncModel.CacheStoreAsync.callStep, coarse, ClientPc.coarse]
  have awake : entry call ≠ .flush .blocked := by cases call <;> simp [entry]
  have entered : ClientPc.coarse stamp (entry call) = call.entry := by cases call <;> rfl
  have went : Simulates (s.goto tid (entry call))
      (t.goto tid (ClientPc.coarse stamp (entry call))) :=
    goto_simulated sim stamp (by simp [pc]) awake
  refine { went with client := fun other => ?_ }
  by_cases same : other = tid
  · exact ⟨stamp, by simp [same, entered]⟩
  · obtain ⟨stamp, before⟩ := sim.client other
    exact ⟨stamp, by simpa [same] using before⟩

/-- The predicate of a flush that blocks is still false, as `qm_` was held. -/
theorem flush_blocks_simulated (sim : Simulates s t) (held : Held s) {tid : Tid}
    (pc : s.client tid = .flush .block) :
    ∃ next, t.clientStep tid = some next ∧
      Simulates ({ s with qm := none }.goto tid (.flush .blocked)) next := by
  have awake : .client tid ∉ t.waiters := awake_of_not_blocked sim (by simp [blocked, pc])
  have pending := (held.client tid pc).2
  rw [← sim.q, ← sim.busy] at pending
  refine ⟨_, ?_, client_blocks_simulated sim pc⟩
  obtain ⟨stamp, coarse⟩ := sim.client tid
  rw [pc] at coarse
  simp only [CacheAsyncModel.CacheStoreAsync.clientStep, coarse, ClientPc.coarse]
  rw [if_neg awake, if_neg pending]

theorem client_simulated (sim : Simulates s t) (held : Held s) (jobs : StorableJobs s)
    {tid : Tid} {after : CacheStoreAsync Tid} (moves : ClientMoves s tid after) :
    Simulates after t ∨ ∃ next, t.clientStep tid = some next ∧ Simulates after next := by
  obtain ⟨stamp, coarse⟩ := sim.client tid
  have plain : ∀ {key : String}, s.client tid = .getDisk key → Plain key :=
    fun pc => jobs.client tid (.get _) (by rw [pc]; rfl)
  cases moves with
  | lookupHit key bin pc found =>
      rw [pc] at coarse
      have hit : Simulates { s with l1Hits := s.l1Hits + 1 } { t with l1Hits := t.l1Hits + 1 } :=
        { sim with l1Hits := by simp [sim.l1Hits] }
      refine .inr ⟨_, ?_, finish_simulated hit (by simp [pc]) (.get key) (some bin)⟩
      simp [CacheAsyncModel.CacheStoreAsync.clientStep, coarse, ClientPc.coarse, sim.l1, found]
  | lookupMiss key pc missed =>
      rw [pc] at coarse
      refine .inr ⟨_, ?_, goto_simulated sim stamp (by simp [pc]) (by simp)⟩
      simp [CacheAsyncModel.CacheStoreAsync.clientStep, coarse, ClientPc.coarse, sim.l1, missed]
  | diskHit key bin pc found =>
      rw [pc] at coarse
      refine .inr ⟨_, ?_, goto_simulated sim stamp (by simp [pc]) (by simp)⟩
      simp [CacheAsyncModel.CacheStoreAsync.clientStep, coarse, ClientPc.coarse,
        sim.disk key (plain pc), found]
  | diskMiss key pc missed =>
      rw [pc] at coarse
      refine .inr ⟨_, ?_, finish_simulated sim (by simp [pc]) (.get key) none⟩
      simp [CacheAsyncModel.CacheStoreAsync.clientStep, coarse, ClientPc.coarse,
        sim.disk key (plain pc), missed]
  | promote key bin pc =>
      rw [pc] at coarse
      refine .inr ⟨_, ?_, finish_simulated (set_l1_simulated sim key bin) (by simp [setL1, pc])
        (.get key) (some bin)⟩
      simp [CacheAsyncModel.CacheStoreAsync.clientStep, coarse, ClientPc.coarse]
  | store key bin pc =>
      rw [pc] at coarse
      refine .inr ⟨_, ?_, goto_simulated (set_l1_simulated sim key bin) t.clock
        (by simp [setL1, pc]) (by simp)⟩
      simp [CacheAsyncModel.CacheStoreAsync.clientStep, coarse, ClientPc.coarse]
  | queue key bin pc unlocked =>
      rw [pc] at coarse
      have pushed : Simulates { s with q := s.q ++ [(key, bin)] }
          { t with q := t.q ++ [(key, bin)] } := { sim with q := by simp [sim.q] }
      refine .inr ⟨_, ?_, goto_simulated pushed stamp (by simp [pc]) (by simp)⟩
      simp [CacheAsyncModel.CacheStoreAsync.clientStep, coarse, ClientPc.coarse]
  | count key bin pc =>
      rw [pc] at coarse
      have counted : Simulates { s with writesQueued := s.writesQueued + 1 }
          { t with writesQueued := t.writesQueued + 1 } :=
        { sim with writesQueued := by simp [sim.writesQueued] }
      refine .inr ⟨_, ?_, goto_simulated counted stamp (by simp [pc]) (by simp)⟩
      simp [CacheAsyncModel.CacheStoreAsync.clientStep, coarse, ClientPc.coarse]
  | flushed pc unlocked empty done =>
      have awake : .client tid ∉ t.waiters := awake_of_not_blocked sim (by simp [blocked, pc])
      rw [pc] at coarse
      refine .inr ⟨_, ?_, finish_simulated sim (by simp [pc]) .flush none⟩
      simp [CacheAsyncModel.CacheStoreAsync.clientStep, coarse, ClientPc.coarse, awake, sim.q,
        sim.busy, empty, done]
  | waits pc unlocked pending => exact .inl (client_waits_simulated sim pc)
  | blocks pc => exact .inr (flush_blocks_simulated sim held pc)

theorem writer_blocks_simulated (sim : Simulates s t) (held : Held s)
    (pc : s.writer = .wait .block) :
    ∃ next, t.writerStep = some next ∧
      Simulates { s with qm := none, writer := .wait .blocked } next := by
  have awake : .writer ∉ t.waiters := awake_of_not_blocked sim (by simp [blocked, pc])
  obtain ⟨-, empty, running⟩ := held.writer pc
  have coarse := sim.writer
  rw [pc] at coarse
  refine ⟨{ t with waiters := t.waiters ++ [.writer] }, ?_, { sim with
    writer := coarse, waiters := fun waiter => ?_ }⟩
  · simp [CacheAsyncModel.CacheStoreAsync.writerStep, coarse, WriterPc.coarse, awake, sim.q,
      sim.stop, empty, running]
  · rw [List.mem_append, List.mem_singleton, sim.waiters waiter]
    cases waiter with
    | client tid => simp [blocked]
    | writer => simp [blocked]

theorem write_simulated (sim : Simulates s t) (jobs : StorableJobs s) {job : String × Bytes}
    {disk : Directory String} (pc : s.writer = .writing job)
    (done : CacheStoreModel.put s.disk job.1 job.2 = some disk) :
    ∃ next, t.writerStep = some next ∧ Simulates { s with disk, writer := .written } next := by
  obtain ⟨plain, small⟩ := jobs.writing job pc
  have coarse := sim.writer
  rw [pc] at coarse
  refine ⟨{ t with disk := Function.update t.disk job.1 (some job.2), writer := .written }, ?_,
    { sim with
      disk := fun key keyPlain => ?_
      writer := rfl
      waiters := writer_waiters sim (by simp [pc]) (by simp) }⟩
  · simp [CacheAsyncModel.CacheStoreAsync.writerStep, coarse, WriterPc.coarse]
  · rw [put_get done plain keyPlain, parse_entry small]
    dsimp only
    rw [Function.update_apply]
    split
    case isTrue => rfl
    case isFalse => exact sim.disk key keyPlain

theorem signal_simulated (sim : Simulates s t) (pc : s.writer = .persisted) :
    ∃ next, t.writerStep = some next ∧
      Simulates { (if s.q = [] then s.notifyAll else s) with
        busy := false, writer := .wait .evaluate } next := by
  have coarse := sim.writer
  rw [pc] at coarse
  refine ⟨{ t with
    busy := false, waiters := if s.q = [] then [] else t.waiters, writer := .waiting }, ?_, ?_⟩
  · simp [CacheAsyncModel.CacheStoreAsync.writerStep, coarse, WriterPc.coarse, sim.q]
  · split
    case isTrue =>
      have woken := notify_all_simulated sim
      refine { woken with busy := rfl, writer := rfl, waiters := fun waiter => ?_ }
      refine (woken.waiters waiter).trans ?_
      cases waiter with
      | client tid => rfl
      | writer => simp [blocked, writer_woken_awake, notifyAll]
    case isFalse =>
      exact { sim with
        busy := rfl, writer := rfl, waiters := writer_waiters sim (by simp [pc]) (by simp) }

theorem writer_simulated (sim : Simulates s t) (held : Held s) (jobs : StorableJobs s)
    {after : CacheStoreAsync Tid} (moves : WriterMoves s after) :
    Simulates after t ∨ ∃ next, t.writerStep = some next ∧ Simulates after next := by
  have coarse := sim.writer
  cases moves with
  | pop job rest pc unlocked queued =>
      have awake : .writer ∉ t.waiters := awake_of_not_blocked sim (by simp [blocked, pc])
      rw [pc] at coarse
      refine .inr ⟨{ t with q := rest, busy := true, writer := .writing job }, ?_, { sim with
        q := rfl, busy := rfl, writer := rfl
        waiters := writer_waiters sim (by simp [pc]) (by simp) }⟩
      simp [CacheAsyncModel.CacheStoreAsync.writerStep, coarse, WriterPc.coarse, awake, sim.q,
        queued]
  | stopped pc unlocked empty stop =>
      have awake : .writer ∉ t.waiters := awake_of_not_blocked sim (by simp [blocked, pc])
      rw [pc] at coarse
      refine .inr ⟨{ t with writer := .returned }, ?_, { sim with
        writer := rfl, waiters := writer_waiters sim (by simp [pc]) (by simp) }⟩
      simp [CacheAsyncModel.CacheStoreAsync.writerStep, coarse, WriterPc.coarse, awake, sim.q,
        sim.stop, empty, stop]
  | waits pc unlocked empty running =>
      rw [pc] at coarse
      exact .inl { sim with
        writer := coarse, waiters := writer_waiters sim (by simp [pc]) (by simp) }
  | blocks pc => exact .inr (writer_blocks_simulated sim held pc)
  | write job disk pc done => exact .inr (write_simulated sim jobs pc done)
  | count pc =>
      rw [pc] at coarse
      refine .inr ⟨{ t with writesPersisted := t.writesPersisted + 1, writer := .persisted }, ?_,
        { sim with
          writesPersisted := by rw [sim.writesPersisted]
          writer := rfl
          waiters := writer_waiters sim (by simp [pc]) (by simp) }⟩
      simp [CacheAsyncModel.CacheStoreAsync.writerStep, coarse, WriterPc.coarse]
  | signal pc unlocked => exact .inr (signal_simulated sim pc)

theorem alive_before {action : Action Tid} {after : CacheStoreAsync Tid}
    (moves : Moves s action after) (alive : after.destructor = .alive) : s.destructor = .alive := by
  cases moves with
  | call tid call before pc => exact before
  | client tid after moves => cases moves <;> exact alive
  | notify tid key bin woken pc blocked nobody =>
      cases woken with
      | none => exact alive
      | some waiter => cases waiter <;> exact alive
  | writer after moves =>
      cases moves with
      | signal pc unlocked =>
          split at alive
          case isTrue => exact alive
          case isFalse => exact alive
      | _ => exact alive
  | destroy before idle => exact before
  | destructor after moves => cases moves <;> cases alive

theorem moves_simulated (sim : Simulates s t) (held : Held s) (jobs : StorableJobs s)
    {action : Action Tid} {after : CacheStoreAsync Tid} (moves : Moves s action after)
    (alive : after.destructor = .alive) :
    Simulates after t ∨ ∃ move next, Action.coarse action = some move ∧
      t.step move = some next ∧ Simulates after next := by
  -- the clock is not observed
  have ticks : ∀ {move : CacheAsyncModel.Action Tid String Bytes} {next : Coarse Tid},
      Action.coarse action = some move → t.act move = some next → Simulates after next →
      ∃ move next, Action.coarse action = some move ∧ t.step move = some next ∧
        Simulates after next := by
    intro move next same acted kept
    refine ⟨move, { next with clock := t.clock + 1 }, same, ?_, { kept with }⟩
    rw [CacheAsyncModel.CacheStoreAsync.step, acted]
    rfl
  cases moves with
  | call tid call before pc =>
      obtain ⟨next, called, kept⟩ := call_simulated sim call pc
      exact .inr (ticks rfl called kept)
  | client tid after moves =>
      rcases client_simulated sim held jobs moves with stutters | ⟨next, moved, kept⟩
      · exact .inl stutters
      · exact .inr (ticks rfl moved kept)
  | notify tid key bin woken pc blocked nobody =>
      obtain ⟨stamp, coarse⟩ := sim.client tid
      rw [pc] at coarse
      obtain ⟨next, woke, kept⟩ := notified_simulated sim blocked nobody
      refine .inr (ticks rfl ?_ (finish_simulated kept ?_ (.put key bin) none))
      · simp [CacheAsyncModel.CacheStoreAsync.act, CacheAsyncModel.CacheStoreAsync.notifyStep,
          coarse, ClientPc.coarse, woke]
      · exact notified_awake woken (by simp [pc])
  | writer after moves =>
      rcases writer_simulated sim held jobs moves with stutters | ⟨next, moved, kept⟩
      · exact .inl stutters
      · exact .inr (ticks rfl moved kept)
  | destroy before idle => cases alive
  | destructor after moves => cases moves <;> cases alive

end Steps

/-! ## Runs -/

theorem create_simulated (disk : Directory String) :
    Simulates (create Tid disk) (CacheAsyncModel.CacheStoreAsync.create Tid (get disk)) where
  l1 := rfl
  disk := fun _ _ => rfl
  q := rfl
  busy := rfl
  stop := rfl
  waiters := fun waiter => by
    cases waiter with
    | client tid => simp [CacheAsyncModel.CacheStoreAsync.create, create, blocked]
    | writer => simp [CacheAsyncModel.CacheStoreAsync.create, create, blocked]
  writer := rfl
  client := fun _ => ⟨0, rfl⟩
  l1Hits := rfl
  writesQueued := rfl
  writesPersisted := rfl
  history := rfl

section Runs

variable [DecidableEq Tid] [Fintype Tid]
  {allowed : CacheStoreAsync Tid → Action Tid → Prop} {disk : Directory String}
  {s : CacheStoreAsync Tid}

theorem reached_held (reached : Reached allowed disk s) (alive : s.destructor = .alive) :
    Held s := by
  refine reaches_invariant (motive := fun s => s.destructor = .alive → Held s) ?_ ?_ reached alive
  · exact fun _ => ⟨fun _ at_block => (nomatch at_block), fun at_block => (nomatch at_block)⟩
  · intro before action after _ held _ moved alive
    have moves := step_moves moved
    exact moves_held (held (alive_before moves alive)) moves alive

theorem reached_storable (storable : ∀ s action, allowed s action → StorableCall action)
    (reached : Reached allowed disk s) : StorableJobs s := by
  refine reaches_invariant ?_ ?_ reached
  · exact ⟨fun _ _ member => (nomatch member), fun _ member => (nomatch member),
      fun _ writing => (nomatch writing)⟩
  · intro before action after _ jobs meets moved
    exact moves_storable jobs (storable before action meets) (step_moves moved)

/-- Until the destructor starts, every run of the finer model is a run of the coarse
one, under every condition that the coarse steps inherit. -/
theorem runs_simulated {coarsely : Coarse Tid → CacheAsyncModel.Action Tid String Bytes → Prop}
    (storable : ∀ s action, allowed s action → StorableCall action)
    (inherits : ∀ s t action move, Simulates s t → allowed s action →
      Action.coarse action = some move → coarsely t move)
    (reached : Reached allowed disk s) (alive : s.destructor = .alive) :
    ∃ t, CacheAsyncModel.CacheStoreAsync.Reached coarsely (get disk) t ∧ Simulates s t := by
  have simulated : ∃ t, CacheAsyncModel.CacheStoreAsync.Reached coarsely (get disk) t ∧
      (s.destructor = .alive → Simulates s t) := by
    refine reaches_simulated (fun s t => s.destructor = .alive → Simulates s t)
      (fun _ => create_simulated disk) ?_ reached
    intro before action after other prior sim meets moved
    by_cases alive : after.destructor = .alive
    · have moves := step_moves moved
      have aliveBefore := alive_before moves alive
      have simBefore := sim aliveBefore
      rcases moves_simulated simBefore (reached_held prior aliveBefore)
          (reached_storable storable prior) moves alive with stutters | answered
      · exact .inl fun _ => stutters
      · obtain ⟨move, next, same, stepped, kept⟩ := answered
        exact .inr ⟨move, next, inherits before other action move simBefore meets same, stepped,
          fun _ => kept⟩
    · exact .inl fun now => absurd now alive
  obtain ⟨t, coarse, sim⟩ := simulated
  exact ⟨t, coarse, sim alive⟩

/-- `notify_one` wakes the writer when the writer is blocked. -/
def WakesWriter (s : CacheStoreAsync Tid) : Action Tid → Prop
  | .notify _ woken => s.writer = .wait .blocked → woken = some .writer
  | _ => True

/-- The wake-ups of the coarse model are not lost in the window between the evaluation of
a predicate and the blocking. -/
theorem blocked_writer_signalled
    (reached : Reached (fun s action => StorableCall action ∧ WakesWriter s action) disk s)
    (alive : s.destructor = .alive) (queued : s.q ≠ []) (asleep : s.writer = .wait .blocked) :
    ∃ tid key bin, s.client tid = .putCount key bin ∨ s.client tid = .putNotify key bin := by
  have blocks : ∀ s : CacheStoreAsync Tid, s.blocked .writer = true ↔ s.writer = .wait .blocked :=
    fun s => by simp [blocked]
  have inherits : ∀ (s : CacheStoreAsync Tid) (t : Coarse Tid) (action : Action Tid)
      (move : CacheAsyncModel.Action Tid String Bytes), Simulates s t →
      StorableCall action ∧ WakesWriter s action → Action.coarse action = some move →
      CacheAsyncWakeups.WakesWriter t move := by
    intro s t action move sim meets same
    cases action with
    | notify tid woken =>
        cases same
        exact fun waits => meets.2 ((blocks s).mp ((sim.waiters .writer).mp waits))
    | call tid call =>
        cases same
        trivial
    | client tid =>
        cases same
        trivial
    | writer =>
        cases same
        trivial
    | destroy => cases same
    | destructor => cases same
  obtain ⟨t, coarse, sim⟩ := runs_simulated (fun _ _ meets => meets.1) inherits reached alive
  have waits : .writer ∈ t.waiters := (sim.waiters .writer).mpr ((blocks s).mpr asleep)
  have stillQueued : t.q ≠ [] := by
    rw [sim.q]
    exact queued
  obtain ⟨tid, signalling⟩ := (CacheAsyncWakeups.reached_signalled coarse).pending stillQueued waits
  obtain ⟨stamp, same⟩ := sim.client tid
  rw [same] at signalling
  cases pc : s.client tid with
  | putCount key bin => exact ⟨tid, key, bin, .inl pc⟩
  | putNotify key bin => exact ⟨tid, key, bin, .inr pc⟩
  | _ => simp [pc, ClientPc.coarse, CacheAsyncWakeups.ClientPc.signalling] at signalling

end Runs

end AmpFormal.CacheAsyncRefinement
