import AmpFormal.CacheAsyncMoves
import Mathlib.Data.Fintype.Basic

/-!
# Who consumes a notification

`put` and `flush` share one condition variable with the writer. A put notifies
after it has released the queue, so a flush may have blocked by then and consume
the notification; it finds its predicate false and blocks again, and the writer
sleeps on. As long as a notification goes to the writer whenever the writer is
blocked, a job in the queue of a blocked writer has a put behind it that has not
notified yet.
-/

namespace AmpFormal.CacheAsyncWakeups

open AmpFormal.TransitionRuns AmpFormal.CacheAsyncModel AmpFormal.CacheAsyncModel.CacheStoreAsync
open AmpFormal.CacheAsyncMoves

set_option autoImplicit false

variable {Tid K V : Type}

/-- A client is not in a call, or blocked in `flush()`. -/
def Resting (s : CacheStoreAsync Tid K V) (tid : Tid) : Prop :=
  (s.client tid).pc = .idle ∨ ((s.client tid).pc = .flushWait ∧ .client tid ∈ s.waiters)

/-- A job is in the queue and nobody will wake the writer. -/
def Stuck (s : CacheStoreAsync Tid K V) : Prop :=
  s.q ≠ [] ∧ .writer ∈ s.waiters ∧ ∀ tid, Resting s tid

/-- `notify_one` wakes the writer when the writer is blocked. -/
def WakesWriter (s : CacheStoreAsync Tid K V) : Action Tid K V → Prop
  | .notify _ woken => .writer ∈ s.waiters → woken = some .writer
  | _ => True

instance wakesWriterDecidable [DecidableEq Tid] (s : CacheStoreAsync Tid K V) :
    ∀ action, Decidable (WakesWriter s action)
  | .notify _ _ => inferInstanceAs (Decidable (_ → _))
  | .call _ _ | .client _ | .writer => inferInstanceAs (Decidable True)

def ClientPc.signalling : ClientPc K V → Bool
  | .putCount _ _ | .putNotify _ _ => true
  | _ => false

structure Signalled (s : CacheStoreAsync Tid K V) : Prop where
  waits : .writer ∈ s.waiters → s.writer = .waiting
  pending : s.q ≠ [] → .writer ∈ s.waiters →
    ∃ tid, ClientPc.signalling (s.client tid).pc = true

/-- A client outside of the stretch may do anything that leaves the queue, the
waiters and the writer as they are. -/
theorem bystander_signalled {s after : CacheStoreAsync Tid K V} {tid : Tid}
    (signalled : Signalled s) (outside : ClientPc.signalling (s.client tid).pc = false)
    (q : after.q = s.q) (waiters : after.waiters = s.waiters) (writer : after.writer = s.writer)
    (others : ∀ other, other ≠ tid → after.client other = s.client other) : Signalled after := by
  refine ⟨?_, ?_⟩
  · rw [waiters, writer]
    exact signalled.waits
  · rw [q, waiters]
    intro queued blocked
    obtain ⟨other, holds⟩ := signalled.pending queued blocked
    refine ⟨other, ?_⟩
    rw [others other fun same => by simp [same, outside] at holds]
    exact holds

variable [DecidableEq K]

theorem writer_signalled {s after : CacheStoreAsync Tid K V} (signalled : Signalled s)
    (moves : WriterMoves s after) : Signalled after := by
  have asleep : ∀ pc, s.writer = pc → pc ≠ .waiting → .writer ∉ s.waiters :=
    fun pc now awake blocked => awake (now.symm.trans (signalled.waits blocked))
  cases moves with
  | pop job rest pc awake queued =>
      exact ⟨fun blocked => absurd blocked awake, fun _ blocked => absurd blocked awake⟩
  | stopped pc awake empty stop =>
      exact ⟨fun blocked => absurd blocked awake, fun _ blocked => absurd blocked awake⟩
  | blocked pc awake empty running => exact ⟨fun _ => pc, fun queued => absurd empty queued⟩
  | write job pc =>
      have awake := asleep _ pc (by simp)
      exact ⟨fun blocked => absurd blocked awake, fun _ blocked => absurd blocked awake⟩
  | count pc =>
      have awake := asleep _ pc (by simp)
      exact ⟨fun blocked => absurd blocked awake, fun _ blocked => absurd blocked awake⟩
  | signal pc =>
      refine ⟨fun _ => rfl, fun queued blocked => ?_⟩
      rw [if_neg queued] at blocked
      exact absurd blocked (asleep _ pc (by simp))

variable [DecidableEq Tid]

theorem client_signalled {s after : CacheStoreAsync Tid K V} {tid : Tid} (signalled : Signalled s)
    (moves : ClientMoves s tid after) : Signalled after := by
  have others : ∀ (next : Client K V) other, other ≠ tid →
      Function.update s.client tid next other = s.client other :=
    fun next other different => Function.update_of_ne different _ _
  cases moves with
  | lookupHit key bin pc found =>
      exact bystander_signalled signalled (by rw [pc]; rfl) rfl rfl rfl (others _)
  | lookupMiss key pc missed =>
      exact bystander_signalled signalled (by rw [pc]; rfl) rfl rfl rfl (others _)
  | diskHit key bin pc found =>
      exact bystander_signalled signalled (by rw [pc]; rfl) rfl rfl rfl (others _)
  | diskMiss key pc missed =>
      exact bystander_signalled signalled (by rw [pc]; rfl) rfl rfl rfl (others _)
  | promote key bin pc =>
      exact bystander_signalled signalled (by rw [pc]; rfl) rfl rfl rfl (others _)
  | store key bin pc =>
      exact bystander_signalled signalled (by rw [pc]; rfl) rfl rfl rfl (others _)
  | queue key bin stamp pc =>
      exact ⟨signalled.waits, fun _ _ => ⟨tid, by simp [goto, ClientPc.signalling]⟩⟩
  | count key bin pc =>
      exact ⟨signalled.waits, fun _ _ => ⟨tid, by simp [goto, ClientPc.signalling]⟩⟩
  | flushed pc awake empty done =>
      exact bystander_signalled signalled (by rw [pc]; rfl) rfl rfl rfl (others _)
  | blocked pc awake pending =>
      refine ⟨fun blocked => signalled.waits ?_, fun queued blocked => signalled.pending queued ?_⟩
      all_goals simpa using blocked

theorem moves_signalled {s after : CacheStoreAsync Tid K V} {action : Action Tid K V}
    (signalled : Signalled s) (wakes : WakesWriter s action) (moves : Moves s action after) :
    Signalled after := by
  cases moves with
  | call tid call pc =>
      exact bystander_signalled signalled (by rw [pc]; rfl) rfl rfl rfl
        fun other different => Function.update_of_ne different _ _
  | client tid after moves => exact client_signalled signalled moves
  | notify tid key bin woken pc blocked nobody =>
      -- the writer is not blocked any more
      have woke : .writer ∉ s.waiters.filter fun waiter => some waiter ≠ woken := by
        intro still
        obtain ⟨asleep, other⟩ := List.mem_filter.mp still
        simp [wakes asleep] at other
      exact ⟨fun still => absurd still woke, fun _ still => absurd still woke⟩
  | writer after moves => exact writer_signalled signalled moves

theorem reached_signalled {disk : K → Option V} {s : CacheStoreAsync Tid K V}
    (reached : Reached WakesWriter disk s) : Signalled s := by
  refine reaches_invariant ⟨fun blocked => (nomatch blocked), fun queued => absurd rfl queued⟩
    ?_ reached
  intro before action after _ holds wakes moved
  obtain ⟨middle, moves, rfl⟩ := step_moves moved
  have next := moves_signalled holds wakes moves
  exact ⟨next.waits, next.pending⟩

/-- In a run whose notifications wake the writer whenever it is blocked, no job is
left behind in the queue of a blocked writer with every client at rest. -/
theorem no_lost_wake_up {disk : K → Option V} {s : CacheStoreAsync Tid K V}
    (reached : Reached WakesWriter disk s) : ¬Stuck s := by
  rintro ⟨queued, blocked, resting⟩
  obtain ⟨tid, holds⟩ := (reached_signalled reached).pending queued blocked
  rcases resting tid with idle | ⟨waiting, -⟩
  · simp [idle, ClientPc.signalling] at holds
  · simp [waiting, ClientPc.signalling] at holds

/-- The writer blocks, a put pushes a job, a flush blocks, and the put notifies. -/
def putDuringFlush (woken : Waiter Bool) : List (Action Bool Nat Nat) :=
  [.writer, .call true (.put 0 7), .client true, .client true, .call false .flush, .client false,
    .client true, .notify true (some woken)]

theorem no_lost_wake_up_put_during_flush :
    ¬Stuck ((runCalls step WakesWriter (create Bool fun _ => none)
      (putDuringFlush .writer)).get (by decide)) :=
  no_lost_wake_up (reaches_of_run_get (putDuringFlush .writer) (by decide))

/-- The flush consumes the notification of the put and blocks again. -/
theorem flush_consumes_notification :
    ∃ s : CacheStoreAsync Bool Nat Nat, Reached (fun _ _ => True) (fun _ => none) s ∧ Stuck s := by
  refine ⟨_, reaches_of_run_get (putDuringFlush (.client false) ++ [.client false]) (by decide), ?_⟩
  refine ⟨by decide, by decide, ?_⟩
  unfold Resting
  decide

end AmpFormal.CacheAsyncWakeups
