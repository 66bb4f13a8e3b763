import AmpFormal.CacheAsyncShutdownMoves

/-!
# Whether the destructor reaches the writer

`stop_` is assigned and `notify_all` is issued without `qm_`. A writer that has
found its predicate false and has not blocked yet misses both: it blocks after
the only notification, and the destructor joins a thread that nobody wakes. As
long as the notification does not fall into that window, the writer either is
woken by it or evaluates its predicate with `stop_` set.
-/

namespace AmpFormal.CacheAsyncShutdown

open AmpFormal.FileDirectory AmpFormal.TransitionRuns AmpFormal.CacheAsyncShutdownModel
open AmpFormal.CacheAsyncShutdownModel.CacheStoreAsync AmpFormal.CacheAsyncShutdownMoves

set_option autoImplicit false

variable {Tid : Type}

/-- The destructor waits in `join`, nobody is left to notify, the writer is
blocked. -/
def Stranded (s : CacheStoreAsync Tid) : Prop :=
  s.destructor = .join ∧ (∀ tid, s.client tid = .idle) ∧ s.writer = .wait .blocked

/-- The destructor does not notify while the writer is between its evaluation of
a false predicate and its blocking. -/
def NotifiesWaiter (s : CacheStoreAsync Tid) : Action Tid → Prop
  | .destructor => s.destructor = .notifyAll → s.writer ≠ .wait .block
  | _ => True

instance notifiesWaiterDecidable (s : CacheStoreAsync Tid) :
    ∀ action, Decidable (NotifiesWaiter s action)
  | .destructor => inferInstanceAs (Decidable (_ → _))
  | .call _ _ | .client _ | .notify _ _ | .writer | .destroy => inferInstanceAs (Decidable True)

def Announced (s : CacheStoreAsync Tid) : Prop :=
  match s.destructor with
  | .alive | .setStop => True
  | .notifyAll => s.stop = true
  | .join | .returned =>
      s.stop = true ∧ s.writer ≠ .wait .block ∧ s.writer ≠ .wait .blocked

theorem announced_of_same {s after : CacheStoreAsync Tid} (announced : Announced s)
    (destructor : after.destructor = s.destructor) (stop : after.stop = s.stop)
    (writer : after.writer = s.writer) : Announced after := by
  unfold Announced at announced ⊢
  rw [destructor, stop, writer]
  exact announced

theorem announced_of_awake {s after : CacheStoreAsync Tid} (announced : Announced s)
    (destructor : after.destructor = s.destructor) (stop : after.stop = s.stop)
    (awake : after.writer ≠ .wait .block ∧ after.writer ≠ .wait .blocked) : Announced after := by
  unfold Announced at announced ⊢
  rw [destructor, stop]
  cases pc : s.destructor with
  | alive => trivial
  | setStop => trivial
  | notifyAll =>
      rw [pc] at announced
      exact announced
  | join =>
      rw [pc] at announced
      exact ⟨announced.1, awake⟩
  | returned =>
      rw [pc] at announced
      exact ⟨announced.1, awake⟩

theorem writer_announced {s after : CacheStoreAsync Tid} (announced : Announced s)
    (moves : WriterMoves s after) : Announced after := by
  cases moves with
  | pop job rest pc unlocked queued => exact announced_of_awake announced rfl rfl (by simp)
  | stopped pc unlocked empty stop => exact announced_of_awake announced rfl rfl (by simp)
  | waits pc unlocked empty running =>
      -- the predicate is false only while `stop_` is not set
      unfold Announced at announced ⊢
      dsimp only
      cases at_step : s.destructor with
      | alive => trivial
      | setStop => trivial
      | notifyAll => simp [at_step, running] at announced
      | join => simp [at_step, running] at announced
      | returned => simp [at_step, running] at announced
  | blocks pc =>
      unfold Announced at announced ⊢
      dsimp only
      cases at_step : s.destructor with
      | alive => trivial
      | setStop => trivial
      | notifyAll =>
          rw [at_step] at announced
          exact announced
      | join => simp [at_step, pc] at announced
      | returned => simp [at_step, pc] at announced
  | write job disk pc done => exact announced_of_awake announced rfl rfl (by simp)
  | count pc => exact announced_of_awake announced rfl rfl (by simp)
  | signal pc unlocked =>
      split
      case isTrue => exact announced_of_awake announced rfl rfl (by simp)
      case isFalse => exact announced_of_awake announced rfl rfl (by simp)

variable [DecidableEq Tid]

theorem wake_announced {s : CacheStoreAsync Tid} (announced : Announced s)
    (woken : Option (CacheAsyncModel.Waiter Tid)) : Announced (notified s woken) := by
  cases woken with
  | none => exact announced
  | some waiter =>
      cases waiter with
      | client tid => exact announced_of_same announced rfl rfl rfl
      | writer =>
          by_cases asleep : s.writer = .wait .blocked
          · refine announced_of_awake announced rfl rfl ?_
            simp [notified, wake, asleep, WriterPc.woken]
          · refine announced_of_same announced rfl rfl ?_
            unfold notified wake WriterPc.woken
            dsimp only
            split
            case h_1 same => exact absurd same asleep
            case h_2 => rfl

theorem moves_announced {s after : CacheStoreAsync Tid} {action : Action Tid}
    (announced : Announced s) (meets : NotifiesWaiter s action) (moves : Moves s action after) :
    Announced after := by
  cases moves with
  | call tid call alive pc => exact announced_of_same announced rfl rfl rfl
  | client tid after moves =>
      cases moves <;> exact announced_of_same announced rfl rfl rfl
  | notify tid key bin woken pc blocked nobody =>
      exact announced_of_same (wake_announced announced woken) rfl rfl rfl
  | writer after moves => exact writer_announced announced moves
  | destroy alive idle => trivial
  | destructor after moves =>
      cases moves with
      | setStop pc => exact rfl
      | notifyAll pc =>
          have window : s.writer ≠ .wait .block := meets pc
          unfold Announced at announced ⊢
          rw [pc] at announced
          refine ⟨announced, ?_, ?_⟩
          · simp only [CacheStoreAsync.notifyAll, WriterPc.woken]
            split
            case h_1 => simp
            case h_2 => exact window
          · simp only [CacheStoreAsync.notifyAll, WriterPc.woken]
            split
            case h_1 => simp
            case h_2 awake => exact awake
      | join pc exited =>
          unfold Announced at announced ⊢
          rw [pc] at announced
          exact announced

variable [Fintype Tid]

theorem reached_announced {disk : Directory String} {s : CacheStoreAsync Tid}
    (reached : Reached NotifiesWaiter disk s) : Announced s := by
  refine reaches_invariant trivial ?_ reached
  intro before action after _ announced meets moved
  exact moves_announced announced meets (step_moves moved)

/-- In a run whose destructor notifies outside of the window, the writer is never
left blocked behind the notification. -/
theorem shutdown_reaches_writer {disk : Directory String} {s : CacheStoreAsync Tid}
    (reached : Reached NotifiesWaiter disk s) : ¬Stranded s := by
  rintro ⟨joining, -, asleep⟩
  have announced := reached_announced reached
  unfold Announced at announced
  rw [joining] at announced
  exact announced.2.2 asleep

def blockedThenDestroyed : List (Action Bool) :=
  [.writer, .writer, .destroy, .destructor, .destructor]

theorem shutdown_reaches_writer_blocked :
    ¬Stranded ((runCalls step NotifiesWaiter (create Bool (Directory.empty String))
      blockedThenDestroyed).get (by decide)) :=
  shutdown_reaches_writer (reaches_of_run_get blockedThenDestroyed (by decide))

/-- Once the notification falls into the window, the next step of the writer
strands the destructor. -/
theorem notified_in_window_strands {s : CacheStoreAsync Tid} (notifying : s.destructor = .notifyAll)
    (window : s.writer = .wait .block) (idle : ∀ tid, s.client tid = .idle) :
    ∃ middle after, s.step .destructor = some middle ∧ middle.step .writer = some after ∧
      Stranded after := by
  refine ⟨{ s.notifyAll with destructor := .join },
    { s.notifyAll with destructor := .join, qm := none, writer := .wait .blocked }, ?_, ?_, ?_⟩
  · simp only [step, destructorStep, notifying]
  · simp only [step, writerStep, CacheStoreAsync.notifyAll, window, WriterPc.woken]
  · refine ⟨rfl, fun tid => ?_, rfl⟩
    simp [CacheStoreAsync.notifyAll, idle tid, ClientPc.woken]

/-- The writer has evaluated its predicate when the destructor sets `stop_` and
notifies, and blocks for good. -/
theorem writer_misses_shutdown :
    ∃ s : CacheStoreAsync Bool,
      Reached (fun _ _ => True) (Directory.empty String) s ∧ Stranded s := by
  refine ⟨_, reaches_of_run_get [.writer, .destroy, .destructor, .destructor, .writer] (by decide),
    ?_⟩
  unfold Stranded
  decide

end AmpFormal.CacheAsyncShutdown
