import AmpFormal.CacheAsyncShutdownModel

/-!
# The moves of the asynchronous cache with its destructor

One rule for each step, with what it requires and the state it leaves.
-/

namespace AmpFormal.CacheAsyncShutdownMoves

open AmpFormal.FileDirectory AmpFormal.CacheAsyncShutdownModel
open AmpFormal.CacheAsyncShutdownModel.CacheStoreAsync
open AmpFormal.CacheAsyncModel (Waiter)

set_option autoImplicit false

variable {Tid : Type}

inductive WriterMoves (s : CacheStoreAsync Tid) : CacheStoreAsync Tid → Prop
  | pop (job : String × Bytes) (rest : List (String × Bytes)) (pc : s.writer = .wait .evaluate)
      (unlocked : s.qm = none) (queued : s.q = job :: rest) :
      WriterMoves s { s with q := rest, busy := true, writer := .writing job }
  | stopped (pc : s.writer = .wait .evaluate) (unlocked : s.qm = none) (empty : s.q = [])
      (stop : s.stop = true) : WriterMoves s { s with writer := .returned }
  | waits (pc : s.writer = .wait .evaluate) (unlocked : s.qm = none) (empty : s.q = [])
      (running : s.stop = false) :
      WriterMoves s { s with qm := some .writer, writer := .wait .block }
  | blocks (pc : s.writer = .wait .block) :
      WriterMoves s { s with qm := none, writer := .wait .blocked }
  | write (job : String × Bytes) (disk : Directory String) (pc : s.writer = .writing job)
      (done : CacheStoreModel.put s.disk job.1 job.2 = some disk) :
      WriterMoves s { s with disk, writer := .written }
  | count (pc : s.writer = .written) :
      WriterMoves s { s with writesPersisted := s.writesPersisted + 1, writer := .persisted }
  | signal (pc : s.writer = .persisted) (unlocked : s.qm = none) :
      WriterMoves s
        { (if s.q = [] then s.notifyAll else s) with busy := false, writer := .wait .evaluate }

theorem writer_moves {s s' : CacheStoreAsync Tid}
    (moved : s.writerStep = some s') : WriterMoves s s' := by
  unfold writerStep at moved
  split at moved
  case h_1 pc =>
    split at moved
    case isTrue => cases moved
    case isFalse unlocked =>
      rw [not_not] at unlocked
      split at moved
      case h_1 job rest queued =>
        cases moved
        exact .pop job rest pc unlocked queued
      case h_2 empty =>
        split at moved
        case isTrue stop =>
          cases moved
          exact .stopped pc unlocked empty stop
        case isFalse running =>
          cases moved
          exact .waits pc unlocked empty (Bool.eq_false_iff.mpr running)
  case h_2 pc =>
    cases moved
    exact .blocks pc
  case h_3 => cases moved
  case h_4 job pc =>
    obtain ⟨disk, done, rfl⟩ := Option.map_eq_some_iff.mp moved
    exact .write job disk pc done
  case h_5 pc =>
    cases moved
    exact .count pc
  case h_6 pc =>
    split at moved
    case isTrue => cases moved
    case isFalse unlocked =>
      cases moved
      exact .signal pc (not_not.mp unlocked)
  case h_7 => cases moved

inductive DestructorMoves (s : CacheStoreAsync Tid) : CacheStoreAsync Tid → Prop
  | setStop (pc : s.destructor = .setStop) :
      DestructorMoves s { s with stop := true, destructor := .notifyAll }
  | notifyAll (pc : s.destructor = .notifyAll) :
      DestructorMoves s { s.notifyAll with destructor := .join }
  | join (pc : s.destructor = .join) (exited : s.writer = .returned) :
      DestructorMoves s { s with destructor := .returned }

theorem destructor_moves {s s' : CacheStoreAsync Tid} (moved : s.destructorStep = some s') :
    DestructorMoves s s' := by
  unfold destructorStep at moved
  split at moved
  case h_1 => cases moved
  case h_2 pc =>
    cases moved
    exact .setStop pc
  case h_3 pc =>
    cases moved
    exact .notifyAll pc
  case h_4 pc =>
    split at moved
    case isTrue exited =>
      cases moved
      exact .join pc exited
    case isFalse => cases moved
  case h_5 => cases moved

variable [DecidableEq Tid]

inductive ClientMoves (s : CacheStoreAsync Tid) (tid : Tid) : CacheStoreAsync Tid → Prop
  | lookupHit (key : String) (bin : Bytes) (pc : s.client tid = .getLookup key)
      (found : s.l1 key = some bin) :
      ClientMoves s tid ({ s with l1Hits := s.l1Hits + 1 }.finish tid (.get key) (some bin))
  | lookupMiss (key : String) (pc : s.client tid = .getLookup key) (missed : s.l1 key = none) :
      ClientMoves s tid (s.goto tid (.getDisk key))
  | diskHit (key : String) (bin : Bytes) (pc : s.client tid = .getDisk key)
      (found : CacheStoreModel.get s.disk key = some bin) :
      ClientMoves s tid (s.goto tid (.getPromote key bin))
  | diskMiss (key : String) (pc : s.client tid = .getDisk key)
      (missed : CacheStoreModel.get s.disk key = none) :
      ClientMoves s tid (s.finish tid (.get key) none)
  | promote (key : String) (bin : Bytes) (pc : s.client tid = .getPromote key bin) :
      ClientMoves s tid ((s.setL1 key bin).finish tid (.get key) (some bin))
  | store (key : String) (bin : Bytes) (pc : s.client tid = .putStore key bin) :
      ClientMoves s tid ((s.setL1 key bin).goto tid (.putQueue key bin))
  | queue (key : String) (bin : Bytes) (pc : s.client tid = .putQueue key bin)
      (unlocked : s.qm = none) :
      ClientMoves s tid ({ s with q := s.q ++ [(key, bin)] }.goto tid (.putCount key bin))
  | count (key : String) (bin : Bytes) (pc : s.client tid = .putCount key bin) :
      ClientMoves s tid
        ({ s with writesQueued := s.writesQueued + 1 }.goto tid (.putNotify key bin))
  | flushed (pc : s.client tid = .flush .evaluate) (unlocked : s.qm = none) (empty : s.q = [])
      (done : s.busy = false) : ClientMoves s tid (s.finish tid .flush none)
  | waits (pc : s.client tid = .flush .evaluate) (unlocked : s.qm = none)
      (pending : ¬(s.q = [] ∧ s.busy = false)) :
      ClientMoves s tid ({ s with qm := some (.client tid) }.goto tid (.flush .block))
  | blocks (pc : s.client tid = .flush .block) :
      ClientMoves s tid ({ s with qm := none }.goto tid (.flush .blocked))

theorem client_moves {s s' : CacheStoreAsync Tid} {tid : Tid}
    (moved : s.clientStep tid = some s') : ClientMoves s tid s' := by
  unfold clientStep at moved
  split at moved
  case h_1 => cases moved
  case h_2 key pc =>
    split at moved
    case h_1 bin found =>
      cases moved
      exact .lookupHit key bin pc found
    case h_2 missed =>
      cases moved
      exact .lookupMiss key pc missed
  case h_3 key pc =>
    split at moved
    case h_1 bin found =>
      cases moved
      exact .diskHit key bin pc found
    case h_2 missed =>
      cases moved
      exact .diskMiss key pc missed
  case h_4 key bin pc =>
    cases moved
    exact .promote key bin pc
  case h_5 key bin pc =>
    cases moved
    exact .store key bin pc
  case h_6 key bin pc =>
    split at moved
    case isTrue unlocked =>
      cases moved
      exact .queue key bin pc unlocked
    case isFalse => cases moved
  case h_7 key bin pc =>
    cases moved
    exact .count key bin pc
  case h_8 => cases moved
  case h_9 pc =>
    split at moved
    case isTrue => cases moved
    case isFalse unlocked =>
      rw [not_not] at unlocked
      split at moved
      case isTrue met =>
        cases moved
        exact .flushed pc unlocked met.1 met.2
      case isFalse pending =>
        cases moved
        exact .waits pc unlocked pending
  case h_10 pc =>
    cases moved
    exact .blocks pc
  case h_11 => cases moved

/-- The store with the thread that a `notify_one` picked awake. -/
def notified (s : CacheStoreAsync Tid) : Option (Waiter Tid) → CacheStoreAsync Tid
  | some waiter => s.wake waiter
  | none => s

inductive Moves (s : CacheStoreAsync Tid) : Action Tid → CacheStoreAsync Tid → Prop
  | call (tid : Tid) (call : Call) (alive : s.destructor = .alive) (pc : s.client tid = .idle) :
      Moves s (.call tid call) (s.goto tid (entry call))
  | client (tid : Tid) (after : CacheStoreAsync Tid) (moves : ClientMoves s tid after) :
      Moves s (.client tid) after
  | notify (tid : Tid) (key : String) (bin : Bytes) (woken : Option (Waiter Tid))
      (pc : s.client tid = .putNotify key bin)
      (blocked : ∀ waiter ∈ woken, s.blocked waiter = true)
      (nobody : woken = none → ∀ waiter, s.blocked waiter = false) :
      Moves s (.notify tid woken) ((notified s woken).finish tid (.put key bin) none)
  | writer (after : CacheStoreAsync Tid) (moves : WriterMoves s after) : Moves s .writer after
  | destroy (alive : s.destructor = .alive) (idle : ∀ tid, s.client tid = .idle) :
      Moves s .destroy { s with destructor := .setStop }
  | destructor (after : CacheStoreAsync Tid) (moves : DestructorMoves s after) :
      Moves s .destructor after

theorem step_moves [Fintype Tid] {s s' : CacheStoreAsync Tid} {action : Action Tid}
    (moved : s.step action = some s') : Moves s action s' := by
  cases action with
  | call tid call =>
      simp only [step, callStep] at moved
      split at moved
      case isTrue enabled =>
        cases moved
        exact .call tid call enabled.1 enabled.2
      case isFalse => cases moved
  | client tid => exact .client tid s' (client_moves moved)
  | notify tid woken =>
      simp only [step, notifyStep] at moved
      split at moved
      case h_1 key bin pc =>
        split at moved
        case h_1 waiter =>
          split at moved
          case isTrue blocked =>
            cases moved
            exact .notify tid key bin (some waiter) pc (by simpa using blocked) (by simp)
          case isFalse => cases moved
        case h_2 =>
          split at moved
          case isTrue nobody =>
            cases moved
            refine .notify tid key bin none pc (by simp) fun _ waiter => ?_
            cases waiter with
            | client other => exact nobody.2 other
            | writer => exact nobody.1
          case isFalse => cases moved
      case h_2 => cases moved
  | writer => exact .writer s' (writer_moves moved)
  | destroy =>
      simp only [step, destroyStep] at moved
      split at moved
      case isTrue enabled =>
        cases moved
        exact .destroy enabled.1 enabled.2
      case isFalse => cases moved
  | destructor => exact .destructor s' (destructor_moves moved)

end AmpFormal.CacheAsyncShutdownMoves
