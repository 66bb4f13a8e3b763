import AmpFormal.CacheAsyncModel

/-!
# The moves of the asynchronous cache

One rule for each step of a client and of the writer, with what it requires and
the state it leaves. Facts about runs are shown rule by rule.
-/

namespace AmpFormal.CacheAsyncMoves

open AmpFormal.CacheAsyncModel AmpFormal.CacheAsyncModel.CacheStoreAsync

set_option autoImplicit false

variable {Tid K V : Type} [DecidableEq Tid]

theorem notify_one_moves {s after : CacheStoreAsync Tid K V} {woken : Option (Waiter Tid)}
    (notified : s.notifyOne woken = some after) :
    (∀ waiter ∈ woken, waiter ∈ s.waiters) ∧ (woken = none → s.waiters = []) ∧
      after = { s with waiters := s.waiters.filter fun waiter => some waiter ≠ woken } := by
  unfold notifyOne at notified
  cases woken with
  | some waiter =>
      dsimp only at notified
      split at notified
      case isTrue blocked =>
        cases notified
        refine ⟨by simpa using blocked, by simp, ?_⟩
        simp
      case isFalse => cases notified
  | none =>
      dsimp only at notified
      split at notified
      case isTrue nobody =>
        cases notified
        have same : (s.waiters.filter fun waiter => some waiter ≠ none) = s.waiters := by simp
        refine ⟨by simp, fun _ => nobody, ?_⟩
        rw [same]
      case isFalse => cases notified

variable [DecidableEq K]

inductive ClientMoves (s : CacheStoreAsync Tid K V) (tid : Tid) :
    CacheStoreAsync Tid K V → Prop
  | lookupHit (key : K) (bin : V) (pc : (s.client tid).pc = .getLookup key)
      (found : s.l1 key = some bin) :
      ClientMoves s tid
        ({ s with l1Hits := s.l1Hits + 1 }.finish tid (.get key) (some bin))
  | lookupMiss (key : K) (pc : (s.client tid).pc = .getLookup key) (missed : s.l1 key = none) :
      ClientMoves s tid (s.goto tid (.getDisk key))
  | diskHit (key : K) (bin : V) (pc : (s.client tid).pc = .getDisk key)
      (found : s.disk key = some bin) : ClientMoves s tid (s.goto tid (.getPromote key bin))
  | diskMiss (key : K) (pc : (s.client tid).pc = .getDisk key) (missed : s.disk key = none) :
      ClientMoves s tid (s.finish tid (.get key) none)
  | promote (key : K) (bin : V) (pc : (s.client tid).pc = .getPromote key bin) :
      ClientMoves s tid ((s.setL1 key bin).finish tid (.get key) (some bin))
  | store (key : K) (bin : V) (pc : (s.client tid).pc = .putStore key bin) :
      ClientMoves s tid ((s.setL1 key bin).goto tid (.putQueue key bin s.clock))
  | queue (key : K) (bin : V) (stamp : Nat) (pc : (s.client tid).pc = .putQueue key bin stamp) :
      ClientMoves s tid ({ s with q := s.q ++ [(key, bin)] }.goto tid (.putCount key bin))
  | count (key : K) (bin : V) (pc : (s.client tid).pc = .putCount key bin) :
      ClientMoves s tid
        ({ s with writesQueued := s.writesQueued + 1 }.goto tid (.putNotify key bin))
  | flushed (pc : (s.client tid).pc = .flushWait) (awake : .client tid ∉ s.waiters)
      (empty : s.q = []) (done : s.busy = false) : ClientMoves s tid (s.finish tid .flush none)
  | blocked (pc : (s.client tid).pc = .flushWait) (awake : .client tid ∉ s.waiters)
      (pending : ¬(s.q = [] ∧ s.busy = false)) :
      ClientMoves s tid { s with waiters := s.waiters ++ [.client tid] }

theorem client_moves {s s' : CacheStoreAsync Tid K V} {tid : Tid}
    (moved : s.clientStep tid = some s') : ClientMoves s tid s' := by
  unfold clientStep at moved
  split at moved
  case h_1 => cases moved
  case h_2 key pc =>
    split at moved
    case h_1 bin found =>
      cases moved
      exact .lookupHit key bin pc found
    case h_2 missed =>
      cases moved
      exact .lookupMiss key pc missed
  case h_3 key pc =>
    split at moved
    case h_1 bin found =>
      cases moved
      exact .diskHit key bin pc found
    case h_2 missed =>
      cases moved
      exact .diskMiss key pc missed
  case h_4 key bin pc =>
    cases moved
    exact .promote key bin pc
  case h_5 key bin pc =>
    cases moved
    exact .store key bin pc
  case h_6 key bin stamp pc =>
    cases moved
    exact .queue key bin stamp pc
  case h_7 key bin pc =>
    cases moved
    exact .count key bin pc
  case h_8 => cases moved
  case h_9 pc =>
    split at moved
    case isTrue => cases moved
    case isFalse awake =>
      split at moved
      case isTrue met =>
        cases moved
        exact .flushed pc awake met.1 met.2
      case isFalse pending =>
        cases moved
        exact .blocked pc awake pending

inductive WriterMoves (s : CacheStoreAsync Tid K V) : CacheStoreAsync Tid K V → Prop
  | pop (job : K × V) (rest : List (K × V)) (pc : s.writer = .waiting)
      (awake : .writer ∉ s.waiters) (queued : s.q = job :: rest) :
      WriterMoves s { s with q := rest, busy := true, writer := .writing job }
  | stopped (pc : s.writer = .waiting) (awake : .writer ∉ s.waiters) (empty : s.q = [])
      (stop : s.stop = true) : WriterMoves s { s with writer := .returned }
  | blocked (pc : s.writer = .waiting) (awake : .writer ∉ s.waiters) (empty : s.q = [])
      (running : s.stop = false) : WriterMoves s { s with waiters := s.waiters ++ [.writer] }
  | write (job : K × V) (pc : s.writer = .writing job) :
      WriterMoves s
        { s with disk := Function.update s.disk job.1 (some job.2), writer := .written }
  | count (pc : s.writer = .written) :
      WriterMoves s { s with writesPersisted := s.writesPersisted + 1, writer := .persisted }
  | signal (pc : s.writer = .persisted) :
      WriterMoves s
        { s with
          busy := false
          waiters := if s.q = [] then [] else s.waiters
          writer := .waiting }

theorem writer_moves {s s' : CacheStoreAsync Tid K V} (moved : s.writerStep = some s') :
    WriterMoves s s' := by
  unfold writerStep at moved
  split at moved
  case h_1 pc =>
    split at moved
    case isTrue => cases moved
    case isFalse awake =>
      split at moved
      case h_1 job rest queued =>
        cases moved
        exact .pop job rest pc awake queued
      case h_2 empty =>
        split at moved
        case isTrue stop =>
          cases moved
          exact .stopped pc awake empty stop
        case isFalse running =>
          cases moved
          exact .blocked pc awake empty (Bool.eq_false_iff.mpr running)
  case h_2 job pc =>
    cases moved
    exact .write job pc
  case h_3 pc =>
    cases moved
    exact .count pc
  case h_4 pc =>
    cases moved
    exact .signal pc
  case h_5 => cases moved

inductive Moves (s : CacheStoreAsync Tid K V) : Action Tid K V → CacheStoreAsync Tid K V → Prop
  | call (tid : Tid) (call : Call K V) (pc : (s.client tid).pc = .idle) :
      Moves s (.call tid call)
        { s with client := Function.update s.client tid { pc := call.entry, started := s.clock } }
  | client (tid : Tid) (after : CacheStoreAsync Tid K V) (moves : ClientMoves s tid after) :
      Moves s (.client tid) after
  | notify (tid : Tid) (key : K) (bin : V) (woken : Option (Waiter Tid))
      (pc : (s.client tid).pc = .putNotify key bin)
      (blocked : ∀ waiter ∈ woken, waiter ∈ s.waiters)
      (nobody : woken = none → s.waiters = []) :
      Moves s (.notify tid woken)
        ({ s with waiters := s.waiters.filter fun waiter => some waiter ≠ woken }.finish tid
          (.put key bin) none)
  | writer (after : CacheStoreAsync Tid K V) (moves : WriterMoves s after) :
      Moves s .writer after

theorem step_moves {s s' : CacheStoreAsync Tid K V} {action : Action Tid K V}
    (moved : s.step action = some s') :
    ∃ after, Moves s action after ∧ s' = { after with clock := s.clock + 1 } := by
  obtain ⟨after, acted, rfl⟩ := Option.map_eq_some_iff.mp moved
  refine ⟨after, ?_, rfl⟩
  cases action with
  | call tid call =>
      simp only [act, callStep] at acted
      split at acted
      case h_1 pc =>
        cases acted
        exact .call tid call pc
      case h_2 => cases acted
  | client tid => exact .client tid after (client_moves acted)
  | notify tid woken =>
      simp only [act, notifyStep] at acted
      split at acted
      case h_1 key bin pc =>
        obtain ⟨middle, notified, rfl⟩ := Option.map_eq_some_iff.mp acted
        obtain ⟨blocked, nobody, rfl⟩ := notify_one_moves notified
        exact .notify tid key bin woken pc blocked nobody
      case h_2 => cases acted
  | writer => exact .writer after (writer_moves acted)

end AmpFormal.CacheAsyncMoves
