import AmpFormal.CacheAsyncMoves
import Mathlib.Data.Fintype.Basic

/-!
# When L1 and disk agree

A get that missed promotes what it read from disk, and a put updates L1 and the
write queue in two sections. The first can overwrite the value of a put that came
in between, the second can leave the jobs of two puts of one key in the other
order than their updates of L1. In runs without the two, a get sees the newest put
that had returned or one that ran beside it, and the value that will be on disk
in the end is the one in L1.
-/

namespace AmpFormal.CacheAsyncCoherence

open AmpFormal.TransitionRuns AmpFormal.CacheAsyncModel AmpFormal.CacheAsyncModel.CacheStoreAsync
open AmpFormal.CacheAsyncMoves

set_option autoImplicit false

variable {Tid K V : Type}

/-! ## The property -/

/-- A put of the value that is still running or returned at `time` or later. -/
def PutNotBefore (s : CacheStoreAsync Tid K V) (key : K) (value : V) (time : Nat) : Prop :=
  (∃ tid, (s.client tid).pc.call = some (.put key value)) ∨
    ∃ record ∈ s.history, record.call = .put key value ∧ time ≤ record.returned

/-- A flush that started after every put that returned has itself returned. -/
def FlushedLast (s : CacheStoreAsync Tid K V) : Prop :=
  ∃ flush ∈ s.history, flush.call = .flush ∧
    ∀ put ∈ s.history, ∀ key bin, put.call = .put key bin → put.returned < flush.started

/-- A get that started after a put returned has that value or one of a put that
did not return before it started. -/
def SeesPuts (s : CacheStoreAsync Tid K V) : Prop :=
  ∀ put ∈ s.history, ∀ key bin, put.call = .put key bin →
    ∀ get ∈ s.history, get.call = .get key → put.returned < get.started →
      ∃ value, get.result = some value ∧ (value = bin ∨ PutNotBefore s key value put.started)

/-- Once no call runs and a flush has followed the puts, L1 and disk agree on them. -/
def SettlesOnDisk (s : CacheStoreAsync Tid K V) : Prop :=
  (∀ tid, (s.client tid).pc = .idle) → FlushedLast s →
    ∀ put ∈ s.history, ∀ key bin, put.call = .put key bin → s.l1 key = s.disk key

structure Coherent (s : CacheStoreAsync Tid K V) : Prop where
  fresh : SeesPuts s
  settled : SettlesOnDisk s

/-! ## The condition -/

def ClientPc.promoting : ClientPc K V → Option (K × V)
  | .getPromote key bin => some (key, bin)
  | _ => none

/-- The push a client is about to make: key, value, and when it updated L1. -/
def ClientPc.queueing : ClientPc K V → Option (K × V × Nat)
  | .putQueue key bin stamp => some (key, bin, stamp)
  | _ => none

def PromotesFresh (s : CacheStoreAsync Tid K V) : Action Tid K V → Prop
  | .client tid => ∀ entry ∈ ClientPc.promoting (s.client tid).pc,
      s.l1 entry.1 = none ∨ s.l1 entry.1 = some entry.2
  | _ => True

/-- Puts of different values of one key enter the queue in the order in which they
updated L1. -/
def QueuesInOrder (s : CacheStoreAsync Tid K V) : Action Tid K V → Prop
  | .client tid => ∀ push ∈ ClientPc.queueing (s.client tid).pc,
      ∀ other, ∀ waiting ∈ ClientPc.queueing (s.client other).pc,
        waiting.1 = push.1 → waiting.2.1 = push.2.1 ∨ push.2.2 ≤ waiting.2.2
  | _ => True

def Orderly (s : CacheStoreAsync Tid K V) (action : Action Tid K V) : Prop :=
  PromotesFresh s action ∧ QueuesInOrder s action

instance promotesFreshDecidable [DecidableEq V] (s : CacheStoreAsync Tid K V) :
    ∀ action, Decidable (PromotesFresh s action)
  | .client _ => inferInstanceAs (Decidable (∀ _ ∈ _, _ ∨ _))
  | .call _ _ | .notify _ _ | .writer => inferInstanceAs (Decidable True)

instance queuesInOrderDecidable [Fintype Tid] [DecidableEq K] [DecidableEq V]
    (s : CacheStoreAsync Tid K V) :
    ∀ action, Decidable (QueuesInOrder s action)
  | .client _ => inferInstanceAs (Decidable (∀ _ ∈ _, ∀ _, ∀ _ ∈ _, _ → _ ∨ _))
  | .call _ _ | .notify _ _ | .writer => inferInstanceAs (Decidable True)

instance orderlyDecidable [Fintype Tid] [DecidableEq K] [DecidableEq V]
    (s : CacheStoreAsync Tid K V) (action : Action Tid K V) : Decidable (Orderly s action) :=
  inferInstanceAs (Decidable (_ ∧ _))

/-! ## The calls that have reached L1 -/

/-- The entry of L1 that a put has made. -/
def ClientPc.stored : ClientPc K V → Option (K × V)
  | .putQueue key bin _ | .putCount key bin | .putNotify key bin => some (key, bin)
  | _ => none

def ClientPc.missed : ClientPc K V → Option K
  | .getDisk key | .getPromote key _ => some key
  | _ => none

/-- A put of the value that started at `time` has updated L1. -/
def PutDone (s : CacheStoreAsync Tid K V) (key : K) (bin : V) (time : Nat) : Prop :=
  (∃ tid, ClientPc.stored (s.client tid).pc = some (key, bin) ∧ (s.client tid).started = time) ∨
    ∃ record ∈ s.history, record.call = .put key bin ∧ record.started = time

structure Fresh (s : CacheStoreAsync Tid K V) : Prop where
  began : ∀ tid, (s.client tid).started ≤ s.clock
  recorded : ∀ record ∈ s.history, record.started ≤ record.returned ∧ record.returned < s.clock
  holds : ∀ key bin time, PutDone s key bin time →
    ∃ value, s.l1 key = some value ∧ (value = bin ∨ PutNotBefore s key value time)
  misses : ∀ tid key, ClientPc.missed (s.client tid).pc = some key →
    ∀ put ∈ s.history, ∀ bin, put.call = .put key bin → (s.client tid).started ≤ put.returned
  fresh : SeesPuts s

theorem put_done_past {s : CacheStoreAsync Tid K V} (fresh : Fresh s) {key : K} {bin : V}
    {time : Nat} (done : PutDone s key bin time) : time ≤ s.clock := by
  obtain ⟨tid, -, rfl⟩ | ⟨record, recorded, -, rfl⟩ := done
  · exact fresh.began tid
  · have := fresh.recorded record recorded
    omega

variable [DecidableEq Tid] [DecidableEq K]

/-! ## What a step does to L1 and to the calls -/

/-- The history after a call of the client has returned. -/
def returned (s : CacheStoreAsync Tid K V) (tid : Tid) (call : Call K V) (result : Option V) :
    List (CallRecord K V) :=
  s.history ++ [{ call, started := (s.client tid).started, returned := s.clock, result }]

inductive CallEffect (s after : CacheStoreAsync Tid K V) : Prop
  | outside (l1 : after.l1 = s.l1) (client : after.client = s.client)
      (history : after.history = s.history)
  | enters (tid : Tid) (call : Call K V) (l1 : after.l1 = s.l1)
      (idle : (s.client tid).pc = .idle)
      (client : after.client =
        Function.update s.client tid { pc := call.entry, started := s.clock })
      (history : after.history = s.history)
  | goes (tid : Tid) (pc : ClientPc K V) (l1 : after.l1 = s.l1)
      (call : pc.call = (s.client tid).pc.call)
      (stored : ClientPc.stored pc = ClientPc.stored (s.client tid).pc)
      (missed : ∀ key ∈ ClientPc.missed pc,
        ClientPc.missed (s.client tid).pc = some key ∨ s.l1 key = none)
      (client : after.client = Function.update s.client tid { s.client tid with pc })
      (history : after.history = s.history)
  | stores (tid : Tid) (key : K) (bin : V) (pc : (s.client tid).pc = .putStore key bin)
      (l1 : after.l1 = Function.update s.l1 key (some bin))
      (client : after.client = Function.update s.client tid
        { s.client tid with pc := .putQueue key bin s.clock })
      (history : after.history = s.history)
  | returns (tid : Tid) (call : Call K V) (result : Option V)
      (was : (s.client tid).pc.call = some call)
      (l1 : after.l1 = s.l1 ∨ ∃ key bin, ClientPc.missed (s.client tid).pc = some key ∧
        s.l1 key = none ∧ after.l1 = Function.update s.l1 key (some bin))
      (put : ∀ key bin, call = .put key bin →
        ClientPc.stored (s.client tid).pc = some (key, bin))
      (get : ∀ key, call = .get key → ClientPc.missed (s.client tid).pc = some key ∨
        ∃ bin, result = some bin ∧ s.l1 key = some bin)
      (flush : call = .flush → s.q = [] ∧ s.busy = false)
      (client : after.client = Function.update s.client tid { s.client tid with pc := .idle })
      (history : after.history = returned s tid call result)

theorem client_effect {s after : CacheStoreAsync Tid K V} {tid : Tid}
    (promotes : PromotesFresh s (.client tid)) (moves : ClientMoves s tid after) :
    CallEffect s after := by
  cases moves with
  | lookupHit key bin pc found =>
      refine .returns tid (.get key) (some bin) (by rw [pc]; rfl) (.inl rfl) (by simp) ?_ (by simp)
        rfl rfl
      rintro other same
      cases same
      exact .inr ⟨bin, rfl, found⟩
  | lookupMiss key pc missed =>
      refine .goes tid (.getDisk key) rfl (by rw [pc]; rfl) (by rw [pc]; rfl) ?_ rfl rfl
      rintro other same
      cases same
      exact .inr missed
  | diskHit key bin pc found =>
      refine .goes tid (.getPromote key bin) rfl (by rw [pc]; rfl) (by rw [pc]; rfl) ?_ rfl rfl
      rintro other same
      cases same
      exact .inl (by rw [pc]; rfl)
  | diskMiss key pc missed =>
      refine .returns tid (.get key) none (by rw [pc]; rfl) (.inl rfl) (by simp) ?_ (by simp)
        rfl rfl
      rintro other same
      cases same
      exact .inl (by rw [pc]; rfl)
  | promote key bin pc =>
      refine .returns tid (.get key) (some bin) (by rw [pc]; rfl) ?_ (by simp) ?_ (by simp) rfl rfl
      · rcases promotes (key, bin) (by rw [pc]; rfl) with absent | present
        · exact .inr ⟨key, bin, by rw [pc]; rfl, absent, rfl⟩
        · refine .inl ?_
          change Function.update s.l1 key (some bin) = s.l1
          rw [← show s.l1 key = some bin from present, Function.update_eq_self]
      · rintro other same
        cases same
        exact .inl (by rw [pc]; rfl)
  | store key bin pc => exact .stores tid key bin pc rfl rfl rfl
  | queue key bin stamp pc =>
      exact .goes tid (.putCount key bin) rfl (by rw [pc]; rfl) (by rw [pc]; rfl)
        (fun other same => (nomatch same)) rfl rfl
  | count key bin pc =>
      exact .goes tid (.putNotify key bin) rfl (by rw [pc]; rfl) (by rw [pc]; rfl)
        (fun other same => (nomatch same)) rfl rfl
  | flushed pc awake empty done =>
      exact .returns tid .flush none (by rw [pc]; rfl) (.inl rfl) (by simp) (by simp)
        (fun _ => ⟨empty, done⟩) rfl rfl
  | blocked pc awake pending => exact .outside rfl rfl rfl

theorem writer_effect {s after : CacheStoreAsync Tid K V} (moves : WriterMoves s after) :
    CallEffect s after := by
  cases moves <;> exact .outside rfl rfl rfl

theorem moves_effect {s after : CacheStoreAsync Tid K V} {action : Action Tid K V}
    (promotes : PromotesFresh s action) (moves : Moves s action after) : CallEffect s after := by
  cases moves with
  | call tid call pc => exact .enters tid call rfl pc rfl rfl
  | client tid after moves => exact client_effect promotes moves
  | notify tid key bin woken pc blocked nobody =>
      refine .returns tid (.put key bin) none (by rw [pc]; rfl) (.inl rfl) ?_ (by simp) (by simp)
        rfl rfl
      rintro other value same
      cases same
      rw [pc]
      rfl
  | writer after moves => exact writer_effect moves

theorem history_kept {s after : CacheStoreAsync Tid K V} (effect : CallEffect s after)
    {record : CallRecord K V} (earlier : record ∈ s.history) : record ∈ after.history := by
  cases effect with
  | outside l1 client history => exact history ▸ earlier
  | enters tid call l1 idle client history => exact history ▸ earlier
  | goes tid pc l1 call stored missed client history => exact history ▸ earlier
  | stores tid key bin pc l1 client history => exact history ▸ earlier
  | returns tid call result was l1 put get flush client history =>
      rw [history]
      exact List.mem_append_left _ earlier

theorem history_grows {s after : CacheStoreAsync Tid K V} (effect : CallEffect s after)
    {record : CallRecord K V} (recorded : record ∈ after.history) :
    record ∈ s.history ∨ record.returned = s.clock ∧ ∃ tid,
      record.started = (s.client tid).started ∧
      (∀ key bin, record.call = .put key bin →
        ClientPc.stored (s.client tid).pc = some (key, bin)) ∧
      (∀ key, record.call = .get key → ClientPc.missed (s.client tid).pc = some key ∨
        ∃ bin, record.result = some bin ∧ s.l1 key = some bin) ∧
      (record.call = .flush → s.q = [] ∧ s.busy = false) := by
  cases effect with
  | outside l1 client history => exact .inl (history ▸ recorded)
  | enters tid call l1 idle client history => exact .inl (history ▸ recorded)
  | goes tid pc l1 call stored missed client history => exact .inl (history ▸ recorded)
  | stores tid key bin pc l1 client history => exact .inl (history ▸ recorded)
  | returns tid call result was l1 put get flush client history =>
      rw [history] at recorded
      obtain earlier | new := List.mem_append.mp recorded
      · exact .inl earlier
      · obtain rfl := List.mem_singleton.mp new
        exact .inr ⟨rfl, tid, rfl, put, get, flush⟩

inductive ClientEffect (s after : CacheStoreAsync Tid K V) (tid : Tid) : Prop
  | rests (client : after.client tid = s.client tid)
  | enters (call : Call K V) (idle : (s.client tid).pc = .idle)
      (client : after.client tid = { pc := call.entry, started := s.clock })
  | goes (pc : ClientPc K V) (call : pc.call = (s.client tid).pc.call)
      (stored : ClientPc.stored pc = ClientPc.stored (s.client tid).pc)
      (missed : ∀ key ∈ ClientPc.missed pc,
        ClientPc.missed (s.client tid).pc = some key ∨ s.l1 key = none)
      (client : after.client tid = { s.client tid with pc })
  | stores (key : K) (bin : V) (pc : (s.client tid).pc = .putStore key bin)
      (l1 : after.l1 key = some bin)
      (client : after.client tid = { s.client tid with pc := .putQueue key bin s.clock })
  | returns (record : CallRecord K V) (was : (s.client tid).pc.call = some record.call)
      (now : record.returned = s.clock) (recorded : record ∈ after.history)
      (client : after.client tid = { s.client tid with pc := .idle })

theorem effect_on_client {s after : CacheStoreAsync Tid K V} (effect : CallEffect s after)
    (tid : Tid) : ClientEffect s after tid := by
  cases effect with
  | outside l1 client history => exact .rests (by rw [client])
  | enters mover call l1 idle client history =>
      by_cases same : tid = mover
      · subst same
        exact .enters call idle (by rw [client, Function.update_self])
      · exact .rests (by rw [client, Function.update_of_ne same])
  | goes mover pc l1 call stored missed client history =>
      by_cases same : tid = mover
      · subst same
        exact .goes pc call stored missed (by rw [client, Function.update_self])
      · exact .rests (by rw [client, Function.update_of_ne same])
  | stores mover key bin pc l1 client history =>
      by_cases same : tid = mover
      · subst same
        exact .stores key bin pc (by rw [l1, Function.update_self])
          (by rw [client, Function.update_self])
      · exact .rests (by rw [client, Function.update_of_ne same])
  | returns mover call result was l1 put get flush client history =>
      by_cases same : tid = mover
      · subst same
        refine .returns ⟨call, (s.client tid).started, s.clock, result⟩ was rfl ?_
          (by rw [client, Function.update_self])
        rw [history]
        exact List.mem_append_right _ (List.mem_singleton.mpr rfl)
      · exact .rests (by rw [client, Function.update_of_ne same])

theorem not_before_kept {s after : CacheStoreAsync Tid K V} (effect : CallEffect s after) {key : K}
    {value : V} {time : Nat} (past : time ≤ s.clock) (put : PutNotBefore s key value time) :
    PutNotBefore after key value time := by
  obtain ⟨tid, running⟩ | ⟨record, earlier, called, late⟩ := put
  · cases effect_on_client effect tid with
    | rests client => exact .inl ⟨tid, client ▸ running⟩
    | enters call idle client => simp [idle, ClientPc.call] at running
    | goes pc call stored missed client =>
        refine .inl ⟨tid, ?_⟩
        rw [client]
        exact call.trans running
    | stores other bin pc l1 client =>
        refine .inl ⟨tid, ?_⟩
        rw [pc] at running
        rw [client]
        exact running
    | returns record was now recorded client =>
        have called : record.call = .put key value := Option.some.inj (was.symm.trans running)
        exact .inr ⟨record, recorded, called, now ▸ past⟩
  · exact .inr ⟨record, history_kept effect earlier, called, late⟩

/-! ## What a step preserves -/

theorem l1_grows {s after : CacheStoreAsync Tid K V} (effect : CallEffect s after) (key : K) :
    after.l1 key = s.l1 key ∨ s.l1 key = none ∨
      ∃ bin tid, after.l1 key = some bin ∧ (after.client tid).pc.call = some (.put key bin) := by
  cases effect with
  | outside l1 client history => exact .inl (by rw [l1])
  | enters tid call l1 idle client history => exact .inl (by rw [l1])
  | goes tid pc l1 call stored missed client history => exact .inl (by rw [l1])
  | stores tid other bin pc l1 client history =>
      by_cases same : key = other
      · subst same
        refine .inr (.inr ⟨bin, tid, by rw [l1, Function.update_self], ?_⟩)
        rw [client, Function.update_self]
        rfl
      · exact .inl (by rw [l1, Function.update_of_ne same])
  | returns tid call result was l1 put get flush client history =>
      obtain same | ⟨other, bin, missed, absent, l1⟩ := l1
      · exact .inl (by rw [same])
      · by_cases same : key = other
        · exact .inr (.inl (same ▸ absent))
        · exact .inl (by rw [l1, Function.update_of_ne same])

theorem put_done_grows {s after : CacheStoreAsync Tid K V} (effect : CallEffect s after) {key : K}
    {bin : V} {time : Nat} (done : PutDone after key bin time) :
    PutDone s key bin time ∨
      after.l1 key = some bin ∧ ∃ tid, (after.client tid).pc.call = some (.put key bin) := by
  obtain ⟨tid, holds, began⟩ | ⟨record, recorded, called, began⟩ := done
  · cases effect_on_client effect tid with
    | rests client => exact .inl (.inl ⟨tid, client ▸ holds, client ▸ began⟩)
    | enters call idle client =>
        rw [client] at holds
        cases call <;> cases holds
    | goes pc call stored missed client =>
        rw [client] at holds began
        exact .inl (.inl ⟨tid, stored.symm.trans holds, began⟩)
    | stores other value pc l1 client =>
        rw [client] at holds
        cases holds
        exact .inr ⟨l1, tid, by rw [client]; rfl⟩
    | returns record was now recorded client =>
        rw [client] at holds
        cases holds
  · obtain earlier | ⟨-, tid, started, put, -⟩ := history_grows effect recorded
    · exact .inl (.inr ⟨record, earlier, called, began⟩)
    · exact .inl (.inl ⟨tid, put key bin called, started.symm.trans began⟩)

theorem missed_grows {s after : CacheStoreAsync Tid K V} (effect : CallEffect s after) {tid : Tid}
    {key : K} (missed : ClientPc.missed (after.client tid).pc = some key) :
    (after.client tid).started = (s.client tid).started ∧
      (ClientPc.missed (s.client tid).pc = some key ∨ s.l1 key = none) := by
  cases effect_on_client effect tid with
  | rests client => exact ⟨by rw [client], .inl (client ▸ missed)⟩
  | enters call idle client =>
      rw [client] at missed
      cases call <;> cases missed
  | goes pc call stored grows client =>
      rw [client] at missed
      exact ⟨by rw [client], grows key missed⟩
  | stores other bin pc l1 client =>
      rw [client] at missed
      cases missed
  | returns record was now recorded client =>
      rw [client] at missed
      cases missed

theorem began_grows {s after : CacheStoreAsync Tid K V} (effect : CallEffect s after)
    (began : ∀ tid, (s.client tid).started ≤ s.clock) (tid : Tid) :
    (after.client tid).started ≤ s.clock := by
  cases effect_on_client effect tid with
  | rests client => exact client ▸ began tid
  | enters call idle client => rw [client]
  | goes pc call stored missed client => exact client ▸ began tid
  | stores key bin pc l1 client => exact client ▸ began tid
  | returns record was now recorded client => exact client ▸ began tid

theorem effect_holds {s after : CacheStoreAsync Tid K V} (effect : CallEffect s after)
    (fresh : Fresh s) {key : K} {bin : V} {time : Nat} (done : PutDone after key bin time) :
    ∃ value, after.l1 key = some value ∧ (value = bin ∨ PutNotBefore after key value time) := by
  obtain earlier | ⟨l1, -⟩ := put_done_grows effect done
  · obtain ⟨value, present, sees⟩ := fresh.holds key bin time earlier
    obtain same | absent | ⟨other, tid, stored, running⟩ := l1_grows effect key
    · refine ⟨value, same.trans present, ?_⟩
      exact sees.imp_right (not_before_kept effect (put_done_past fresh earlier))
    · cases absent.symm.trans present
    · exact ⟨other, stored, .inr (.inl ⟨tid, running⟩)⟩
  · exact ⟨bin, l1, .inl rfl⟩

theorem effect_misses {s after : CacheStoreAsync Tid K V} (effect : CallEffect s after)
    (fresh : Fresh s) {tid : Tid} {key : K}
    (missed : ClientPc.missed (after.client tid).pc = some key) {put : CallRecord K V}
    (recorded : put ∈ after.history) {bin : V} (called : put.call = .put key bin) :
    (after.client tid).started ≤ put.returned := by
  obtain earlier | ⟨now, -⟩ := history_grows effect recorded
  · obtain ⟨same, before | absent⟩ := missed_grows effect missed
    · exact same ▸ fresh.misses tid key before put earlier bin called
    · -- the put has left an entry of L1
      obtain ⟨value, present, -⟩ := fresh.holds key bin put.started
        (.inr ⟨put, earlier, called, rfl⟩)
      cases absent.symm.trans present
  · exact now ▸ began_grows effect fresh.began tid

theorem effect_fresh {s after : CacheStoreAsync Tid K V} (effect : CallEffect s after)
    (fresh : Fresh s) {put get : CallRecord K V} (stored : put ∈ after.history) {key : K} {bin : V}
    (putCall : put.call = .put key bin) (read : get ∈ after.history) (getCall : get.call = .get key)
    (later : put.returned < get.started) :
    ∃ value, get.result = some value ∧
      (value = bin ∨ PutNotBefore after key value put.started) := by
  have began : get.started ≤ s.clock := by
    obtain earlier | ⟨-, tid, started, -⟩ := history_grows effect read
    · have := fresh.recorded get earlier
      omega
    · exact started ▸ fresh.began tid
  obtain done | ⟨now, -⟩ := history_grows effect stored
  · have past := fresh.recorded put done
    obtain earlier | ⟨-, tid, started, -, sees, -⟩ := history_grows effect read
    · obtain ⟨value, result, from_put⟩ :=
        fresh.fresh put done key bin putCall get earlier getCall later
      exact ⟨value, result, from_put.imp_right (not_before_kept effect (by omega))⟩
    · obtain missed | ⟨value, result, present⟩ := sees key getCall
      · have := fresh.misses tid key missed put done bin putCall
        omega
      · obtain ⟨held, same, from_put⟩ := fresh.holds key bin put.started
          (.inr ⟨put, done, putCall, rfl⟩)
        cases present.symm.trans same
        exact ⟨value, result, from_put.imp_right (not_before_kept effect (by omega))⟩
  · omega

theorem tick_fresh {s after : CacheStoreAsync Tid K V} (effect : CallEffect s after)
    (fresh : Fresh s) : Fresh { after with clock := s.clock + 1 } where
  began tid := (began_grows effect fresh.began tid).trans (Nat.le_succ _)
  recorded record recorded := by
    obtain earlier | ⟨now, tid, started, -⟩ := history_grows effect recorded
    · have := fresh.recorded record earlier
      dsimp only
      omega
    · have := fresh.began tid
      dsimp only
      omega
  holds key bin time done := effect_holds effect fresh done
  misses tid key missed put recorded bin called := effect_misses effect fresh missed recorded called
  fresh put stored key bin putCall get read getCall later :=
    effect_fresh effect fresh stored putCall read getCall later

theorem reached_fresh {disk : K → Option V} {s : CacheStoreAsync Tid K V}
    (reached : Reached PromotesFresh disk s) : Fresh s := by
  refine reaches_invariant ?_ ?_ reached
  · exact {
      began := fun _ => Nat.le_refl 0
      recorded := fun _ none => (nomatch none)
      holds := fun _ _ _ done => by
        obtain ⟨tid, none, -⟩ | ⟨record, none, -⟩ := done
        · cases none
        · cases none
      misses := fun _ _ none => (nomatch none)
      fresh := fun _ none => (nomatch none) }
  · intro before action after _ fresh promotes moved
    obtain ⟨middle, moves, rfl⟩ := step_moves moved
    exact tick_fresh (moves_effect promotes moves) fresh

end AmpFormal.CacheAsyncCoherence
