import AmpFormal.TransitionRuns
import Mathlib.Logic.Function.Basic

/-!
# The asynchronous cache

A transcription of `CacheStoreAsync` for any number of client threads and the
writer thread. A section under a mutex, a disk read, a disk write and an update
of a counter are a step each. The disk store is a map. A thread that waits on
`cv_` evaluates its predicate with `qm_` held, and blocks in the same step when
it is false; a thread that was notified evaluates it again. The clock and the
history of returned calls are kept for the statements only.
-/

namespace AmpFormal.CacheAsyncModel

open AmpFormal.TransitionRuns

set_option autoImplicit false

variable {Tid K V : Type}

inductive Call (K V : Type) where
  | get (key : K)
  | put (key : K) (bin : V)
  | flush
  deriving DecidableEq, Repr

inductive ClientPc (K V : Type) where
  | idle
  | getLookup (key : K)
  | getDisk (key : K)
  | getPromote (key : K) (bin : V)
  | putStore (key : K) (bin : V)
  /-- L1 was updated at the time `stamp`. -/
  | putQueue (key : K) (bin : V) (stamp : Nat)
  | putCount (key : K) (bin : V)
  | putNotify (key : K) (bin : V)
  | flushWait
  deriving DecidableEq, Repr

structure Client (K V : Type) where
  pc : ClientPc K V := .idle
  started : Nat := 0
  deriving DecidableEq, Repr

inductive WriterPc (K V : Type) where
  | waiting
  | writing (job : K × V)
  | written
  | persisted
  | returned
  deriving DecidableEq, Repr

inductive Waiter (Tid : Type) where
  | client (tid : Tid)
  | writer
  deriving DecidableEq, Repr

structure CallRecord (K V : Type) where
  call : Call K V
  started : Nat
  returned : Nat
  result : Option V
  deriving DecidableEq, Repr

structure CacheStoreAsync (Tid K V : Type) where
  l1 : K → Option V
  disk : K → Option V
  q : List (K × V)
  busy : Bool
  stop : Bool
  waiters : List (Waiter Tid)
  writer : WriterPc K V
  client : Tid → Client K V
  l1Hits : UInt64
  writesQueued : UInt64
  writesPersisted : UInt64
  clock : Nat
  history : List (CallRecord K V)

/-- What happens next: a client enters a call or makes a step, `notify_one` wakes
a thread, the writer makes a step. -/
inductive Action (Tid K V : Type) where
  | call (tid : Tid) (call : Call K V)
  | client (tid : Tid)
  | notify (tid : Tid) (woken : Option (Waiter Tid))
  | writer
  deriving DecidableEq, Repr

def Call.entry : Call K V → ClientPc K V
  | .get key => .getLookup key
  | .put key bin => .putStore key bin
  | .flush => .flushWait

def ClientPc.call : ClientPc K V → Option (Call K V)
  | .idle => none
  | .getLookup key | .getDisk key | .getPromote key _ => some (.get key)
  | .putStore key bin | .putQueue key bin _ | .putCount key bin | .putNotify key bin =>
      some (.put key bin)
  | .flushWait => some .flush

namespace CacheStoreAsync

/-- A new store over the files of `disk`. -/
def create (Tid : Type) (disk : K → Option V) : CacheStoreAsync Tid K V where
  l1 := fun _ => none
  disk := disk
  q := []
  busy := false
  stop := false
  waiters := []
  writer := .waiting
  client := fun _ => {}
  l1Hits := 0
  writesQueued := 0
  writesPersisted := 0
  clock := 0
  history := []

variable [DecidableEq Tid] [DecidableEq K]

def goto (s : CacheStoreAsync Tid K V) (tid : Tid) (pc : ClientPc K V) :
    CacheStoreAsync Tid K V :=
  { s with client := Function.update s.client tid { s.client tid with pc } }

def finish (s : CacheStoreAsync Tid K V) (tid : Tid) (call : Call K V) (result : Option V) :
    CacheStoreAsync Tid K V :=
  { s with
    client := Function.update s.client tid { s.client tid with pc := .idle }
    history := s.history ++
      [{ call, started := (s.client tid).started, returned := s.clock, result }] }

/-- `l1_[key] = bin` -/
def setL1 (s : CacheStoreAsync Tid K V) (key : K) (bin : V) : CacheStoreAsync Tid K V :=
  { s with l1 := Function.update s.l1 key (some bin) }

def callStep (s : CacheStoreAsync Tid K V) (tid : Tid) (call : Call K V) :
    Option (CacheStoreAsync Tid K V) :=
  match (s.client tid).pc with
  | .idle => some
      { s with client := Function.update s.client tid { pc := call.entry, started := s.clock } }
  | _ => none

def clientStep (s : CacheStoreAsync Tid K V) (tid : Tid) : Option (CacheStoreAsync Tid K V) :=
  match (s.client tid).pc with
  | .idle => none
  | .getLookup key =>
      match s.l1 key with
      | some bin => some ({ s with l1Hits := s.l1Hits + 1 }.finish tid (.get key) (some bin))
      | none => some (s.goto tid (.getDisk key))
  | .getDisk key =>
      match s.disk key with
      | some bin => some (s.goto tid (.getPromote key bin))
      | none => some (s.finish tid (.get key) none)
  -- promote to L1
  | .getPromote key bin => some ((s.setL1 key bin).finish tid (.get key) (some bin))
  | .putStore key bin => some ((s.setL1 key bin).goto tid (.putQueue key bin s.clock))
  | .putQueue key bin _ =>
      some ({ s with q := s.q ++ [(key, bin)] }.goto tid (.putCount key bin))
  | .putCount key bin =>
      some ({ s with writesQueued := s.writesQueued + 1 }.goto tid (.putNotify key bin))
  | .putNotify _ _ => none
  | .flushWait =>
      if .client tid ∈ s.waiters then none
      else if s.q = [] ∧ s.busy = false then some (s.finish tid .flush none)
      else some { s with waiters := s.waiters ++ [.client tid] }

def notifyOne (s : CacheStoreAsync Tid K V) :
    Option (Waiter Tid) → Option (CacheStoreAsync Tid K V)
  | some woken =>
      if woken ∈ s.waiters then some { s with waiters := s.waiters.filter (· ≠ woken) } else none
  | none => if s.waiters = [] then some s else none

def notifyStep (s : CacheStoreAsync Tid K V) (tid : Tid) (woken : Option (Waiter Tid)) :
    Option (CacheStoreAsync Tid K V) :=
  match (s.client tid).pc with
  | .putNotify key bin => (s.notifyOne woken).map fun s => s.finish tid (.put key bin) none
  | _ => none

def writerStep (s : CacheStoreAsync Tid K V) : Option (CacheStoreAsync Tid K V) :=
  match s.writer with
  | .waiting =>
      if .writer ∈ s.waiters then none
      else match s.q with
      | job :: rest => some { s with q := rest, busy := true, writer := .writing job }
      | [] =>
          if s.stop then some { s with writer := .returned }
          else some { s with waiters := s.waiters ++ [.writer] }
  | .writing job =>
      some { s with disk := Function.update s.disk job.1 (some job.2), writer := .written }
  | .written => some { s with writesPersisted := s.writesPersisted + 1, writer := .persisted }
  -- write fully persisted before signalling flush() waiters
  | .persisted => some
      { s with
        busy := false
        waiters := if s.q = [] then [] else s.waiters
        writer := .waiting }
  | .returned => none

def act (s : CacheStoreAsync Tid K V) : Action Tid K V → Option (CacheStoreAsync Tid K V)
  | .call tid call => s.callStep tid call
  | .client tid => s.clientStep tid
  | .notify tid woken => s.notifyStep tid woken
  | .writer => s.writerStep

def step (s : CacheStoreAsync Tid K V) (action : Action Tid K V) :
    Option (CacheStoreAsync Tid K V) :=
  (s.act action).map fun after => { after with clock := s.clock + 1 }

/-- The states of runs over the files of `disk` whose steps are all `allowed`. -/
abbrev Reached (allowed : CacheStoreAsync Tid K V → Action Tid K V → Prop) (disk : K → Option V)
    (s : CacheStoreAsync Tid K V) : Prop :=
  Reaches step allowed (create Tid disk) s

end CacheStoreAsync

end AmpFormal.CacheAsyncModel
