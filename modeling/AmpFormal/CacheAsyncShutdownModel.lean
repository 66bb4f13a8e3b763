import AmpFormal.CacheAsyncModel
import AmpFormal.CacheStoreModel
import Mathlib.Data.Fintype.Basic

/-!
# The asynchronous cache and its destructor

A transcription of `CacheStoreAsync` over the files of `CacheStore`, from the
constructor to the end of the destructor, for any number of client threads. It is
finer than `CacheAsyncModel` where a thread waits on `cv_`: the predicate is
evaluated with `qm_` held, and releasing `qm_` and blocking is a step of its own
(`CacheAsyncRefinement` relates the two). A section under `qm_` that does not wait is
one step, enabled while nobody holds `qm_`. The destructor assigns `stop_`, notifies
and joins in three steps and starts when no call is in progress. There are no
spurious wake-ups. The history of returned calls is kept for the statements only.
-/

namespace AmpFormal.CacheAsyncShutdownModel

open AmpFormal.FileDirectory AmpFormal.TransitionRuns
open AmpFormal.CacheAsyncModel (Waiter)

set_option autoImplicit false

variable {Tid : Type}

abbrev Call := CacheAsyncModel.Call String Bytes

inductive WaitPc where
  | evaluate
  /-- The predicate was false, `qm_` is still held. -/
  | block
  | blocked
  deriving DecidableEq, Repr

inductive ClientPc where
  | idle
  | getLookup (key : String)
  | getDisk (key : String)
  | getPromote (key : String) (bin : Bytes)
  | putStore (key : String) (bin : Bytes)
  | putQueue (key : String) (bin : Bytes)
  | putCount (key : String) (bin : Bytes)
  | putNotify (key : String) (bin : Bytes)
  | flush (wait : WaitPc)
  deriving DecidableEq, Repr

inductive WriterPc where
  | wait (wait : WaitPc)
  | writing (job : String × Bytes)
  | written
  | persisted
  | returned
  deriving DecidableEq, Repr

/-- The next step of `~CacheStoreAsync`, which has not begun while `alive`. -/
inductive DestructorPc where
  | alive
  | setStop
  | notifyAll
  | join
  | returned
  deriving DecidableEq, Repr

structure CacheStoreAsync (Tid : Type) where
  l1 : String → Option Bytes
  disk : Directory String
  q : List (String × Bytes)
  /-- The thread that holds `qm_` and is about to block. -/
  qm : Option (Waiter Tid)
  busy : Bool
  stop : Bool
  writer : WriterPc
  client : Tid → ClientPc
  destructor : DestructorPc
  l1Hits : UInt64
  writesQueued : UInt64
  writesPersisted : UInt64
  history : List (Call × Option Bytes)

/-- What happens next: a client enters a call or makes a step, `notify_one` wakes
a thread, the writer makes a step, the destructor is entered or makes a step. -/
inductive Action (Tid : Type) where
  | call (tid : Tid) (call : Call)
  | client (tid : Tid)
  | notify (tid : Tid) (woken : Option (Waiter Tid))
  | writer
  | destroy
  | destructor
  deriving DecidableEq, Repr

def entry : Call → ClientPc
  | .get key => .getLookup key
  | .put key bin => .putStore key bin
  | .flush => .flush .evaluate

def ClientPc.woken : ClientPc → ClientPc
  | .flush .blocked => .flush .evaluate
  | pc => pc

def WriterPc.woken : WriterPc → WriterPc
  | .wait .blocked => .wait .evaluate
  | pc => pc

namespace CacheStoreAsync

/-- A new store over the files of `disk`, whose writer has just started. -/
def create (Tid : Type) (disk : Directory String) : CacheStoreAsync Tid where
  l1 := fun _ => none
  disk := disk
  q := []
  qm := none
  busy := false
  stop := false
  writer := .wait .evaluate
  client := fun _ => .idle
  destructor := .alive
  l1Hits := 0
  writesQueued := 0
  writesPersisted := 0
  history := []

/-- `l1_[key] = bin` -/
def setL1 (s : CacheStoreAsync Tid) (key : String) (bin : Bytes) : CacheStoreAsync Tid :=
  { s with l1 := Function.update s.l1 key (some bin) }

def blocked (s : CacheStoreAsync Tid) : Waiter Tid → Bool
  | .client tid => s.client tid == .flush .blocked
  | .writer => s.writer == .wait .blocked

def notifyAll (s : CacheStoreAsync Tid) : CacheStoreAsync Tid :=
  { s with client := fun tid => (s.client tid).woken, writer := s.writer.woken }

variable [DecidableEq Tid]

def goto (s : CacheStoreAsync Tid) (tid : Tid) (pc : ClientPc) : CacheStoreAsync Tid :=
  { s with client := Function.update s.client tid pc }

def finish (s : CacheStoreAsync Tid) (tid : Tid) (call : Call) (result : Option Bytes) :
    CacheStoreAsync Tid :=
  { s.goto tid .idle with history := s.history ++ [(call, result)] }

def wake (s : CacheStoreAsync Tid) : Waiter Tid → CacheStoreAsync Tid
  | .client tid => s.goto tid (s.client tid).woken
  | .writer => { s with writer := s.writer.woken }

/-- The lifetime of the store: no call starts once the destructor has begun. -/
def callStep (s : CacheStoreAsync Tid) (tid : Tid) (call : Call) :
    Option (CacheStoreAsync Tid) :=
  if s.destructor = .alive ∧ s.client tid = .idle then some (s.goto tid (entry call)) else none

def clientStep (s : CacheStoreAsync Tid) (tid : Tid) : Option (CacheStoreAsync Tid) :=
  match s.client tid with
  | .idle => none
  | .getLookup key =>
      match s.l1 key with
      | some bin => some ({ s with l1Hits := s.l1Hits + 1 }.finish tid (.get key) (some bin))
      | none => some (s.goto tid (.getDisk key))
  | .getDisk key =>
      match CacheStoreModel.get s.disk key with
      | some bin => some (s.goto tid (.getPromote key bin))
      | none => some (s.finish tid (.get key) none)
  -- promote to L1
  | .getPromote key bin => some ((s.setL1 key bin).finish tid (.get key) (some bin))
  | .putStore key bin => some ((s.setL1 key bin).goto tid (.putQueue key bin))
  | .putQueue key bin =>
      if s.qm = none then some ({ s with q := s.q ++ [(key, bin)] }.goto tid (.putCount key bin))
      else none
  | .putCount key bin =>
      some ({ s with writesQueued := s.writesQueued + 1 }.goto tid (.putNotify key bin))
  | .putNotify _ _ => none
  | .flush .evaluate =>
      if s.qm ≠ none then none
      else if s.q = [] ∧ s.busy = false then some (s.finish tid .flush none)
      else some ({ s with qm := some (.client tid) }.goto tid (.flush .block))
  | .flush .block => some ({ s with qm := none }.goto tid (.flush .blocked))
  | .flush .blocked => none

def writerStep (s : CacheStoreAsync Tid) : Option (CacheStoreAsync Tid) :=
  match s.writer with
  | .wait .evaluate =>
      if s.qm ≠ none then none
      else match s.q with
      | job :: rest => some { s with q := rest, busy := true, writer := .writing job }
      | [] =>
          if s.stop then some { s with writer := .returned }
          else some { s with qm := some .writer, writer := .wait .block }
  | .wait .block => some { s with qm := none, writer := .wait .blocked }
  | .wait .blocked => none
  | .writing job =>
      (CacheStoreModel.put s.disk job.1 job.2).map fun disk => { s with disk, writer := .written }
  | .written => some { s with writesPersisted := s.writesPersisted + 1, writer := .persisted }
  -- write fully persisted before signalling flush() waiters
  | .persisted =>
      if s.qm ≠ none then none
      else
        let signalled := if s.q = [] then s.notifyAll else s
        some { signalled with busy := false, writer := .wait .evaluate }
  | .returned => none

def destructorStep (s : CacheStoreAsync Tid) : Option (CacheStoreAsync Tid) :=
  match s.destructor with
  | .alive => none
  | .setStop => some { s with stop := true, destructor := .notifyAll }
  | .notifyAll => some { s.notifyAll with destructor := .join }
  | .join => if s.writer = .returned then some { s with destructor := .returned } else none
  | .returned => none

variable [Fintype Tid]

/-- `cv_.notify_one()`, the last step of `put`. -/
def notifyStep (s : CacheStoreAsync Tid) (tid : Tid) (woken : Option (Waiter Tid)) :
    Option (CacheStoreAsync Tid) :=
  match s.client tid with
  | .putNotify key bin =>
      match woken with
      | some waiter =>
          if s.blocked waiter = true then some ((s.wake waiter).finish tid (.put key bin) none)
          else none
      | none =>
          if s.blocked .writer = false ∧ ∀ other, s.blocked (.client other) = false then
            some (s.finish tid (.put key bin) none)
          else none
  | _ => none

def destroyStep (s : CacheStoreAsync Tid) : Option (CacheStoreAsync Tid) :=
  if s.destructor = .alive ∧ ∀ tid, s.client tid = .idle then
    some { s with destructor := .setStop }
  else none

def step (s : CacheStoreAsync Tid) : Action Tid → Option (CacheStoreAsync Tid)
  | .call tid call => s.callStep tid call
  | .client tid => s.clientStep tid
  | .notify tid woken => s.notifyStep tid woken
  | .writer => s.writerStep
  | .destroy => s.destroyStep
  | .destructor => s.destructorStep

/-- The states of runs over the files of `disk` whose steps are all `allowed`. -/
abbrev Reached (allowed : CacheStoreAsync Tid → Action Tid → Prop) (disk : Directory String)
    (s : CacheStoreAsync Tid) : Prop :=
  Reaches step allowed (create Tid disk) s

end CacheStoreAsync

end AmpFormal.CacheAsyncShutdownModel
