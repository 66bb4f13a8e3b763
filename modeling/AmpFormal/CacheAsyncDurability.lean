import AmpFormal.CacheAsyncShutdownMoves

/-!
# Durability of flush and shutdown

One client thread and the writer. The jobs in the queue and the job in flight
stand for the writes still missing on disk: the files that result from writing
them, in order, hold the last value queued for every key. A flush returns with no
job missing, and so does the writer.
-/

namespace AmpFormal.CacheAsyncDurability

open AmpFormal.FileDirectory AmpFormal.TransitionRuns AmpFormal.CacheStoreModel
open AmpFormal.CacheAsyncShutdownModel AmpFormal.CacheAsyncShutdownModel.CacheStoreAsync
open AmpFormal.CacheAsyncShutdownMoves

set_option autoImplicit false

abbrev Job := String × Bytes

/-- The value of the last job of a key. -/
def lastPut (jobs : List Job) (key : String) : Option Bytes :=
  jobs.foldl (fun last job => if job.1 = key then some job.2 else last) none

def returnedPuts (history : List (Call × Option Bytes)) : List Job :=
  history.filterMap fun record =>
    match record.1 with
    | .put key bin => some (key, bin)
    | _ => none

theorem last_put_snoc (jobs : List Job) (job : Job) (key : String) :
    lastPut (jobs ++ [job]) key = if job.1 = key then some job.2 else lastPut jobs key := by
  simp [lastPut]

theorem last_put_cons (job : Job) (jobs : List Job) (key : String) :
    lastPut (job :: jobs) key =
      (lastPut jobs key).or (if job.1 = key then some job.2 else none) := by
  induction jobs using List.reverseRecOn with
  | nil => simp [lastPut]
  | append_singleton jobs last ih =>
      rw [← List.cons_append, last_put_snoc, last_put_snoc, ih]
      by_cases hit : last.1 = key
      · simp [hit]
      · simp [hit]

theorem last_put_mem {jobs : List Job} {key : String} {bin : Bytes}
    (last : lastPut jobs key = some bin) : (key, bin) ∈ jobs := by
  induction jobs using List.reverseRecOn with
  | nil => cases last
  | append_singleton jobs final ih =>
      rw [last_put_snoc] at last
      rw [List.mem_append]
      by_cases hit : final.1 = key
      · rw [if_pos hit, Option.some.injEq] at last
        exact Or.inr (List.mem_singleton.mpr (Prod.ext hit.symm last.symm))
      · rw [if_neg hit] at last
        exact Or.inl (ih last)

theorem returned_puts_snoc (history : List (Call × Option Bytes)) (call : Call)
    (result : Option Bytes) :
    returnedPuts (history ++ [(call, result)]) =
      returnedPuts history ++ returnedPuts [(call, result)] := by
  simp [returnedPuts]

theorem finish_client (s : CacheStoreAsync Unit) (call : Call) (result : Option Bytes) :
    (s.finish () call result).client () = .idle := by
  simp [finish, goto]

/-! ## What a put has done so far -/

/-- The put of a client that has updated L1. -/
def ClientPc.stored : ClientPc → List Job
  | .putQueue key bin | .putCount key bin | .putNotify key bin => [(key, bin)]
  | _ => []

def ClientPc.pushed : ClientPc → List Job
  | .putCount key bin | .putNotify key bin => [(key, bin)]
  | _ => []

def ClientPc.counted : ClientPc → List Job
  | .putNotify key bin => [(key, bin)]
  | _ => []

def ClientPc.putting : ClientPc → List String
  | .putStore key _ | .putQueue key _ | .putCount key _ | .putNotify key _ => [key]
  | _ => []

def ClientPc.fetching : ClientPc → Option String
  | .getDisk key | .getPromote key _ => some key
  | _ => none

def WriterPc.unwritten : WriterPc → List Job
  | .writing job => [job]
  | _ => []

/-- The number of jobs in flight that are not counted as persisted. -/
def WriterPc.uncounted : WriterPc → Nat
  | .writing _ | .written => 1
  | _ => 0

def WriterPc.writes : WriterPc → Bool
  | .writing _ | .written | .persisted => true
  | _ => false

def stored (s : CacheStoreAsync Unit) : List Job :=
  returnedPuts s.history ++ ClientPc.stored (s.client ())

def pushed (s : CacheStoreAsync Unit) : List Job :=
  returnedPuts s.history ++ ClientPc.pushed (s.client ())

def counted (s : CacheStoreAsync Unit) : List Job :=
  returnedPuts s.history ++ ClientPc.counted (s.client ())

/-- The keys of the puts called so far. -/
def called (s : CacheStoreAsync Unit) : List String :=
  (returnedPuts s.history).map Prod.fst ++ ClientPc.putting (s.client ())

def missing (s : CacheStoreAsync Unit) : List Job := WriterPc.unwritten s.writer ++ s.q

/-- The file of a key after the writer has written every job. -/
def drained (s : CacheStoreAsync Unit) (key : String) : Option Bytes :=
  ((lastPut (missing s) key).map entryBytes).or (s.disk.read (binName key))

/-- Every get returned the last value put before it. -/
def GetsLast (history : List (Call × Option Bytes)) : Prop :=
  ∀ (index : Nat) (key : String) (result : Option Bytes) (bin : Bytes),
    history[index]? = some (.get key, result) →
    lastPut (returnedPuts (history.take index)) key = some bin → result = some bin

def HoldsPuts (s : CacheStoreAsync Unit) : Prop :=
  ∀ key bin, lastPut (returnedPuts s.history) key = some bin →
    s.disk.read (binName key) = some (entryBytes bin)

structure Settled (s : CacheStoreAsync Unit) : Prop where
  queue : s.q = []
  idle : s.busy = false
  counts : s.writesPersisted = s.writesQueued
  files : HoldsPuts s

theorem holds_puts_get {s : CacheStoreAsync Unit} (holds : HoldsPuts s) {key : String} {bin : Bytes}
    (last : lastPut (returnedPuts s.history) key = some bin) (small : bin.length < 2 ^ 32) :
    CacheStoreModel.get s.disk key = some bin := by
  rw [CacheStoreModel.get, holds key bin last]
  exact parse_entry small

/-! ## L1 holds the last value put -/

structure Cached (s : CacheStoreAsync Unit) : Prop where
  l1 : ∀ key bin, lastPut (stored s) key = some bin → s.l1 key = some bin
  fetching : ∀ key, ClientPc.fetching (s.client ()) = some key → s.l1 key = none
  gets : GetsLast s.history

theorem gets_last_snoc {history : List (Call × Option Bytes)} (gets : GetsLast history)
    {call : Call} {result : Option Bytes}
    (last : ∀ key, call = .get key → ∀ bin, lastPut (returnedPuts history) key = some bin →
      result = some bin) :
    GetsLast (history ++ [(call, result)]) := by
  intro index key found bin at_index before
  rcases Nat.lt_trichotomy index history.length with earlier | now | beyond
  · rw [List.getElem?_append_left earlier] at at_index
    rw [List.take_append_of_le_length (Nat.le_of_lt earlier)] at before
    exact gets index key found bin at_index before
  · subst now
    rw [List.getElem?_append_right (Nat.le_refl _)] at at_index
    rw [List.take_left] at before
    simp only [Nat.sub_self, List.getElem?_cons_zero, Option.some.injEq, Prod.mk.injEq] at at_index
    rw [← at_index.2]
    exact last key at_index.1 bin before
  · rw [List.getElem?_eq_none (by simp only [List.length_append, List.length_singleton]; omega)]
      at at_index
    cases at_index

theorem cached_of_same {s after : CacheStoreAsync Unit} (cached : Cached s)
    (l1 : after.l1 = s.l1) (history : after.history = s.history)
    (stays : ClientPc.stored (after.client ()) = ClientPc.stored (s.client ()))
    (fetching : ∀ key, ClientPc.fetching (after.client ()) = some key →
      s.l1 key = none) : Cached after := by
  refine ⟨fun key bin last => ?_, fun key fetched => ?_, ?_⟩
  · rw [stored, history, stays] at last
    rw [l1]
    exact cached.l1 key bin last
  · rw [l1]
    exact fetching key fetched
  · rw [history]
    exact cached.gets

theorem cached_of_finish {s : CacheStoreAsync Unit} (last : CacheStoreAsync Unit) (cached : Cached s)
    (outside : ClientPc.stored (s.client ()) = []) (history : last.history = s.history)
    (l1 : ∀ key bin, s.l1 key = some bin → last.l1 key = some bin) {call : Call}
    {result : Option Bytes}
    (quiet : returnedPuts (s.history ++ [(call, result)]) = returnedPuts s.history)
    (answer : ∀ key, call = .get key → ∀ bin, s.l1 key = some bin → result = some bin) :
    Cached (last.finish () call result) := by
  have returned : ∀ key bin, lastPut (returnedPuts s.history) key = some bin →
      s.l1 key = some bin := by
    intro key bin put
    exact cached.l1 key bin (by rw [stored, outside, List.append_nil]; exact put)
  refine ⟨fun key bin put => l1 key bin (returned key bin ?_),
    by simp [finish, goto, ClientPc.fetching], ?_⟩
  · simpa [stored, finish, goto, history, quiet, ClientPc.stored] using put
  · change GetsLast (last.history ++ [(call, result)])
    rw [history]
    refine gets_last_snoc cached.gets fun key same bin put => ?_
    exact answer key same bin (returned key bin put)

theorem client_cached {s after : CacheStoreAsync Unit} (cached : Cached s)
    (moves : ClientMoves s () after) : Cached after := by
  cases moves with
  | lookupHit key bin pc found =>
      refine cached_of_finish { s with l1Hits := s.l1Hits + 1 } cached (by rw [pc]; rfl) rfl
        (fun _ _ held => held) (by simp [returnedPuts]) fun name same value held => ?_
      cases same
      exact found.symm.trans held
  | lookupMiss key pc missed =>
      refine cached_of_same cached rfl rfl (by simp [goto, pc, ClientPc.stored]) ?_
      intro name fetched
      simp only [goto, Function.update_self, ClientPc.fetching, Option.some.injEq] at fetched
      rw [← fetched]
      exact missed
  | diskHit key bin pc found =>
      refine cached_of_same cached rfl rfl (by simp [goto, pc, ClientPc.stored]) ?_
      intro name fetched
      refine cached.fetching name ?_
      simpa [goto, pc, ClientPc.fetching] using fetched
  | diskMiss key pc missed =>
      have absent := cached.fetching key (by rw [pc]; rfl)
      refine cached_of_finish s cached (by rw [pc]; rfl) rfl (fun _ _ held => held)
        (by simp [returnedPuts]) fun name same value held => ?_
      cases same
      rw [absent] at held
      cases held
  | promote key bin pc =>
      have absent := cached.fetching key (by rw [pc]; rfl)
      refine cached_of_finish (s.setL1 key bin) cached (by rw [pc]; rfl) rfl
        (fun name value held => ?_) (by simp [returnedPuts]) fun name same value held => ?_
      · have other : name ≠ key := by
          rintro rfl
          rw [absent] at held
          cases held
        exact (Function.update_of_ne other _ _).trans held
      · cases same
        rw [absent] at held
        cases held
  | store key bin pc =>
      refine ⟨fun name value last => ?_, by simp [goto, ClientPc.fetching], cached.gets⟩
      rw [stored] at last
      simp only [goto, setL1, Function.update_self, ClientPc.stored, last_put_snoc] at last
      by_cases same : key = name
      · rw [if_pos same] at last
        simpa [goto, setL1, same] using last
      · rw [if_neg same] at last
        simp only [goto, setL1, Function.update_of_ne (Ne.symm same)]
        exact cached.l1 name value (by simpa [stored, pc, ClientPc.stored] using last)
  | queue key bin pc unlocked =>
      exact cached_of_same cached rfl rfl (by simp [goto, pc, ClientPc.stored])
        (by simp [goto, ClientPc.fetching])
  | count key bin pc =>
      exact cached_of_same cached rfl rfl (by simp [goto, pc, ClientPc.stored])
        (by simp [goto, ClientPc.fetching])
  | flushed pc unlocked empty done =>
      exact cached_of_finish s cached (by rw [pc]; rfl) rfl (fun _ _ held => held)
        (by simp [returnedPuts]) fun name same => by cases same
  | waits pc unlocked pending =>
      exact cached_of_same cached rfl rfl (by simp [goto, pc, ClientPc.stored])
        (by simp [goto, ClientPc.fetching])
  | blocks pc =>
      exact cached_of_same cached rfl rfl (by simp [goto, pc, ClientPc.stored])
        (by simp [goto, ClientPc.fetching])

/-! ## The jobs of the client -/

structure KeepsJobs (s after : CacheStoreAsync Unit) : Prop where
  q : after.q = s.q
  disk : after.disk = s.disk
  writer : after.writer = s.writer
  busy : after.busy = s.busy
  writesQueued : after.writesQueued = s.writesQueued
  writesPersisted : after.writesPersisted = s.writesPersisted
  pushed : pushed after = pushed s
  counted : counted after = counted s

theorem client_jobs {s after : CacheStoreAsync Unit} (moves : ClientMoves s () after) :
    KeepsJobs s after ∨
    (∃ key bin, s.client () = .putQueue key bin ∧
      after = { s with q := s.q ++ [(key, bin)] }.goto () (.putCount key bin)) ∨
    ∃ key bin, s.client () = .putCount key bin ∧
      after = { s with writesQueued := s.writesQueued + 1 }.goto () (.putNotify key bin) := by
  cases moves with
  | queue key bin pc unlocked => exact Or.inr (Or.inl ⟨key, bin, pc, rfl⟩)
  | count key bin pc => exact Or.inr (Or.inr ⟨key, bin, pc, rfl⟩)
  | lookupHit key bin pc found =>
      exact Or.inl ⟨rfl, rfl, rfl, rfl, rfl, rfl,
        by simp [pushed, finish, goto, returnedPuts, pc, ClientPc.pushed],
        by simp [counted, finish, goto, returnedPuts, pc, ClientPc.counted]⟩
  | lookupMiss key pc missed =>
      exact Or.inl ⟨rfl, rfl, rfl, rfl, rfl, rfl, by simp [pushed, goto, pc, ClientPc.pushed],
        by simp [counted, goto, pc, ClientPc.counted]⟩
  | diskHit key bin pc found =>
      exact Or.inl ⟨rfl, rfl, rfl, rfl, rfl, rfl, by simp [pushed, goto, pc, ClientPc.pushed],
        by simp [counted, goto, pc, ClientPc.counted]⟩
  | diskMiss key pc missed =>
      exact Or.inl ⟨rfl, rfl, rfl, rfl, rfl, rfl,
        by simp [pushed, finish, goto, returnedPuts, pc, ClientPc.pushed],
        by simp [counted, finish, goto, returnedPuts, pc, ClientPc.counted]⟩
  | promote key bin pc =>
      exact Or.inl ⟨rfl, rfl, rfl, rfl, rfl, rfl,
        by simp [pushed, finish, goto, setL1, returnedPuts, pc, ClientPc.pushed],
        by simp [counted, finish, goto, setL1, returnedPuts, pc, ClientPc.counted]⟩
  | store key bin pc =>
      exact Or.inl ⟨rfl, rfl, rfl, rfl, rfl, rfl,
        by simp [pushed, goto, setL1, pc, ClientPc.pushed],
        by simp [counted, goto, setL1, pc, ClientPc.counted]⟩
  | flushed pc unlocked empty done =>
      exact Or.inl ⟨rfl, rfl, rfl, rfl, rfl, rfl,
        by simp [pushed, finish, goto, returnedPuts, pc, ClientPc.pushed],
        by simp [counted, finish, goto, returnedPuts, pc, ClientPc.counted]⟩
  | waits pc unlocked pending =>
      exact Or.inl ⟨rfl, rfl, rfl, rfl, rfl, rfl, by simp [pushed, goto, pc, ClientPc.pushed],
        by simp [counted, goto, pc, ClientPc.counted]⟩
  | blocks pc =>
      exact Or.inl ⟨rfl, rfl, rfl, rfl, rfl, rfl, by simp [pushed, goto, pc, ClientPc.pushed],
        by simp [counted, goto, pc, ClientPc.counted]⟩

theorem client_inside {s after : CacheStoreAsync Unit} (moves : ClientMoves s () after) :
    s.client () ≠ .idle ∧ after.writer = s.writer ∧ after.stop = s.stop ∧
      after.destructor = s.destructor := by
  cases moves <;> exact ⟨by simp [*], rfl, rfl, rfl⟩

/-! ## Plain keys -/

/-- A put is called with a plain key; gets may have any. -/
def PlainCall : Action Unit → Prop
  | .call _ (.put key _) => Plain key
  | _ => True

instance plainCallDecidable : ∀ action, Decidable (PlainCall action)
  | .call _ (.put key _) => inferInstanceAs (Decidable (Plain key))
  | .call _ (.get _) | .call _ .flush | .client _ | .notify _ _ | .writer | .destroy
  | .destructor => inferInstanceAs (Decidable True)

structure PlainPuts (s : CacheStoreAsync Unit) : Prop where
  called : ∀ key ∈ called s, Plain key
  missing : ∀ job ∈ missing s, Plain job.1

theorem plain_of_same {s after : CacheStoreAsync Unit} (plain : PlainPuts s)
    (names : called after = called s) (jobs : missing after ⊆ missing s) : PlainPuts after :=
  ⟨fun key member => plain.called key (names ▸ member),
    fun job member => plain.missing job (jobs member)⟩

theorem client_called {s after : CacheStoreAsync Unit} (moves : ClientMoves s () after) :
    called after = called s := by
  cases moves with
  | lookupHit key bin pc found | diskMiss key pc missed | promote key bin pc
  | flushed pc unlocked empty done =>
      simp [called, finish, goto, setL1, returnedPuts, pc, ClientPc.putting]
  | lookupMiss key pc missed | diskHit key bin pc found | store key bin pc
  | queue key bin pc unlocked | count key bin pc | waits pc unlocked pending | blocks pc =>
      simp [called, goto, setL1, pc, ClientPc.putting]

theorem client_plain {s after : CacheStoreAsync Unit} (plain : PlainPuts s)
    (moves : ClientMoves s () after) : PlainPuts after := by
  have names := client_called moves
  obtain kept | ⟨key, bin, pc, rfl⟩ | ⟨key, bin, pc, rfl⟩ := client_jobs moves
  · apply plain_of_same plain names
    rw [missing, kept.q, kept.writer]
    exact List.Subset.refl _
  · refine ⟨fun name member => plain.called name (names ▸ member), ?_⟩
    intro job member
    change job ∈ WriterPc.unwritten s.writer ++ (s.q ++ [(key, bin)]) at member
    rw [← List.append_assoc, List.mem_append, List.mem_singleton] at member
    rcases member with old | rfl
    · exact plain.missing job old
    · apply plain.called key
      rw [called, pc]
      exact List.mem_append_right _ List.mem_cons_self
  · exact plain_of_same plain names (List.Subset.refl _)

theorem woken_putting (pc : ClientPc) : ClientPc.putting pc.woken = ClientPc.putting pc := by
  unfold ClientPc.woken
  split <;> rfl

theorem writer_plain {s after : CacheStoreAsync Unit} (plain : PlainPuts s)
    (moves : WriterMoves s after) : PlainPuts after := by
  cases moves with
  | pop job rest pc unlocked queued =>
      refine plain_of_same plain rfl ?_
      simp [missing, pc, queued, WriterPc.unwritten]
  | write job disk pc done =>
      refine plain_of_same plain rfl ?_
      simp [missing, pc, WriterPc.unwritten]
  | stopped pc unlocked empty stop | waits pc unlocked empty running | blocks pc | count pc =>
      refine plain_of_same plain rfl ?_
      simp [missing, pc, WriterPc.unwritten]
  | signal pc unlocked =>
      split
      case isTrue =>
        apply plain_of_same plain
        · simp [called, notifyAll, woken_putting]
        · simp [missing, notifyAll, pc, WriterPc.unwritten]
      case isFalse =>
        refine plain_of_same plain rfl ?_
        simp [missing, pc, WriterPc.unwritten]

/-! ## The files once every job is written -/

/-- The files that result from the jobs hold the last value pushed. -/
def Queued (s : CacheStoreAsync Unit) : Prop :=
  ∀ key, Plain key → ∀ bin, lastPut (pushed s) key = some bin →
    drained s key = some (entryBytes bin)

theorem queued_of_same {s after : CacheStoreAsync Unit} (queued : Queued s)
    (jobs : pushed after = pushed s)
    (files : ∀ key, Plain key → drained after key = drained s key) : Queued after := by
  intro key plain bin last
  rw [files key plain]
  exact queued key plain bin (jobs ▸ last)

theorem drained_push (s : CacheStoreAsync Unit) (job : Job) (pc : ClientPc) (key : String) :
    drained ({ s with q := s.q ++ [job] }.goto () pc) key =
      if job.1 = key then some (entryBytes job.2) else drained s key := by
  simp only [drained, missing, goto]
  rw [← List.append_assoc, last_put_snoc]
  by_cases hit : job.1 = key
  · simp [hit]
  · simp [hit]

theorem client_queued {s after : CacheStoreAsync Unit} (queued : Queued s)
    (moves : ClientMoves s () after) : Queued after := by
  obtain kept | ⟨key, bin, pc, rfl⟩ | ⟨key, bin, pc, rfl⟩ := client_jobs moves
  · refine queued_of_same queued kept.pushed fun key _ => ?_
    rw [drained, missing, kept.q, kept.writer, kept.disk]
    rfl
  · intro name plain value last
    rw [pushed] at last
    simp only [goto, Function.update_self, ClientPc.pushed, last_put_snoc] at last
    rw [drained_push]
    by_cases same : key = name
    · rw [if_pos same] at last ⊢
      rw [Option.some.inj last]
    · rw [if_neg same] at last ⊢
      exact queued name plain value (by simpa [pushed, pc, ClientPc.pushed] using last)
  · exact queued_of_same queued (by simp [pushed, goto, pc, ClientPc.pushed]) fun _ _ => rfl

/-- A put written to disk was the first of the jobs. -/
theorem drained_write {s : CacheStoreAsync Unit} {job : Job} {disk : Directory String}
    (pc : s.writer = .writing job) (plain : Plain job.1)
    (done : CacheStoreModel.put s.disk job.1 job.2 = some disk) {key : String}
    (keyPlain : Plain key) :
    drained { s with disk, writer := .written } key = drained s key := by
  simp only [drained, missing, pc, WriterPc.unwritten, List.nil_append, List.singleton_append]
  rw [last_put_cons, put_bin_file done plain keyPlain]
  cases lastPut s.q key with
  | some bin => simp
  | none =>
      by_cases hit : job.1 = key
      · simp [hit]
      · simp [hit, Ne.symm hit]

theorem woken_pushed (pc : ClientPc) : ClientPc.pushed pc.woken = ClientPc.pushed pc := by
  unfold ClientPc.woken
  split <;> rfl

theorem woken_unwritten (pc : WriterPc) : WriterPc.unwritten pc.woken = WriterPc.unwritten pc := by
  unfold WriterPc.woken
  split <;> rfl

theorem writer_drained {s after : CacheStoreAsync Unit} (plain : PlainPuts s)
    (moves : WriterMoves s after) :
    pushed after = pushed s ∧ ∀ key, Plain key → drained after key = drained s key := by
  cases moves with
  | pop job rest pc unlocked queued =>
      refine ⟨rfl, fun key _ => ?_⟩
      simp [drained, missing, pc, queued, WriterPc.unwritten]
  | stopped pc unlocked empty stop | waits pc unlocked empty running | blocks pc | count pc =>
      refine ⟨rfl, fun key _ => ?_⟩
      simp [drained, missing, pc, WriterPc.unwritten]
  | write job disk pc done =>
      have inFlight : job ∈ missing s := by simp [missing, pc, WriterPc.unwritten]
      exact ⟨rfl, fun key keyPlain => drained_write pc (plain.missing job inFlight) done keyPlain⟩
  | signal pc unlocked =>
      split
      case isTrue =>
        refine ⟨by simp [pushed, notifyAll, woken_pushed], fun key _ => ?_⟩
        simp [drained, missing, notifyAll, pc, WriterPc.unwritten]
      case isFalse =>
        refine ⟨rfl, fun key _ => ?_⟩
        simp [drained, missing, pc, WriterPc.unwritten]

/-! ## Counters and the end of the writer -/

structure Counted (s : CacheStoreAsync Unit) : Prop where
  queued : s.writesQueued = UInt64.ofNat (counted s).length
  persisted : s.writesPersisted + UInt64.ofNat (s.q.length + WriterPc.uncounted s.writer) =
    UInt64.ofNat (pushed s).length
  busy : s.busy = WriterPc.writes s.writer

theorem counted_of_same {s after : CacheStoreAsync Unit} (counts : Counted s)
    (writesQueued : after.writesQueued = s.writesQueued)
    (writesPersisted : after.writesPersisted = s.writesPersisted) (q : after.q = s.q)
    (writer : after.writer = s.writer) (busy : after.busy = s.busy)
    (jobs : counted after = counted s) (pushes : pushed after = pushed s) : Counted after := by
  refine ⟨?_, ?_, ?_⟩
  · rw [writesQueued, jobs]
    exact counts.queued
  · rw [writesPersisted, q, writer, pushes]
    exact counts.persisted
  · rw [busy, writer]
    exact counts.busy

theorem client_counted {s after : CacheStoreAsync Unit} (counts : Counted s)
    (moves : ClientMoves s () after) : Counted after := by
  obtain kept | ⟨key, bin, pc, rfl⟩ | ⟨key, bin, pc, rfl⟩ := client_jobs moves
  · exact counted_of_same counts kept.writesQueued kept.writesPersisted kept.q kept.writer kept.busy
      kept.counted kept.pushed
  · have before := counts.persisted
    refine ⟨?_, ?_, counts.busy⟩
    · rw [counted]
      simpa [counted, goto, pc, ClientPc.counted] using counts.queued
    · simp only [pushed, pc, ClientPc.pushed, List.append_nil] at before
      simp only [pushed, goto, Function.update_self, ClientPc.pushed, List.length_append,
        List.length_singleton, UInt64.ofNat_add] at before ⊢
      rw [← before]
      ac_rfl
  · have before := counts.queued
    refine ⟨?_, ?_, counts.busy⟩
    · simp only [counted, pc, ClientPc.counted, List.append_nil] at before
      simp only [counted, goto, Function.update_self, ClientPc.counted, List.length_append,
        List.length_singleton, UInt64.ofNat_add, before]
      rfl
    · simpa [pushed, goto, pc, ClientPc.pushed] using counts.persisted

theorem woken_counted (pc : ClientPc) : ClientPc.counted pc.woken = ClientPc.counted pc := by
  unfold ClientPc.woken
  split <;> rfl

theorem woken_stored (pc : ClientPc) : ClientPc.stored pc.woken = ClientPc.stored pc := by
  unfold ClientPc.woken
  split <;> rfl

theorem woken_fetching (pc : ClientPc) : ClientPc.fetching pc.woken = ClientPc.fetching pc := by
  unfold ClientPc.woken
  split <;> rfl

theorem woken_uncounted (pc : WriterPc) : WriterPc.uncounted pc.woken = WriterPc.uncounted pc := by
  unfold WriterPc.woken
  split <;> rfl

theorem woken_writes (pc : WriterPc) : WriterPc.writes pc.woken = WriterPc.writes pc := by
  unfold WriterPc.woken
  split <;> rfl

theorem woken_returned {pc : WriterPc} (exited : pc.woken = .returned) : pc = .returned := by
  unfold WriterPc.woken at exited
  split at exited
  case h_1 => cases exited
  case h_2 => exact exited

/-- A writer step keeps the sum of persisted and outstanding jobs. -/
theorem counted_of_total {s after : CacheStoreAsync Unit} (counts : Counted s)
    (writesQueued : after.writesQueued = s.writesQueued) (jobs : counted after = counted s)
    (pushes : pushed after = pushed s)
    (total : after.writesPersisted + UInt64.ofNat (after.q.length + WriterPc.uncounted after.writer) =
      s.writesPersisted + UInt64.ofNat (s.q.length + WriterPc.uncounted s.writer))
    (busy : after.busy = WriterPc.writes after.writer) : Counted after := by
  refine ⟨?_, ?_, busy⟩
  · rw [writesQueued, jobs]
    exact counts.queued
  · rw [total, pushes]
    exact counts.persisted

theorem writer_counted {s after : CacheStoreAsync Unit} (counts : Counted s)
    (moves : WriterMoves s after) : Counted after := by
  have busy := counts.busy
  cases moves with
  | pop job rest pc unlocked queued =>
      exact counted_of_total counts rfl rfl rfl (by simp [pc, queued, WriterPc.uncounted]) rfl
  | stopped pc unlocked empty stop =>
      rw [pc] at busy
      exact counted_of_total counts rfl rfl rfl (by simp [pc, WriterPc.uncounted]) busy
  | waits pc unlocked empty running =>
      rw [pc] at busy
      exact counted_of_total counts rfl rfl rfl (by simp [pc, WriterPc.uncounted]) busy
  | blocks pc =>
      rw [pc] at busy
      exact counted_of_total counts rfl rfl rfl (by simp [pc, WriterPc.uncounted]) busy
  | write job disk pc done =>
      rw [pc] at busy
      exact counted_of_total counts rfl rfl rfl (by simp [pc, WriterPc.uncounted]) busy
  | count pc =>
      rw [pc] at busy
      refine counted_of_total counts rfl rfl rfl ?_ busy
      have one : UInt64.ofNat 1 = 1 := rfl
      simp only [pc, WriterPc.uncounted, UInt64.ofNat_add, Nat.add_zero, one]
      ac_rfl
  | signal pc unlocked =>
      have settled : Counted { s with busy := false, writer := .wait .evaluate } :=
        counted_of_total counts rfl rfl rfl (by simp [pc, WriterPc.uncounted]) rfl
      split
      case isTrue =>
        exact counted_of_same settled rfl rfl rfl rfl rfl
          (by simp [counted, notifyAll, woken_counted]) (by simp [pushed, notifyAll, woken_pushed])
      case isFalse => exact settled

/-- The destructor runs without a client, and the writer leaves nothing behind. -/
structure Closing (s : CacheStoreAsync Unit) : Prop where
  stopped : s.stop = true → s.destructor ≠ .alive
  idle : s.destructor ≠ .alive → s.client () = .idle
  returned : s.writer = .returned → s.stop = true ∧ s.q = []

theorem client_closing {s after : CacheStoreAsync Unit} (closing : Closing s)
    (moves : ClientMoves s () after) : Closing after := by
  obtain ⟨inside, writer, stop, destructor⟩ := client_inside moves
  have alive : s.destructor = .alive := by
    by_contra ending
    exact inside (closing.idle ending)
  have running : s.writer ≠ .returned :=
    fun exited => closing.stopped (closing.returned exited).1 alive
  refine ⟨fun stopped => ?_, fun ending => ?_, fun exited => ?_⟩
  · rw [destructor]
    exact closing.stopped (stop.symm.trans stopped)
  · exact absurd (destructor.trans alive) ending
  · exact absurd (writer.symm.trans exited) running

theorem writer_closing {s after : CacheStoreAsync Unit} (closing : Closing s)
    (moves : WriterMoves s after) : Closing after := by
  cases moves with
  | pop job rest pc unlocked queued => exact ⟨closing.stopped, closing.idle, by simp⟩
  | stopped pc unlocked empty stop => exact ⟨closing.stopped, closing.idle, fun _ => ⟨stop, empty⟩⟩
  | waits pc unlocked empty running => exact ⟨closing.stopped, closing.idle, by simp⟩
  | blocks pc => exact ⟨closing.stopped, closing.idle, by simp⟩
  | write job disk pc done => exact ⟨closing.stopped, closing.idle, by simp⟩
  | count pc => exact ⟨closing.stopped, closing.idle, by simp⟩
  | signal pc unlocked =>
      split
      case isTrue =>
        refine ⟨closing.stopped, fun ending => ?_, by simp⟩
        simp [notifyAll, closing.idle ending, ClientPc.woken]
      case isFalse => exact ⟨closing.stopped, closing.idle, by simp⟩

/-! ## Runs -/

structure Durable (s : CacheStoreAsync Unit) : Prop where
  plain : PlainPuts s
  cached : Cached s
  queued : Queued s
  counts : Counted s
  closing : Closing s

structure SameWork (s after : CacheStoreAsync Unit) : Prop where
  l1 : after.l1 = s.l1
  disk : after.disk = s.disk
  q : after.q = s.q
  busy : after.busy = s.busy
  writesQueued : after.writesQueued = s.writesQueued
  writesPersisted : after.writesPersisted = s.writesPersisted
  history : after.history = s.history

theorem same_work_refl (s : CacheStoreAsync Unit) : SameWork s s :=
  ⟨rfl, rfl, rfl, rfl, rfl, rfl, rfl⟩

theorem notified_same_work (s : CacheStoreAsync Unit)
    (woken : Option (CacheAsyncModel.Waiter Unit)) : SameWork s (notified s woken) := by
  cases woken with
  | none => exact same_work_refl s
  | some waiter => cases waiter <;> exact ⟨rfl, rfl, rfl, rfl, rfl, rfl, rfl⟩

theorem woken_durable {s after : CacheStoreAsync Unit} (durable : Durable s)
    (client : after.client () = s.client () ∨ after.client () = (s.client ()).woken)
    (writer : after.writer = s.writer ∨ after.writer = s.writer.woken)
    (same : SameWork s after) (closing : Closing after) : Durable after := by
  have stays : ∀ {Value : Type} (view : ClientPc → Value), (∀ pc : ClientPc, view pc.woken = view pc) →
      view (after.client ()) = view (s.client ()) := by
    intro Value view kept
    rcases client with client | client
    · rw [client]
    · rw [client, kept]
  have works : ∀ {Value : Type} (view : WriterPc → Value), (∀ pc : WriterPc, view pc.woken = view pc) →
      view after.writer = view s.writer := by
    intro Value view kept
    rcases writer with writer | writer
    · rw [writer]
    · rw [writer, kept]
  have stored := stays ClientPc.stored woken_stored
  have pushed := stays ClientPc.pushed woken_pushed
  have counted := stays ClientPc.counted woken_counted
  have fetching := stays ClientPc.fetching woken_fetching
  have putting := stays ClientPc.putting woken_putting
  have unwritten := works WriterPc.unwritten woken_unwritten
  have uncounted := works WriterPc.uncounted woken_uncounted
  have writes := works WriterPc.writes woken_writes
  have pushes : CacheAsyncDurability.pushed after = CacheAsyncDurability.pushed s := by
    rw [CacheAsyncDurability.pushed, pushed, same.history]
    rfl
  have jobs : missing after = missing s := by
    rw [missing, unwritten, same.q]
    rfl
  refine ⟨?_, ?_, ?_, ?_, closing⟩
  · refine plain_of_same durable.plain ?_ (jobs ▸ List.Subset.refl _)
    rw [called, putting, same.history]
    rfl
  · refine cached_of_same durable.cached same.l1 same.history stored fun key fetched => ?_
    rw [fetching] at fetched
    exact durable.cached.fetching key fetched
  · refine queued_of_same durable.queued pushes fun key _ => ?_
    rw [drained, jobs, same.disk]
    rfl
  · refine counted_of_total durable.counts same.writesQueued ?_ pushes ?_ ?_
    · rw [CacheAsyncDurability.counted, counted, same.history]
      rfl
    · rw [uncounted, same.q, same.writesPersisted]
    · rw [writes]
      exact same.busy.trans durable.counts.busy

theorem notified_durable {s : CacheStoreAsync Unit} (durable : Durable s)
    (woken : Option (CacheAsyncModel.Waiter Unit)) : Durable (notified s woken) := by
  have same := notified_same_work s woken
  cases woken with
  | none => exact durable
  | some waiter =>
      cases waiter with
      | client tid =>
          refine woken_durable durable (Or.inr (by simp [notified, wake, goto])) (Or.inl rfl) same
            ⟨durable.closing.stopped, fun ending => ?_, durable.closing.returned⟩
          simp [notified, wake, goto, durable.closing.idle ending, ClientPc.woken]
      | writer =>
          refine woken_durable durable (Or.inl rfl) (Or.inr rfl) same
            ⟨durable.closing.stopped, durable.closing.idle, fun exited => ?_⟩
          exact durable.closing.returned (woken_returned exited)

theorem destructor_same_work {s after : CacheStoreAsync Unit} (moves : DestructorMoves s after) :
    SameWork s after := by
  cases moves <;> exact ⟨rfl, rfl, rfl, rfl, rfl, rfl, rfl⟩

theorem put_returns_durable {s : CacheStoreAsync Unit} (durable : Durable s) {key : String}
    {bin : Bytes} (pc : s.client () = .putNotify key bin) :
    Durable (s.finish () (.put key bin) none) := by
  have returned : returnedPuts (s.history ++ [(.put key bin, none)]) =
      returnedPuts s.history ++ [(key, bin)] := returned_puts_snoc _ _ _
  have jobs : pushed (s.finish () (.put key bin) none) = pushed s := by
    simp [pushed, finish, goto, returned, pc, ClientPc.pushed]
  have names : called (s.finish () (.put key bin) none) = called s := by
    simp [called, finish, goto, returned, pc, ClientPc.putting]
  refine ⟨plain_of_same durable.plain names (List.Subset.refl _),
    ⟨fun name value last => durable.cached.l1 name value ?_,
      by simp [finish, goto, ClientPc.fetching], gets_last_snoc durable.cached.gets (by simp)⟩,
    queued_of_same durable.queued jobs fun _ _ => rfl,
    counted_of_same durable.counts rfl rfl rfl rfl rfl ?_ jobs,
    durable.closing.stopped, fun _ => finish_client _ _ _, durable.closing.returned⟩
  · simpa [stored, finish, goto, returned, pc, ClientPc.stored] using last
  · simp [counted, finish, goto, returned, pc, ClientPc.counted]

theorem writer_cached {s after : CacheStoreAsync Unit} (cached : Cached s)
    (moves : WriterMoves s after) : Cached after := by
  cases moves with
  | signal pc unlocked =>
      split
      case isTrue =>
        refine cached_of_same cached rfl rfl (woken_stored _) fun key fetched => ?_
        exact cached.fetching key ((woken_fetching _).symm.trans fetched)
      case isFalse => exact cached_of_same cached rfl rfl rfl cached.fetching
  | pop => exact cached_of_same cached rfl rfl rfl cached.fetching
  | stopped => exact cached_of_same cached rfl rfl rfl cached.fetching
  | waits => exact cached_of_same cached rfl rfl rfl cached.fetching
  | blocks => exact cached_of_same cached rfl rfl rfl cached.fetching
  | write => exact cached_of_same cached rfl rfl rfl cached.fetching
  | count => exact cached_of_same cached rfl rfl rfl cached.fetching

theorem call_durable {s : CacheStoreAsync Unit} (durable : Durable s)
    (alive : s.destructor = .alive) (pc : s.client () = .idle) {call : Call}
    (plain : PlainCall (.call () call)) : Durable (s.goto () (entry call)) := by
  have closing : Closing (s.goto () (entry call)) :=
    ⟨durable.closing.stopped, fun ending => absurd alive ending, durable.closing.returned⟩
  have jobs : pushed (s.goto () (entry call)) = pushed s := by
    cases call <;> simp [pushed, goto, entry, pc, ClientPc.pushed]
  refine ⟨⟨?_, durable.plain.missing⟩, ?_, queued_of_same durable.queued jobs fun _ _ => rfl,
    counted_of_same durable.counts rfl rfl rfl rfl rfl ?_ jobs, closing⟩
  · intro key member
    rcases List.mem_append.mp member with old | new
    · exact durable.plain.called key (List.mem_append_left _ old)
    · cases call with
      | put name bin =>
          simp only [goto, Function.update_self, entry, ClientPc.putting,
            List.mem_singleton] at new
          exact new ▸ plain
      | get name => simp [goto, entry, ClientPc.putting] at new
      | flush => simp [goto, entry, ClientPc.putting] at new
  · refine cached_of_same durable.cached rfl rfl ?_ ?_
    · cases call <;> simp [goto, entry, pc, ClientPc.stored]
    · cases call <;> simp [goto, entry, ClientPc.fetching]
  · cases call <;> simp [counted, goto, entry, pc, ClientPc.counted]

theorem writer_history {s after : CacheStoreAsync Unit} (moves : WriterMoves s after) :
    after.history = s.history := by
  cases moves with
  | signal pc unlocked => split <;> rfl
  | _ => rfl

theorem moves_durable {s after : CacheStoreAsync Unit} {action : Action Unit} (durable : Durable s)
    (plain : PlainCall action) (moves : Moves s action after) : Durable after := by
  cases moves with
  | call tid call alive pc => exact call_durable durable alive pc plain
  | client tid after moves =>
      exact ⟨client_plain durable.plain moves, client_cached durable.cached moves,
        client_queued durable.queued moves, client_counted durable.counts moves,
        client_closing durable.closing moves⟩
  | notify tid key bin woken pc blocked nobody =>
      refine put_returns_durable (notified_durable durable woken) ?_
      cases woken with
      | none => exact pc
      | some waiter =>
          cases waiter with
          | client other => simp [notified, wake, goto, pc, ClientPc.woken]
          | writer => exact pc
  | writer after moves =>
      obtain ⟨jobs, files⟩ := writer_drained durable.plain moves
      exact ⟨writer_plain durable.plain moves, writer_cached durable.cached moves,
        queued_of_same durable.queued jobs files, writer_counted durable.counts moves,
        writer_closing durable.closing moves⟩
  | destroy alive idle =>
      have same : SameWork s { s with destructor := .setStop } := ⟨rfl, rfl, rfl, rfl, rfl, rfl, rfl⟩
      exact woken_durable durable (Or.inl rfl) (Or.inl rfl) same
        ⟨fun _ => by simp, fun _ => idle (), durable.closing.returned⟩
  | destructor after moves =>
      have same := destructor_same_work moves
      cases moves with
      | setStop pc =>
          refine woken_durable durable (Or.inl rfl) (Or.inl rfl) same ⟨fun _ => by simp,
            fun _ => durable.closing.idle (by simp [pc]),
            fun exited => ⟨rfl, (durable.closing.returned exited).2⟩⟩
      | notifyAll pc =>
          refine woken_durable durable (Or.inr rfl) (Or.inr rfl) same ⟨fun _ => by simp, fun _ => ?_,
            fun exited => durable.closing.returned (woken_returned exited)⟩
          simp [notifyAll, durable.closing.idle (by simp [pc]), ClientPc.woken]
      | join pc exited =>
          exact woken_durable durable (Or.inl rfl) (Or.inl rfl) same ⟨fun _ => by simp,
            fun _ => durable.closing.idle (by simp [pc]), durable.closing.returned⟩

theorem reached_durable {disk : Directory String} {s : CacheStoreAsync Unit}
    (reached : Reached (fun _ => PlainCall) disk s) : Durable s := by
  refine reaches_invariant ?_ (fun before action after _ durable plain moved =>
    moves_durable durable plain (step_moves moved)) reached
  refine ⟨⟨?_, ?_⟩, ⟨?_, ?_, ?_⟩, ?_, ⟨rfl, rfl, rfl⟩, ⟨?_, ?_, ?_⟩⟩
  · intro key member
    simp [called, create, returnedPuts, ClientPc.putting] at member
  · intro job member
    simp [missing, create, WriterPc.unwritten] at member
  · intro key bin last
    simp [stored, create, returnedPuts, ClientPc.stored, lastPut] at last
  · intro key fetched
    simp [create, ClientPc.fetching] at fetched
  · intro index key result bin found
    simp [create] at found
  · intro key _ bin last
    simp [pushed, create, returnedPuts, ClientPc.pushed, lastPut] at last
  all_goals simp [create]

/-- With no job left and no put under way the files are the last values put. -/
theorem settled_of_drained {s : CacheStoreAsync Unit} (durable : Durable s) (empty : s.q = [])
    (idle : WriterPc.writes s.writer = false) (resting : s.client () = .idle) : Settled s := by
  have unwritten : WriterPc.unwritten s.writer = [] ∧ WriterPc.uncounted s.writer = 0 := by
    cases pc : s.writer <;> simp_all [WriterPc.writes, WriterPc.unwritten, WriterPc.uncounted]
  refine ⟨empty, durable.counts.busy.trans idle, ?_, ?_⟩
  · have persisted := durable.counts.persisted
    have queued := durable.counts.queued
    simp only [empty, unwritten.2, pushed, counted, resting, ClientPc.pushed, ClientPc.counted,
      List.length_nil, Nat.add_zero, List.append_nil] at persisted queued
    rw [queued, ← persisted]
    exact (UInt64.add_zero _).symm
  · intro key bin last
    have plain : Plain key := by
      apply durable.plain.called key
      exact List.mem_append_left _ (List.mem_map_of_mem (f := Prod.fst) (last_put_mem last))
    have file := durable.queued key plain bin
      (by simpa [pushed, resting, ClientPc.pushed] using last)
    simpa [drained, missing, unwritten.1, empty, lastPut] using file

theorem flush_returns_settled {s after : CacheStoreAsync Unit} {action : Action Unit}
    (durable : Durable s) (moves : Moves s action after)
    (returned : after.history = s.history ++ [(.flush, none)]) : Settled after := by
  cases moves with
  | client tid after moves =>
      have plain : PlainCall (.client () : Action Unit) := trivial
      have next := moves_durable durable plain (.client () after moves)
      cases moves with
      | flushed pc unlocked empty done =>
          refine settled_of_drained next empty ?_ (finish_client _ _ _)
          exact durable.counts.busy.symm.trans done
      | lookupHit key bin pc found => simp [finish] at returned
      | diskMiss key pc missed => simp [finish] at returned
      | promote key bin pc => simp [finish, setL1, goto] at returned
      | lookupMiss key pc missed => simp [goto] at returned
      | diskHit key bin pc found => simp [goto] at returned
      | store key bin pc => simp [goto, setL1] at returned
      | queue key bin pc unlocked => simp [goto] at returned
      | count key bin pc => simp [goto] at returned
      | waits pc unlocked pending => simp [goto] at returned
      | blocks pc => simp [goto] at returned
  | call tid call alive pc => simp [goto] at returned
  | notify tid key bin woken pc blocked nobody =>
      simp [finish, (notified_same_work s woken).history] at returned
  | writer after moves => simp [writer_history moves] at returned
  | destroy alive idle => simp at returned
  | destructor after moves => simp [(destructor_same_work moves).history] at returned

/-- Flush and shutdown durability, for every run of one client and the writer whose
puts have plain keys. -/
theorem flush_and_shutdown_durable {disk : Directory String} {s : CacheStoreAsync Unit}
    (reached : Reached (fun _ => PlainCall) disk s) :
    (∀ action after, s.step action = some after →
      after.history = s.history ++ [(.flush, none)] → Settled after) ∧
    GetsLast s.history ∧ (s.writer = .returned → Settled s) := by
  have durable := reached_durable reached
  refine ⟨fun action after moved returned => ?_, durable.cached.gets, fun exited => ?_⟩
  · exact flush_returns_settled durable (step_moves moved) returned
  · obtain ⟨stop, empty⟩ := durable.closing.returned exited
    exact settled_of_drained durable empty (by rw [exited]; rfl)
      (durable.closing.idle (durable.closing.stopped stop))

/-- A put, its write, a flush, and a shutdown that finds nothing to do. -/
def putFlushShutdown : List (Action Unit) :=
  [.call () (.put "key" [7]), .client (), .client (), .client (), .notify () none, .writer, .writer,
    .writer, .writer, .call () .flush, .client (), .call () (.get "key"), .client (), .destroy,
    .destructor, .destructor, .writer]

theorem flush_and_shutdown_durable_put :
    Settled ((runCalls step (fun _ => PlainCall) (create Unit (Directory.empty String))
      putFlushShutdown).get (by decide +kernel)) :=
  (flush_and_shutdown_durable (reaches_of_run_get putFlushShutdown (by decide +kernel))).2.2
    (by decide +kernel)

/-- Two puts whose keys are equal up to a NUL, both written, and a shutdown. -/
def putBehindNul : List (Action Unit) :=
  [.call () (.put "a\x00b" [1]), .client (), .client (), .client (), .notify () none, .writer,
    .writer, .writer, .writer, .call () (.put "a\x00c" [2]), .client (), .client (), .client (),
    .notify () none, .writer, .writer, .writer, .writer, .destroy, .destructor, .destructor,
    .writer]

/-- The second put overwrites the file of the first. -/
theorem shutdown_behind_nul_loses_put :
    ¬∀ (disk : Directory String) (s : CacheStoreAsync Unit), Reached (fun _ _ => True) disk s →
      (∀ action after, s.step action = some after →
        after.history = s.history ++ [(.flush, none)] → Settled after) ∧
      GetsLast s.history ∧ (s.writer = .returned → Settled s) := by
  intro always
  have settled := (always (Directory.empty String) _
    (reaches_of_run_get putBehindNul (by decide +kernel))).2.2 (by decide +kernel)
  exact absurd (settled.files "a\x00b" [1] (by decide +kernel)) (by decide +kernel)

end AmpFormal.CacheAsyncDurability
