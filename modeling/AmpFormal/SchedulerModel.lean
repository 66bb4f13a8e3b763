import AmpFormal.PagePoolFastModel
import AmpFormal.WrappedInts

/-!
# The continuous batching scheduler

A transcription of `Scheduler`. Sequence objects live in a store indexed by
their id and the three queues own them by id, as the `unique_ptr` queues do, so
a raw `Sequence*` is an id and is dangling once no queue owns it. The fields
that no function reads (prompt text, sampling parameters, timestamps, the
chunked-prefill, preemption-mode and policy switches) are left out. The i-th
reading of `now_us()` is `clock i`; `ticks` counts the readings made. Token sums
of the page demand are `int` sums and wrap; counters and token lists are exact.
-/

namespace AmpFormal.SchedulerModel

open AmpFormal.PagePoolFastModel AmpFormal.WrappedInts

set_option autoImplicit false

abbrev Clock := Nat → UInt64

/-- A clock that starts at one microsecond and never stands still. -/
def tickingClock : Clock := fun reading => UInt64.ofNat (reading + 1)

inductive SeqState where
  | waiting
  | prefill
  | decode
  | swapped
  | done
  | aborted
  deriving DecidableEq, Repr

structure SchedulerConfig where
  kvPageSizeTokens : Int := 16
  maxPagesTotal : Int := 2048
  maxBatchTokens : Int := 4096
  maxSeqsRunning : Int := 256
  maxWaitingSeqs : Int := 2048
  maxPrefillTokensPerStep : Int := 2048

def SchedulerConfig.pages (cfg : SchedulerConfig) : Nat := cfg.maxPagesTotal.toNat

structure Sequence (pages : Nat) where
  promptTokens : List Int := []
  outputTokens : List Int := []
  maxNewTokens : Int := 256
  eosTokenId : Int := -1
  state : SeqState := .waiting
  kvPageIds : List (Fin pages) := []
  prefillCursor : Int := 0
  deriving DecidableEq, Repr

namespace Sequence

variable {pages : Nat}

def isDone (s : Sequence pages) : Bool := s.state == .done || s.state == .aborted

def totalTokens (s : Sequence pages) : Int := s.promptTokens.length + s.outputTokens.length

def remainingPrefill (s : Sequence pages) : Int := s.promptTokens.length - s.prefillCursor

def advancePrefill (s : Sequence pages) (nTokens : Int) : Sequence pages :=
  let s := { s with prefillCursor := s.prefillCursor + nTokens }
  if s.remainingPrefill ≤ 0 then { s with state := .decode } else s

def appendToken (s : Sequence pages) (tok : Int) : Sequence pages :=
  { s with outputTokens := s.outputTokens ++ [tok] }

/-- The test of `step_complete` on a sequence to which `tok` was appended. -/
def finishes (s : Sequence pages) (tok : Int) : Bool :=
  ((s.outputTokens.length : Int) ≥ s.maxNewTokens) || (s.eosTokenId ≥ 0 && tok = s.eosTokenId)

end Sequence

structure BatchEntry where
  seq : Int
  nTokens : Int
  isPrefill : Bool
  prefillStart : Int
  deriving DecidableEq, Repr

structure ScheduledBatch where
  entries : List BatchEntry := []
  totalTokens : Int := 0
  nPrefill : Int := 0
  nDecode : Int := 0
  nPreempted : Int := 0
  deriving DecidableEq, Repr

structure Scheduler (cfg : SchedulerConfig) where
  kvPool : PagePoolFast cfg.pages 16
  seqs : Int → Sequence cfg.pages
  waiting : List Int
  running : List Int
  swapped : List Int
  nextId : Int
  totalRequests : Nat
  completed : Nat
  preemptions : Nat
  tokensGenerated : Nat
  ticks : Nat

structure SchedulerStats where
  totalRequests : Nat
  completed : Nat
  preemptions : Nat
  totalTokensGenerated : Nat
  nWaiting : Int
  nRunning : Int
  nSwapped : Int
  kvPagesUsed : Int
  kvPagesFree : Int
  deriving DecidableEq, Repr

namespace Scheduler

variable {cfg : SchedulerConfig}

def create (cfg : SchedulerConfig) : Scheduler cfg where
  kvPool := PagePoolFast.create cfg.pages 16
  seqs := fun _ => {}
  waiting := []
  running := []
  swapped := []
  nextId := 0
  totalRequests := 0
  completed := 0
  preemptions := 0
  tokensGenerated := 0
  ticks := 0

def setSeq (st : Scheduler cfg) (id : Int) (s : Sequence cfg.pages) : Scheduler cfg :=
  { st with seqs := Function.update st.seqs id s }

/-- The outcome is the id, or `none` for the exception "Scheduler waiting
queue full", which is thrown after the id and the request count have moved. -/
def addRequest (st : Scheduler cfg) (promptTokens : List Int) (maxNewTokens eosTokenId : Int) :
    Scheduler cfg × Option Int :=
  let id := st.nextId
  let st := { st with nextId := st.nextId + 1, totalRequests := st.totalRequests + 1 }
  if (st.waiting.length : Int) ≥ cfg.maxWaitingSeqs then (st, none)
  else
    let st := st.setSeq id { promptTokens, maxNewTokens, eosTokenId }
    ({ st with waiting := st.waiting ++ [id] }, some id)

def freePages (st : Scheduler cfg) (id : Int) : Scheduler cfg :=
  if (st.seqs id).kvPageIds = [] then st
  else
    let st := { st with kvPool := st.kvPool.freePages (st.seqs id).kvPageIds }
    st.setSeq id { st.seqs id with kvPageIds := [] }

/-- The body of `abort_in` for a sequence that was found, but for the erase. -/
def abortSequence (st : Scheduler cfg) (id : Int) : Scheduler cfg :=
  let st := st.freePages id
  st.setSeq id { st.seqs id with state := .aborted }

def abortRequest (st : Scheduler cfg) (seqId : Int) : Scheduler cfg :=
  let st := if seqId ∈ st.waiting then
    { st.abortSequence seqId with waiting := st.waiting.erase seqId } else st
  let st := if seqId ∈ st.running then
    { st.abortSequence seqId with running := st.running.erase seqId } else st
  if seqId ∈ st.swapped then
    { st.abortSequence seqId with swapped := st.swapped.erase seqId } else st

end Scheduler

/-- Both sums are `int` sums; the division truncates. -/
def pagesNeededFor (cfg : SchedulerConfig) {pages : Nat} (s : Sequence pages) (nTokens : Int) :
    Int :=
  let total := toInt32 (s.totalTokens + nTokens)
  (toInt32 (total + cfg.kvPageSizeTokens - 1)).tdiv cfg.kvPageSizeTokens

namespace Scheduler

variable {cfg : SchedulerConfig} (clock : Clock)

def tryAllocPages (st : Scheduler cfg) (id : Int) (nNewTokens : Int) : Scheduler cfg × Bool :=
  let needed := pagesNeededFor cfg (st.seqs id) nNewTokens
  let have_ : Int := (st.seqs id).kvPageIds.length
  if needed ≤ have_ then (st, true)
  else
    let extra := (needed - have_).toNat
    let newPages := st.kvPool.alloc extra id (clock st.ticks)
    let st := { st with kvPool := newPages.1, ticks := st.ticks + 1 }
    if newPages.2.length < extra then (st, false)
    else
      let s := st.seqs id
      (st.setSeq id { s with kvPageIds := s.kvPageIds ++ newPages.2 }, true)

def preemptSequence (st : Scheduler cfg) (id : Int) : Scheduler cfg :=
  let st := st.freePages id
  let st := st.setSeq id
    { st.seqs id with state := .waiting, prefillCursor := 0, outputTokens := [] }
  { st with preemptions := st.preemptions + 1 }

def moveFront (st : Scheduler cfg) (front : Int) (rest : List Int) : Scheduler cfg :=
  let st := st.setSeq front { st.seqs front with state := .prefill }
  { st with running := st.running ++ [front], waiting := rest }

/-- The loop of `promote_waiting` on the waiting queue it is given. -/
def promoteLoop : List Int → Scheduler cfg → Scheduler cfg
  | [], st => st
  | front :: rest, st =>
      if (st.running.length : Int) < cfg.maxSeqsRunning then
        let tried := st.tryAllocPages clock front cfg.kvPageSizeTokens
        if tried.2 then promoteLoop rest (tried.1.moveFront front rest) else tried.1
      else st

def promoteWaiting (st : Scheduler cfg) : Scheduler cfg := st.promoteLoop clock st.waiting

end Scheduler

structure BatchLoop (cfg : SchedulerConfig) where
  sched : Scheduler cfg
  decodeSeqs : List Int
  tokensBudget : Int
  batch : ScheduledBatch

namespace BatchLoop

variable {cfg : SchedulerConfig} (clock : Clock)

def emitPrefill (loop : BatchLoop cfg) (id : Int) (chunk : Int) : BatchLoop cfg :=
  let e : BatchEntry :=
    { seq := id, nTokens := chunk, isPrefill := true,
      prefillStart := (loop.sched.seqs id).prefillCursor }
  { loop with
    batch := { loop.batch with
      entries := loop.batch.entries ++ [e]
      totalTokens := loop.batch.totalTokens + chunk
      nPrefill := loop.batch.nPrefill + 1 }
    tokensBudget := loop.tokensBudget - chunk }

def emitDecode (loop : BatchLoop cfg) (id : Int) : BatchLoop cfg :=
  let e : BatchEntry := { seq := id, nTokens := 1, isPrefill := false, prefillStart := 0 }
  { loop with
    batch := { loop.batch with
      entries := loop.batch.entries ++ [e]
      totalTokens := loop.batch.totalTokens + 1
      nDecode := loop.batch.nDecode + 1 }
    tokensBudget := loop.tokensBudget - 1 }

def preempt (loop : BatchLoop cfg) (id : Int) : BatchLoop cfg :=
  { loop with
    sched := loop.sched.preemptSequence id
    batch := { loop.batch with nPreempted := loop.batch.nPreempted + 1 } }

def tryAlloc (loop : BatchLoop cfg) (id : Int) (nNewTokens : Int) : BatchLoop cfg × Bool :=
  let tried := loop.sched.tryAllocPages clock id nNewTokens
  ({ loop with sched := tried.1 }, tried.2)

def preemptLast (loop : BatchLoop cfg) (last : Int) : BatchLoop cfg :=
  { loop.preempt last with decodeSeqs := loop.decodeSeqs.dropLast }

def chunkFor (loop : BatchLoop cfg) (id : Int) : Int :=
  min (min (loop.sched.seqs id).remainingPrefill cfg.maxPrefillTokensPerStep) loop.tokensBudget

/-- One PREFILL sequence: on a failed allocation the last decode sequence is
preempted and the allocation tried once more. -/
def prefillStep (loop : BatchLoop cfg) (id : Int) : BatchLoop cfg :=
  let chunk := loop.chunkFor id
  if chunk ≤ 0 then loop
  else
    let tried := loop.tryAlloc clock id chunk
    if tried.2 then tried.1.emitPrefill id chunk
    else
      match tried.1.decodeSeqs.getLast? with
      | none => tried.1
      | some last =>
          let retried := (tried.1.preemptLast last).tryAlloc clock id chunk
          if retried.2 then retried.1.emitPrefill id chunk else retried.1

def prefillLoop : List Int → BatchLoop cfg → BatchLoop cfg
  | [], loop => loop
  | id :: rest, loop =>
      if loop.tokensBudget ≤ 0 then loop
      else prefillLoop rest (loop.prefillStep clock id)

def decodeStep (loop : BatchLoop cfg) (id : Int) : BatchLoop cfg :=
  let tried := loop.tryAlloc clock id 1
  if tried.2 then tried.1.emitDecode id else tried.1.preempt id

def decodeLoop : List Int → BatchLoop cfg → BatchLoop cfg
  | [], loop => loop
  | id :: rest, loop =>
      if loop.tokensBudget ≤ 0 then loop
      else decodeLoop rest (loop.decodeStep clock id)

end BatchLoop

/-- The locals of `step_complete` while it walks the batch; `callbacks` records
the calls made to the completion callback. -/
structure CompleteLoop (cfg : SchedulerConfig) where
  sched : Scheduler cfg
  decodeIdx : Nat := 0
  callbacks : List (Int × List Int) := []

namespace CompleteLoop

variable {cfg : SchedulerConfig} (clock : Clock)

def completePrefill (loop : CompleteLoop cfg) (e : BatchEntry) : CompleteLoop cfg :=
  { loop with
    sched := loop.sched.setSeq e.seq ((loop.sched.seqs e.seq).advancePrefill e.nTokens) }

def completeDecode (newTokens : List Int) (loop : CompleteLoop cfg) (e : BatchEntry) :
    CompleteLoop cfg :=
  let tok := if loop.decodeIdx < newTokens.length then newTokens.getD loop.decodeIdx 0 else 0
  let decodeIdx :=
    if loop.decodeIdx < newTokens.length then loop.decodeIdx + 1 else loop.decodeIdx
  let s := (loop.sched.seqs e.seq).appendToken tok
  let sched := { loop.sched with
    tokensGenerated := loop.sched.tokensGenerated + 1
    kvPool := loop.sched.kvPool.touch s.kvPageIds (clock loop.sched.ticks)
    ticks := loop.sched.ticks + 1 }
  if s.finishes tok then
    { sched := { sched.setSeq e.seq { s with state := .done } with
        completed := sched.completed + 1 }
      decodeIdx
      callbacks := loop.callbacks ++ [(e.seq, s.outputTokens)] }
  else
    { sched := sched.setSeq e.seq s, decodeIdx, callbacks := loop.callbacks }

def completeEntry (newTokens : List Int) (loop : CompleteLoop cfg) (e : BatchEntry) :
    CompleteLoop cfg :=
  if e.isPrefill then loop.completePrefill e else loop.completeDecode clock newTokens e

end CompleteLoop

namespace Scheduler

variable {cfg : SchedulerConfig} (clock : Clock)

def inState (st : Scheduler cfg) (state : SeqState) (id : Int) : Bool :=
  (st.seqs id).state == state

def startBatch (st : Scheduler cfg) : BatchLoop cfg where
  sched := st
  decodeSeqs := st.running.filter (st.inState .decode)
  tokensBudget := cfg.maxBatchTokens
  batch := {}

def schedule (st : Scheduler cfg) : Scheduler cfg × ScheduledBatch :=
  let st := st.promoteWaiting clock
  let prefillSeqs := st.running.filter (st.inState .prefill)
  let loop := st.startBatch.prefillLoop clock prefillSeqs
  let loop := loop.decodeLoop clock loop.decodeSeqs
  (loop.sched, loop.batch)

def completeEntries (st : Scheduler cfg) (entries : List BatchEntry) (newTokens : List Int) :
    CompleteLoop cfg :=
  entries.foldl (CompleteLoop.completeEntry clock newTokens) { sched := st }

def removeDone (st : Scheduler cfg) : Scheduler cfg :=
  { st with running := st.running.filter fun id => !(st.seqs id).isDone }

def leakScan (st : Scheduler cfg) (ttlMs : Int) : Scheduler cfg :=
  { st with kvPool := (st.kvPool.leakScan ttlMs (clock st.ticks)).1, ticks := st.ticks + 1 }

/-- The result is `none` when an entry's `Sequence*` dangles, that is, when
`running_` no longer owns the sequence: the source then uses freed memory. The
second component lists the calls of the completion callback. -/
def stepComplete (st : Scheduler cfg) (batch : ScheduledBatch) (newTokens : List Int) :
    Option (Scheduler cfg × List (Int × List Int)) :=
  if ∀ e ∈ batch.entries, e.seq ∈ st.running then
    let loop := st.completeEntries clock batch.entries newTokens
    some (loop.sched.removeDone.leakScan clock 30000, loop.callbacks)
  else none

def getStats (st : Scheduler cfg) : SchedulerStats where
  totalRequests := st.totalRequests
  completed := st.completed
  preemptions := st.preemptions
  totalTokensGenerated := st.tokensGenerated
  nWaiting := st.waiting.length
  nRunning := st.running.length
  nSwapped := st.swapped.length
  kvPagesUsed := st.kvPool.stats.inUse
  kvPagesFree := st.kvPool.stats.total - st.kvPool.stats.inUse

end Scheduler

end AmpFormal.SchedulerModel
