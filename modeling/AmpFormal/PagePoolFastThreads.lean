import AmpFormal.PagePoolFastModel
import AmpFormal.TransitionRuns

/-!
# The sharded page pool under interleaved threads

A transcription of `alloc` and `free_pages` in which every atomic load, store,
compare-exchange and counter update is a step of its own, on a sequentially
consistent memory. A program counter names the next atomic access and carries
the locals that are live there. `compare_exchange_weak` may fail without a
reason, so an access is made with a flag that says whether it does. A negative
`n` has no moves: `reserve` throws on it before the first access.
-/

namespace AmpFormal.PagePoolFastThreads

open AmpFormal.PagePoolFastModel AmpFormal.PagePoolFastModel.PagePoolFast
open AmpFormal.LinkedStack AmpFormal.TransitionRuns

set_option autoImplicit false

/-- The locals of `alloc`; `tries` counts the shards that may still be visited. -/
structure AllocFrame (pages shards : Nat) where
  n : Nat
  ts : UInt64
  out : List (Fin pages)
  s : Fin shards
  tries : Nat

/-- The locals at the entry of `alloc`. -/
def AllocFrame.start {pages shards : Nat} [NeZero shards] (n : Nat) (threadHash : Int)
    (ts : UInt64) : AllocFrame pages shards where
  n := n
  ts := ts
  out := []
  s := firstShard shards threadHash
  tries := shards

/-- The locals of `free_pages` while it pushes `id`; `count` is `ids.size()`. -/
structure FreeFrame (pages : Nat) where
  id : Fin pages
  rest : List (Fin pages)
  count : Nat

inductive Pc (pages shards : Nat) where
  | idle
  | loadTop (alloc : AllocFrame pages shards)
  | loadNext (alloc : AllocFrame pages shards) (top : Fin pages)
  | popHead (alloc : AllocFrame pages shards) (top : Fin pages) (nxt : Option (Fin pages))
  | stampTop (alloc : AllocFrame pages shards) (top : Fin pages)
  | countAlloc (alloc : AllocFrame pages shards)
  | clearStamp (free : FreeFrame pages)
  | loadShard (free : FreeFrame pages)
  | loadHead (free : FreeFrame pages) (s : Fin shards)
  | storeNext (free : FreeFrame pages) (s : Fin shards) (top : Option (Fin pages))
  | pushHead (free : FreeFrame pages) (s : Fin shards) (top : Option (Fin pages))
  | countFree (count : Nat)

namespace Pc

variable {pages shards : Nat}

def freeLoop (ids : List (Fin pages)) (count : Nat) : Pc pages shards :=
  match ids with
  | [] => .countFree count
  | id :: rest => .clearStamp { id, rest, count }

/-- The head of the outer loop of `alloc`, and what follows the loop. -/
def allocLoop (alloc : AllocFrame pages shards) : Pc pages shards :=
  if alloc.out.length < alloc.n then
    if 0 < alloc.tries then .loadTop { alloc with tries := alloc.tries - 1 }
    else freeLoop alloc.out alloc.out.length
  else .countAlloc alloc

def nextShard [NeZero shards] (alloc : AllocFrame pages shards) : Pc pages shards :=
  allocLoop { alloc with s := alloc.s + 1 }

def onTop [NeZero shards] (alloc : AllocFrame pages shards) : Option (Fin pages) → Pc pages shards
  | none => nextShard alloc
  | some top => .loadNext alloc top

/-- After `out.push_back(top)`. -/
def taken [NeZero shards] (alloc : AllocFrame pages shards) : Pc pages shards :=
  if alloc.out.length = alloc.n then nextShard alloc else .loadTop alloc

end Pc

/-- A client thread: the pages `alloc` returned to it and it has not yet passed
to `free_pages`, and where it stands inside a call. -/
structure Thread (pages shards : Nat) where
  held : List (Fin pages) := []
  pc : Pc pages shards := .idle

def advance {pages shards : Nat} [NeZero shards] (spurious : Bool)
    (memory : PagePoolFast pages shards) (thread : Thread pages shards) :
    Option (PagePoolFast pages shards × Thread pages shards) :=
  match thread.pc with
  | .idle => none
  | .loadTop alloc => some (memory, { thread with pc := .onTop alloc (memory.head alloc.s) })
  | .loadNext alloc top =>
      some (memory, { thread with pc := .popHead alloc top (memory.next top) })
  | .popHead alloc top nxt =>
      if spurious = false ∧ memory.head alloc.s = some top then
        some ({ memory with head := Function.update memory.head alloc.s nxt },
          { thread with pc := .stampTop alloc top })
      else some (memory, { thread with pc := .onTop alloc (memory.head alloc.s) })
  | .stampTop alloc top =>
      some ({ memory with touchUs := Function.update memory.touchUs top alloc.ts },
        { thread with pc := .taken { alloc with out := alloc.out ++ [top] } })
  | .countAlloc alloc =>
      some ({ memory with allocCnt := memory.allocCnt + UInt64.ofNat alloc.n },
        { held := thread.held ++ alloc.out, pc := .idle })
  | .clearStamp free =>
      some ({ memory with touchUs := Function.update memory.touchUs free.id 0 },
        { thread with pc := .loadShard free })
  | .loadShard free => some (memory, { thread with pc := .loadHead free (memory.shard free.id) })
  | .loadHead free s => some (memory, { thread with pc := .storeNext free s (memory.head s) })
  | .storeNext free s top =>
      some ({ memory with next := Function.update memory.next free.id top },
        { thread with pc := .pushHead free s top })
  | .pushHead free s top =>
      if spurious = false ∧ memory.head s = top then
        some ({ memory with head := Function.update memory.head s (some free.id) },
          { thread with pc := .freeLoop free.rest free.count })
      else some (memory, { thread with pc := .storeNext free s (memory.head s) })
  | .countFree count =>
      some ({ memory with freeCnt := memory.freeCnt + UInt64.ofNat count },
        { thread with pc := .idle })

/-- What one thread does next: enter a call, or make one atomic access. -/
inductive Move (pages : Nat) where
  | alloc (n : Nat) (threadHash : Int) (ts : UInt64)
  | freePages (ids : List (Fin pages))
  | advance (spurious : Bool)
  deriving DecidableEq

structure Threads (Tid : Type) (pages shards : Nat) where
  memory : PagePoolFast pages shards
  thread : Tid → Thread pages shards

namespace Threads

variable {Tid : Type} {pages shards : Nat}

def create (Tid : Type) (pages shards : Nat) [NeZero shards] : Threads Tid pages shards where
  memory := PagePoolFast.create pages shards
  thread := fun _ => {}

variable [DecidableEq Tid] [NeZero shards]

def put (st : Threads Tid pages shards) (tid : Tid) (memory : PagePoolFast pages shards)
    (thread : Thread pages shards) : Threads Tid pages shards where
  memory := memory
  thread := Function.update st.thread tid thread

/-- One step of one thread. A thread enters a call only outside of one. -/
def step (st : Threads Tid pages shards) (move : Tid × Move pages) :
    Option (Threads Tid pages shards) :=
  let thread := st.thread move.1
  match move.2 with
  | .alloc n threadHash ts =>
      match thread.pc with
      | .idle => some (st.put move.1 st.memory
          { thread with pc := .allocLoop (.start n threadHash ts) })
      | _ => none
  | .freePages ids =>
      match thread.pc with
      | .idle => some (st.put move.1 st.memory
          { held := thread.held.filter fun id => id ∉ ids, pc := .freeLoop ids ids.length })
      | _ => none
  | .advance spurious =>
      (advance spurious st.memory thread).map fun after => st.put move.1 after.1 after.2

/-- A thread frees only pages it holds, each once. -/
def FreesHeld (st : Threads Tid pages shards) : Tid × Move pages → Prop
  | (tid, .freePages ids) => ids.Nodup ∧ ∀ id ∈ ids, id ∈ (st.thread tid).held
  | _ => True

instance freesHeldDecidable (st : Threads Tid pages shards) :
    ∀ move, Decidable (st.FreesHeld move)
  | (_, .alloc _ _ _) => inferInstanceAs (Decidable True)
  | (_, .freePages _) => inferInstanceAs (Decidable (_ ∧ _))
  | (_, .advance _) => inferInstanceAs (Decidable True)

/-- The states reached by runs whose moves are all `allowed`. -/
abbrev Reached (allowed : Threads Tid pages shards → Tid × Move pages → Prop)
    (st : Threads Tid pages shards) : Prop :=
  Reaches step allowed (create Tid pages shards) st

end Threads

/-! ## Custody -/

section Custody

variable {Tid : Type} {pages shards : Nat}

/-- The pages that a call has popped and not returned, or not yet pushed. -/
def Pc.inFlight : Pc pages shards → List (Fin pages)
  | .loadTop alloc | .loadNext alloc _ | .popHead alloc _ _ | .countAlloc alloc => alloc.out
  | .stampTop alloc top => alloc.out ++ [top]
  | .clearStamp free | .loadShard free | .loadHead free _ | .storeNext free _ _
  | .pushHead free _ _ => free.id :: free.rest
  | .idle | .countFree _ => []

/-- The pages in the hands of a thread. -/
def custody (st : Threads Tid pages shards) (tid : Tid) : List (Fin pages) :=
  (st.thread tid).held ++ (st.thread tid).pc.inFlight

/-- No page is in the hands of two threads, or in the hands of one and reachable
from a shard head. -/
structure Exclusive (st : Threads Tid pages shards) : Prop where
  one_holder : ∀ tid other page, page ∈ custody st tid → page ∈ custody st other → tid = other
  not_free : ∀ tid page, page ∈ custody st tid → ¬st.memory.OnFreeStack page

/-- The pop a thread is about to attempt: shard, expected top and new head. -/
def Pc.popping : Pc pages shards → Option (Fin shards × Fin pages × Option (Fin pages))
  | .popHead alloc top nxt => some (alloc.s, top, nxt)
  | _ => none

/-- When the compare-exchange of a pop succeeds, the new head is `-1` or is
still on the stack below the top. -/
def PopsFresh (st : Threads Tid pages shards) (move : Tid × Move pages) : Prop :=
  move.2 = .advance false → ∀ pop ∈ (st.thread move.1).pc.popping,
    st.memory.head pop.1 = some pop.2.1 → ∀ nxt ∈ pop.2.2,
      Reachable st.memory.next (st.memory.next pop.2.1) nxt

/-- When the compare-exchange of a pop succeeds, the link of the top is still
the one that was read. -/
def LinksUnchanged (st : Threads Tid pages shards) (move : Tid × Move pages) : Prop :=
  move.2 = .advance false → ∀ pop ∈ (st.thread move.1).pc.popping,
    st.memory.head pop.1 = some pop.2.1 → st.memory.next pop.2.1 = pop.2.2

instance linksUnchangedDecidable (st : Threads Tid pages shards) (move : Tid × Move pages) :
    Decidable (LinksUnchanged st move) :=
  inferInstanceAs (Decidable (_ = _ → ∀ pop ∈ _, _ = _ → _ = _))

end Custody

end AmpFormal.PagePoolFastThreads
