import AmpFormal.PagePoolFastThreads
import Mathlib.Logic.Relation

/-!
# A thread that is not interrupted

The accesses of one call, made without another thread's in between, compute the
sequential `alloc` and `free_pages`. So the two models of the pool describe the
same functions.
-/

namespace AmpFormal.PagePoolFastSolo

open AmpFormal.PagePoolFastModel AmpFormal.PagePoolFastModel.PagePoolFast
open AmpFormal.PagePoolFastThreads Relation

set_option autoImplicit false

variable {pages shards : Nat} [NeZero shards]

/-- The memory and the thread are taken on by accesses of that thread alone. -/
abbrev Solo (before after : PagePoolFast pages shards × Thread pages shards) : Prop :=
  ReflTransGen (fun before after => advance false before.1 before.2 = some after) before after

variable (memory : PagePoolFast pages shards) (held : List (Fin pages))

theorem solo_push (free : FreeFrame pages) :
    Solo (memory, { held, pc := .clearStamp free })
      (memory.push free.id, { held, pc := .freeLoop free.rest free.count }) := by
  refine .head (b := (_, { held, pc := .loadShard free })) rfl ?_
  refine .head (b := (_, { held, pc := .loadHead free (memory.shard free.id) })) rfl ?_
  refine .head (b := (_, { held, pc := .storeNext free _ (memory.head (memory.shard free.id)) })) rfl ?_
  refine .head (b := (_, { held, pc := .pushHead free _ _ })) rfl ?_
  apply ReflTransGen.single
  simp [advance, PagePoolFast.push]

theorem solo_free_loop (ids : List (Fin pages)) (count : Nat) :
    Solo (memory, { held, pc := .freeLoop ids count })
      ({ ids.foldl push memory with
          freeCnt := (ids.foldl push memory).freeCnt + UInt64.ofNat count },
        { held, pc := .idle }) := by
  induction ids generalizing memory with
  | nil => exact .single rfl
  | cons id rest ih => exact (solo_push memory held { id, rest, count }).trans (ih (memory.push id))

theorem solo_pop (alloc : AllocFrame pages shards) {top : Fin pages}
    (at_head : memory.head alloc.s = some top) :
    Solo (memory, { held, pc := .loadTop alloc })
      (memory.pop alloc.s top alloc.ts,
        { held, pc := .taken { alloc with out := alloc.out ++ [top] } }) := by
  refine .head (b := (memory, { held, pc := .loadNext alloc top })) ?_ ?_
  · simp [advance, at_head, Pc.onTop]
  refine .head (b := (memory, { held, pc := .popHead alloc top (memory.next top) })) rfl ?_
  refine .head (b := ({ memory with
    head := Function.update memory.head alloc.s (memory.next top) },
    { held, pc := .stampTop alloc top })) ?_ ?_
  · simp [advance, at_head]
  exact .single rfl

theorem solo_empty_shard (alloc : AllocFrame pages shards)
    (empty : memory.head alloc.s = none) :
    Solo (memory, { held, pc := .loadTop alloc }) (memory, { held, pc := .nextShard alloc }) := by
  apply ReflTransGen.single
  simp [advance, empty, Pc.onTop]

theorem solo_pop_loop (missing : Nat) (alloc : AllocFrame pages shards)
    (wanted : alloc.out.length + (missing + 1) = alloc.n) :
    Solo (memory, { held, pc := .loadTop alloc })
      ((popLoop alloc.ts alloc.s (missing + 1) memory alloc.out).1,
        { held, pc := .nextShard { alloc with
          out := (popLoop alloc.ts alloc.s (missing + 1) memory alloc.out).2 } }) := by
  induction missing generalizing memory alloc with
  | zero =>
      cases at_head : memory.head alloc.s with
      | none =>
          rw [popLoop, at_head]
          exact solo_empty_shard memory held alloc at_head
      | some top =>
          have popped := solo_pop memory held alloc at_head
          rw [Pc.taken, if_pos (by simpa using wanted)] at popped
          rw [popLoop, at_head]
          exact popped
  | succ missing ih =>
      cases at_head : memory.head alloc.s with
      | none =>
          rw [popLoop, at_head]
          exact solo_empty_shard memory held alloc at_head
      | some top =>
          have popped := solo_pop memory held alloc at_head
          have wantedLeft : (alloc.out ++ [top]).length + (missing + 1) = alloc.n := by
            rw [List.length_append, List.length_singleton]
            omega
          rw [Pc.taken, if_neg (by dsimp only; omega)] at popped
          rw [popLoop, at_head]
          exact popped.trans (ih _ { alloc with out := alloc.out ++ [top] } wantedLeft)

theorem solo_shard_loop (tries : Nat) (alloc : AllocFrame pages shards)
    (left : alloc.tries = tries) :
    ∃ last : AllocFrame pages shards, last.n = alloc.n ∧
      last.out = (shardLoop alloc.n alloc.ts tries alloc.s memory alloc.out).2 ∧
      (last.out.length < last.n → last.tries = 0) ∧
      Solo (memory, { held, pc := .allocLoop alloc })
        ((shardLoop alloc.n alloc.ts tries alloc.s memory alloc.out).1,
          { held, pc := .allocLoop last }) := by
  induction tries generalizing memory alloc with
  | zero => exact ⟨alloc, rfl, rfl, fun _ => left, .refl⟩
  | succ tries ih =>
      by_cases short : alloc.out.length < alloc.n
      · obtain ⟨missing, wanted⟩ : ∃ missing, alloc.out.length + (missing + 1) = alloc.n :=
          ⟨alloc.n - alloc.out.length - 1, by omega⟩
        have entered : Pc.allocLoop alloc = .loadTop { alloc with tries } := by
          rw [Pc.allocLoop, if_pos short, if_pos (by omega), left]
          rfl
        have count : alloc.n - alloc.out.length = missing + 1 := by omega
        have drained := solo_pop_loop memory held missing { alloc with tries } wanted
        rw [shardLoop, if_pos short, count, entered]
        generalize popLoop alloc.ts alloc.s (missing + 1) memory alloc.out = popped at drained ⊢
        rcases ih popped.1 { alloc with tries, out := popped.2, s := alloc.s + 1 } rfl with
          ⟨last, sameN, out, exhausted, rest⟩
        exact ⟨last, sameN, out, exhausted, drained.trans rest⟩
      · rw [shardLoop, if_neg short]
        exact ⟨alloc, rfl, rfl, fun still => absurd still short, .refl⟩

/-- A thread alone in `alloc` gets the pages the sequential model gives it. -/
theorem solo_alloc (n : Nat) (threadHash : Int) (ts : UInt64) :
    Solo (memory, { held, pc := .allocLoop (.start n threadHash ts) })
      ((memory.alloc n threadHash ts).1,
        { held := held ++ (memory.alloc n threadHash ts).2, pc := .idle }) := by
  rcases solo_shard_loop memory held shards (.start n threadHash ts) rfl with
    ⟨last, sameN, out, exhausted, drained⟩
  dsimp only [AllocFrame.start] at sameN out
  change Solo _ ((shardLoop n ts shards (firstShard shards threadHash) memory []).1, _) at drained
  refine drained.trans ?_
  unfold PagePoolFast.alloc
  generalize shardLoop n ts shards (firstShard shards threadHash) memory [] = result at out ⊢
  dsimp only
  by_cases short : last.out.length < last.n
  · have failed : Pc.allocLoop last = .freeLoop last.out last.out.length := by
      rw [Pc.allocLoop, if_pos short, if_neg (by rw [exhausted short]; exact lt_irrefl 0)]
    rw [failed, out, if_pos (by rwa [← out, ← sameN]), List.append_nil]
    exact solo_free_loop result.1 held result.2 result.2.length
  · have filled : Pc.allocLoop last = .countAlloc last := by
      rw [Pc.allocLoop, if_neg short]
    rw [filled, if_neg (by rwa [← out, ← sameN]), ← sameN, ← out]
    exact .single rfl

/-! ## In the state of all threads -/

section Runs

open AmpFormal.TransitionRuns

variable {Tid : Type} [DecidableEq Tid]

theorem solo_reaches {st : Threads Tid pages shards} {tid : Tid}
    {before after : PagePoolFast pages shards × Thread pages shards}
    (entered : Reaches Threads.step (fun _ _ => True) st (st.put tid before.1 before.2))
    (solo : Solo before after) :
    Reaches Threads.step (fun _ _ => True) st (st.put tid after.1 after.2) := by
  induction solo with
  | refl => exact entered
  | tail prior access ih =>
      refine .call ih (tid, .advance false) trivial ?_
      simp only [Threads.step, Threads.put, Function.update_self, access, Option.map_some,
        Function.update_idem]

theorem alloc_alone (st : Threads Tid pages shards) (tid : Tid)
    (idle : (st.thread tid).pc = .idle) (n : Nat) (threadHash : Int) (ts : UInt64) :
    Reaches Threads.step (fun _ _ => True) st
      (st.put tid (st.memory.alloc n threadHash ts).1
        { held := (st.thread tid).held ++ (st.memory.alloc n threadHash ts).2, pc := .idle }) := by
  apply solo_reaches _ (solo_alloc st.memory (st.thread tid).held n threadHash ts)
  apply Reaches.call .start (tid, .alloc n threadHash ts) trivial
  simp only [Threads.step, idle]

theorem free_pages_alone (st : Threads Tid pages shards) (tid : Tid)
    (idle : (st.thread tid).pc = .idle) (ids : List (Fin pages)) :
    Reaches Threads.step (fun _ _ => True) st
      (st.put tid (st.memory.freePages ids)
        { held := (st.thread tid).held.filter fun id => id ∉ ids, pc := .idle }) := by
  apply solo_reaches _ (solo_free_loop st.memory _ ids ids.length)
  apply Reaches.call .start (tid, .freePages ids) trivial
  simp only [Threads.step, idle]

end Runs

end AmpFormal.PagePoolFastSolo
