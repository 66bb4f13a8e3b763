import AmpFormal.PagePoolFastSequential
import AmpFormal.PagePoolFastThreads
import AmpFormal.ResourceLedger

/-!
# Exclusivity of the pool under interleaved threads

The threads are the owners of a ledger of pages. A successful push hands a page
to its free stack, a successful pop takes the top and, when the link it read is
still below the top, leaves the rest or a part of it. A link that became stale
between its load and the compare-exchange can put a held page on top of a stack.
-/

namespace AmpFormal.PagePoolFastExclusion

open AmpFormal.LinkedStack AmpFormal.ResourceLedger AmpFormal.TransitionRuns
open AmpFormal.PagePoolFastModel AmpFormal.PagePoolFastModel.PagePoolFast
open AmpFormal.PagePoolFastSequential AmpFormal.PagePoolFastThreads

set_option autoImplicit false

variable {Tid : Type} {pages shards : Nat}

/-! ## The invariant -/

/-- What a thread inside `free_pages` knows about the page it is pushing. -/
def Ready (memory : PagePoolFast pages shards) : Pc pages shards → Prop
  | .loadHead free s | .storeNext free s _ => s = memory.shard free.id
  | .pushHead free s top => s = memory.shard free.id ∧ memory.next free.id = top
  | _ => True

structure Safe (st : Threads Tid pages shards) (free : Fin shards → List (Fin pages)) : Prop where
  lists : FreeLists st.memory free
  ledger : Ledger (fun _ : Tid => True) (custody st) fun page => page ∈ free (st.memory.shard page)
  ready : ∀ tid, Ready st.memory (st.thread tid).pc

theorem safe_exclusive {st : Threads Tid pages shards} {free : Fin shards → List (Fin pages)}
    (safe : Safe st free) : Exclusive st := by
  constructor
  · intro tid other page member otherMember
    by_contra different
    exact safe.ledger.disjoint tid other trivial trivial different member otherMember
  · intro tid page member idle
    exact safe.ledger.apart tid trivial page member ((on_free_stack_iff safe.lists page).mp idle)

theorem safe_create [NeZero shards] : ∃ free, Safe (Threads.create Tid pages shards) free := by
  rcases @create_well_formed pages shards _ with ⟨⟨free, lists, _⟩, _⟩
  exact ⟨free, lists, ledger_empty fun _ _ => rfl, fun _ => trivial⟩

/-! ## Program counters between two accesses -/

theorem free_loop_in_flight (ids : List (Fin pages)) (count : Nat) :
    (Pc.freeLoop ids count : Pc pages shards).inFlight = ids := by
  cases ids with
  | nil => rfl
  | cons id rest => rfl

theorem free_loop_ready (memory : PagePoolFast pages shards) (ids : List (Fin pages))
    (count : Nat) : Ready memory (.freeLoop ids count) := by
  cases ids with
  | nil => trivial
  | cons id rest => trivial

theorem alloc_loop_in_flight (alloc : AllocFrame pages shards) :
    (Pc.allocLoop alloc).inFlight = alloc.out := by
  unfold Pc.allocLoop
  split
  · split
    · rfl
    · exact free_loop_in_flight _ _
  · rfl

theorem alloc_loop_ready (memory : PagePoolFast pages shards) (alloc : AllocFrame pages shards) :
    Ready memory (.allocLoop alloc) := by
  unfold Pc.allocLoop
  split
  · split
    · trivial
    · exact free_loop_ready _ _ _
  · trivial

section Shards

variable [NeZero shards]

theorem on_top_in_flight (alloc : AllocFrame pages shards) (top : Option (Fin pages)) :
    (Pc.onTop alloc top).inFlight = alloc.out := by
  cases top with
  | none => exact alloc_loop_in_flight _
  | some top => rfl

theorem on_top_ready (memory : PagePoolFast pages shards) (alloc : AllocFrame pages shards)
    (top : Option (Fin pages)) : Ready memory (.onTop alloc top) := by
  cases top with
  | none => exact alloc_loop_ready _ _
  | some top => trivial

theorem taken_in_flight (alloc : AllocFrame pages shards) :
    (Pc.taken alloc).inFlight = alloc.out := by
  unfold Pc.taken
  split
  · exact alloc_loop_in_flight _
  · rfl

theorem taken_ready (memory : PagePoolFast pages shards) (alloc : AllocFrame pages shards) :
    Ready memory (.taken alloc) := by
  unfold Pc.taken
  split
  · exact alloc_loop_ready _ _
  · trivial

end Shards

/-! ## One thread moves -/

variable [DecidableEq Tid]

theorem put_custody (st : Threads Tid pages shards) (tid : Tid)
    (memory : PagePoolFast pages shards) (thread : Thread pages shards) :
    custody (st.put tid memory thread) =
      Function.update (custody st) tid (thread.held ++ thread.pc.inFlight) := by
  funext other
  unfold custody Threads.put
  by_cases same : other = tid
  · subst same
    simp only [Function.update_self]
  · simp only [Function.update_of_ne same]

theorem put_ready {st : Threads Tid pages shards} {tid : Tid} {memory : PagePoolFast pages shards}
    {thread : Thread pages shards} (moved : Ready memory thread.pc)
    (others : ∀ other, other ≠ tid → Ready memory (st.thread other).pc) :
    ∀ other, Ready (st.put tid memory thread).memory ((st.put tid memory thread).thread other).pc := by
  intro other
  unfold Threads.put
  by_cases same : other = tid
  · subst same
    simp only [Function.update_self]
    exact moved
  · simp only [Function.update_of_ne same]
    exact others other same

theorem ready_congr {memory changed : PagePoolFast pages shards} {pc : Pc pages shards}
    (next : changed.next = memory.next) (shard : changed.shard = memory.shard)
    (ready : Ready memory pc) : Ready changed pc := by
  cases pc with
  | loadHead free s =>
      exact ready.trans (congrFun shard free.id).symm
  | storeNext free s top =>
      exact ready.trans (congrFun shard free.id).symm
  | pushHead free s top =>
      exact ⟨ready.1.trans (congrFun shard free.id).symm, (congrFun next free.id).trans ready.2⟩
  | _ => trivial

theorem safe_internal {st : Threads Tid pages shards} {free : Fin shards → List (Fin pages)}
    (safe : Safe st free) {tid : Tid} {memory : PagePoolFast pages shards}
    {thread : Thread pages shards} (next : memory.next = st.memory.next)
    (head : memory.head = st.memory.head) (shard : memory.shard = st.memory.shard)
    (same : (thread.held ++ thread.pc.inFlight).Perm (custody st tid))
    (ready : Ready memory thread.pc) : Safe (st.put tid memory thread) free := by
  refine ⟨?_, ?_, ?_⟩
  · change Stacked memory.next memory.head memory.shard free
    rw [next, head, shard]
    exact safe.lists
  · rw [put_custody]
    change Ledger _ _ fun page => page ∈ free (memory.shard page)
    rw [shard]
    exact ledger_rearrange safe.ledger tid same
  · apply put_ready ready
    intro other _
    exact ready_congr next shard (safe.ready other)

theorem safe_access {st : Threads Tid pages shards} {free : Fin shards → List (Fin pages)}
    (safe : Safe st free) {tid : Tid} {memory : PagePoolFast pages shards}
    {now later : Pc pages shards} (pc : (st.thread tid).pc = now)
    (next : memory.next = st.memory.next) (head : memory.head = st.memory.head)
    (shard : memory.shard = st.memory.shard) (kept : later.inFlight = now.inFlight)
    (ready : Ready memory later) :
    ∃ left, Safe (st.put tid memory { st.thread tid with pc := later }) left := by
  refine ⟨free, safe_internal safe next head shard ?_ ready⟩
  rw [custody, pc, kept]

theorem safe_pop {st : Threads Tid pages shards} {free : Fin shards → List (Fin pages)}
    (safe : Safe st free) {tid : Tid} {alloc : AllocFrame pages shards} {top : Fin pages}
    {nxt : Option (Fin pages)} (pc : (st.thread tid).pc = .popHead alloc top nxt)
    (at_head : st.memory.head alloc.s = some top)
    (below : ∀ page ∈ nxt, Reachable st.memory.next (st.memory.next top) page) :
    ∃ left, Safe (st.put tid
      { st.memory with head := Function.update st.memory.head alloc.s nxt }
      { st.thread tid with pc := .stampTop alloc top }) left := by
  rcases stacked_cut safe.lists at_head below with ⟨rest, kept, split, part, lists⟩
  have stackDistinct := chain_nodup (safe.lists.chain alloc.s)
  rw [split] at stackDistinct
  have home : st.memory.shard top = alloc.s := by
    apply safe.lists.home alloc.s top
    rw [split]
    exact List.mem_cons_self
  refine ⟨Function.update free alloc.s kept, lists, ?_, ?_⟩
  · have given : (st.thread tid).held ++ (Pc.stampTop alloc top).inFlight =
        custody st tid ++ [top] := by
      unfold custody
      rw [pc]
      exact (List.append_assoc _ _ _).symm
    rw [put_custody, given]
    apply ledger_grant safe.ledger tid (List.nodup_singleton top)
    · intro page one
      rw [List.mem_singleton.mp one, home, split]
      exact List.mem_cons_self
    · intro page still
      change page ∈ Function.update free alloc.s kept (st.memory.shard page) at still
      rw [List.mem_singleton]
      by_cases same : st.memory.shard page = alloc.s
      · rw [same, Function.update_self] at still
        rw [same, split]
        refine ⟨List.mem_cons_of_mem top (part still), ?_⟩
        intro isTop
        exact (List.nodup_cons.mp stackDistinct).1 (isTop ▸ part still)
      · rw [Function.update_of_ne same] at still
        refine ⟨still, ?_⟩
        intro isTop
        exact same (isTop ▸ home)
  · apply put_ready
    · trivial
    · intro other _
      exact ready_congr rfl rfl (safe.ready other)

theorem safe_store_next {st : Threads Tid pages shards} {free : Fin shards → List (Fin pages)}
    (safe : Safe st free) {tid : Tid} {frame : FreeFrame pages} {s : Fin shards}
    {top : Option (Fin pages)} (pc : (st.thread tid).pc = .storeNext frame s top) :
    Safe (st.put tid { st.memory with next := Function.update st.memory.next frame.id top }
      { st.thread tid with pc := .pushHead frame s top }) free := by
  have inHand : frame.id ∈ custody st tid := by
    unfold custody
    rw [pc]
    simp [Pc.inFlight]
  have home := safe.ready tid
  rw [pc] at home
  refine ⟨stacked_set_link safe.lists (safe.ledger.apart tid trivial frame.id inHand) top, ?_, ?_⟩
  · rw [put_custody]
    apply ledger_rearrange safe.ledger tid
    unfold custody
    rw [pc]
    exact List.Perm.refl _
  · apply put_ready
    · exact ⟨home, Function.update_self _ _ _⟩
    · intro other different
      have ready := safe.ready other
      cases otherPc : (st.thread other).pc with
      | pushHead otherFrame otherShard otherTop =>
          rw [otherPc] at ready
          have otherInHand : otherFrame.id ∈ custody st other := by
            unfold custody
            rw [otherPc]
            simp [Pc.inFlight]
          refine ⟨ready.1, (Function.update_of_ne ?_ _ _).trans ready.2⟩
          intro same
          rw [same] at otherInHand
          exact safe.ledger.disjoint other tid trivial trivial different otherInHand inHand
      | loadHead otherFrame otherShard =>
          rw [otherPc] at ready
          exact ready
      | storeNext otherFrame otherShard otherTop =>
          rw [otherPc] at ready
          exact ready
      | _ => trivial

theorem safe_push {st : Threads Tid pages shards} {free : Fin shards → List (Fin pages)}
    (safe : Safe st free) {tid : Tid} {frame : FreeFrame pages} {s : Fin shards}
    {top : Option (Fin pages)} (pc : (st.thread tid).pc = .pushHead frame s top)
    (at_head : st.memory.head s = top) :
    ∃ more, Safe (st.put tid
      { st.memory with head := Function.update st.memory.head s (some frame.id) }
      { st.thread tid with pc := .freeLoop frame.rest frame.count }) more := by
  have ready := safe.ready tid
  rw [pc] at ready
  rcases ready with ⟨rfl, linked⟩
  have before : custody st tid = (st.thread tid).held ++ frame.id :: frame.rest := by
    unfold custody
    rw [pc]
    rfl
  have distinct := safe.ledger.nodup tid trivial
  rw [before] at distinct
  have part : ((st.thread tid).held ++ frame.rest).Sublist (custody st tid) := by
    rw [before]
    exact (List.Sublist.refl _).append (List.sublist_cons_self _ _)
  refine ⟨_, stacked_link safe.lists (linked.trans at_head.symm), ?_, ?_⟩
  · rw [put_custody, free_loop_in_flight]
    apply ledger_shrink safe.ledger
    · intro other _
      left
      refine ⟨trivial, ?_⟩
      by_cases same : other = tid
      · rw [same, Function.update_self]
        exact part
      · rw [Function.update_of_ne same]
    · intro page idle
      change page ∈ Function.update free (st.memory.shard frame.id)
        (frame.id :: free (st.memory.shard frame.id)) (st.memory.shard page) at idle
      by_cases pushed : page = frame.id
      · right
        rw [pushed]
        intro other _
        by_cases same : other = tid
        · rw [same, Function.update_self]
          exact (List.nodup_cons.mp (List.nodup_middle.mp distinct)).1
        · rw [Function.update_of_ne same]
          intro elsewhere
          apply safe.ledger.disjoint other tid trivial trivial same elsewhere
          rw [before]
          simp
      · left
        by_cases same : st.memory.shard page = st.memory.shard frame.id
        · rw [same, Function.update_self] at idle
          rw [same]
          exact (List.mem_cons.mp idle).resolve_left pushed
        · rwa [Function.update_of_ne same] at idle
  · apply put_ready
    · exact free_loop_ready _ _ _
    · intro other _
      exact ready_congr rfl rfl (safe.ready other)

/-! ## Every step -/

section Steps

variable [NeZero shards]

theorem step_alloc {st after : Threads Tid pages shards} {tid : Tid} {n : Nat} {threadHash : Int}
    {ts : UInt64} (moved : st.step (tid, .alloc n threadHash ts) = some after) :
    (st.thread tid).pc = .idle ∧ after = st.put tid st.memory
      { st.thread tid with pc := .allocLoop (.start n threadHash ts) } := by
  simp only [Threads.step] at moved
  split at moved
  case h_1 idle =>
    cases moved
    exact ⟨idle, rfl⟩
  case h_2 => cases moved

theorem step_free_pages {st after : Threads Tid pages shards} {tid : Tid} {ids : List (Fin pages)}
    (moved : st.step (tid, .freePages ids) = some after) :
    (st.thread tid).pc = .idle ∧ after = st.put tid st.memory
      { held := (st.thread tid).held.filter fun id => id ∉ ids,
        pc := .freeLoop ids ids.length } := by
  simp only [Threads.step] at moved
  split at moved
  case h_1 idle =>
    cases moved
    exact ⟨idle, rfl⟩
  case h_2 => cases moved

theorem step_advance {st after : Threads Tid pages shards} {tid : Tid} {spurious : Bool}
    (moved : st.step (tid, .advance spurious) = some after) :
    ∃ changed, advance spurious st.memory (st.thread tid) = some changed ∧
      after = st.put tid changed.1 changed.2 := by
  simp only [Threads.step, Option.map_eq_some_iff] at moved
  rcases moved with ⟨changed, access, rfl⟩
  exact ⟨changed, access, rfl⟩

theorem freed_perm {held ids : List (Fin pages)} (heldDistinct : held.Nodup)
    (distinct : ids.Nodup) (part : ∀ id ∈ ids, id ∈ held) :
    ((held.filter fun id => id ∉ ids) ++ ids).Perm held := by
  apply (List.perm_ext_iff_of_nodup ?_ heldDistinct).mpr
  · intro page
    simp only [List.mem_append, List.mem_filter, decide_eq_true_eq]
    constructor
    · intro either
      exact either.elim And.left (part page)
    · intro member
      by_cases given : page ∈ ids
      · exact Or.inr given
      · exact Or.inl ⟨member, given⟩
  · apply (heldDistinct.filter _).append distinct
    intro page kept given
    have outside := (List.mem_filter.mp kept).2
    exact (of_decide_eq_true outside) given

theorem safe_advance {st after : Threads Tid pages shards} {free : Fin shards → List (Fin pages)}
    (safe : Safe st free) {tid : Tid} {spurious : Bool}
    (fresh : PopsFresh st (tid, .advance spurious))
    (moved : st.step (tid, .advance spurious) = some after) : ∃ left, Safe after left := by
  rcases step_advance moved with ⟨changed, access, rfl⟩
  unfold advance at access
  have known := safe.ready tid
  cases pc : (st.thread tid).pc with
  | idle => simp only [pc, reduceCtorEq] at access
  | loadTop alloc =>
      simp only [pc, Option.some.injEq] at access
      subst access
      exact safe_access safe pc rfl rfl rfl (on_top_in_flight _ _) (on_top_ready _ _ _)
  | loadNext alloc top =>
      simp only [pc, Option.some.injEq] at access
      subst access
      exact safe_access safe pc rfl rfl rfl rfl trivial
  | popHead alloc top nxt =>
      simp only [pc] at access
      split at access
      case isTrue success =>
        cases access
        apply safe_pop safe pc success.2
        rw [success.1] at fresh
        intro page below
        exact fresh rfl (alloc.s, top, nxt) (by rw [pc]; rfl) success.2 page below
      case isFalse =>
        cases access
        exact safe_access safe pc rfl rfl rfl (on_top_in_flight _ _) (on_top_ready _ _ _)
  | stampTop alloc top =>
      simp only [pc, Option.some.injEq] at access
      subst access
      exact safe_access safe pc rfl rfl rfl (taken_in_flight _) (taken_ready _ _)
  | countAlloc alloc =>
      simp only [pc, Option.some.injEq] at access
      subst access
      refine ⟨free, safe_internal safe rfl rfl rfl ?_ trivial⟩
      rw [custody, pc]
      exact List.Perm.of_eq (List.append_nil _)
  | clearStamp frame =>
      simp only [pc, Option.some.injEq] at access
      subst access
      exact safe_access safe pc rfl rfl rfl rfl trivial
  | loadShard frame =>
      simp only [pc, Option.some.injEq] at access
      subst access
      exact safe_access safe pc rfl rfl rfl rfl rfl
  | loadHead frame s =>
      simp only [pc, Option.some.injEq] at access
      rw [pc] at known
      subst access
      exact safe_access safe pc rfl rfl rfl rfl known
  | storeNext frame s top =>
      simp only [pc, Option.some.injEq] at access
      subst access
      exact ⟨free, safe_store_next safe pc⟩
  | pushHead frame s top =>
      simp only [pc] at access
      split at access
      case isTrue success =>
        cases access
        exact safe_push safe pc success.2
      case isFalse =>
        cases access
        rw [pc] at known
        exact safe_access safe pc rfl rfl rfl rfl known.1
  | countFree count =>
      simp only [pc, Option.some.injEq] at access
      subst access
      exact safe_access safe pc rfl rfl rfl rfl trivial

theorem safe_step {st after : Threads Tid pages shards} {free : Fin shards → List (Fin pages)}
    (safe : Safe st free) {move : Tid × Move pages} (held : st.FreesHeld move)
    (fresh : PopsFresh st move) (moved : st.step move = some after) :
    ∃ left, Safe after left := by
  rcases move with ⟨tid, act⟩
  cases act with
  | alloc n threadHash ts =>
      rcases step_alloc moved with ⟨idle, rfl⟩
      refine ⟨free, safe_internal safe rfl rfl rfl ?_ (alloc_loop_ready _ _)⟩
      unfold custody
      rw [idle, alloc_loop_in_flight]
      exact List.Perm.refl _
  | freePages ids =>
      rcases step_free_pages moved with ⟨idle, rfl⟩
      have before : custody st tid = (st.thread tid).held := by
        unfold custody
        rw [idle]
        exact List.append_nil _
      have heldDistinct := safe.ledger.nodup tid trivial
      rw [before] at heldDistinct
      refine ⟨free, safe_internal safe rfl rfl rfl ?_ (free_loop_ready _ _ _)⟩
      rw [before, free_loop_in_flight]
      exact freed_perm heldDistinct held.1 held.2
  | advance spurious => exact safe_advance safe fresh moved

end Steps

/-! ## Runs -/

section Runs

variable [NeZero shards]

/-- A new head in some hand, or the popped top itself, breaks exclusivity at
once. -/
theorem held_head_not_exclusive {st after : Threads Tid pages shards} {tid : Tid}
    {alloc : AllocFrame pages shards} {top nxt : Fin pages}
    (pc : (st.thread tid).pc = .popHead alloc top (some nxt))
    (at_head : st.memory.head alloc.s = some top)
    (inHand : nxt = top ∨ ∃ other, nxt ∈ custody st other)
    (moved : st.step (tid, .advance false) = some after) : ¬Exclusive after := by
  rcases step_advance moved with ⟨changed, access, rfl⟩
  simp only [advance, pc, at_head, and_self, if_true, Option.some.injEq] at access
  subst access
  intro exclusive
  have holder : ∃ other, nxt ∈ custody (st.put tid
      { st.memory with head := Function.update st.memory.head alloc.s (some nxt) }
      { st.thread tid with pc := .stampTop alloc top }) other := by
    rw [put_custody]
    rcases inHand with isTop | ⟨other, member⟩
    · refine ⟨tid, ?_⟩
      rw [Function.update_self, isTop]
      simp [Pc.inFlight]
    · refine ⟨other, ?_⟩
      by_cases same : other = tid
      · subst same
        unfold custody at member
        rw [pc] at member
        rw [Function.update_self]
        change nxt ∈ (st.thread other).held ++ (alloc.out ++ [top])
        rw [← List.append_assoc]
        exact List.mem_append_left [top] member
      · rwa [Function.update_of_ne same]
  rcases holder with ⟨other, member⟩
  exact exclusive.not_free other nxt member ⟨alloc.s, .top (Function.update_self _ _ _)⟩

def FreshMoves (st : Threads Tid pages shards) (move : Tid × Move pages) : Prop :=
  st.FreesHeld move ∧ PopsFresh st move

/-- In every interleaving whose pops are fresh the pages are exclusive, and a
pop that would install a page in some hand as the new head ends that. -/
theorem pages_exclusive_while_pops_fresh {st : Threads Tid pages shards}
    (reached : Threads.Reached FreshMoves st) :
    Exclusive st ∧ ∀ tid alloc top nxt after,
      (st.thread tid).pc = .popHead alloc top (some nxt) →
      st.memory.head alloc.s = some top → (nxt = top ∨ ∃ other, nxt ∈ custody st other) →
      st.step (tid, .advance false) = some after → ¬Exclusive after := by
  have safe : ∃ free, Safe st free := by
    apply reaches_invariant (motive := fun st => ∃ free, Safe st free) safe_create _ reached
    intro before move after _ safe meets moved
    rcases safe with ⟨free, safe⟩
    exact safe_step safe meets.1 meets.2 moved
  rcases safe with ⟨free, safe⟩
  refine ⟨safe_exclusive safe, ?_⟩
  intro tid alloc top nxt after pc at_head inHand moved
  exact held_head_not_exclusive pc at_head inHand moved

omit [DecidableEq Tid] [NeZero shards] in
/-- A link that is unchanged is fresh. -/
theorem links_unchanged_fresh {st : Threads Tid pages shards} {move : Tid × Move pages}
    (unchanged : LinksUnchanged st move) : PopsFresh st move := by
  intro access pop attempted at_head nxt new
  exact .top ((unchanged access pop attempted at_head).trans new)

def SteadyMoves (st : Threads Tid pages shards) (move : Tid × Move pages) : Prop :=
  st.FreesHeld move ∧ LinksUnchanged st move

omit [DecidableEq Tid] [NeZero shards] in
theorem steady_moves_fresh (st : Threads Tid pages shards) (move : Tid × Move pages)
    (steady : SteadyMoves st move) : FreshMoves st move :=
  ⟨steady.1, links_unchanged_fresh steady.2⟩

instance steadyMovesDecidable (st : Threads Tid pages shards) (move : Tid × Move pages) :
    Decidable (SteadyMoves st move) := inferInstanceAs (Decidable (_ ∧ _))

/-- One access of a thread, without a spurious failure. -/
def access (tid : Bool) : Bool × Move pages := (tid, .advance false)

/-- Thread `true` takes both pages and returns one while thread `false` is
suspended in its pop. Up to there every pop is fresh. -/
theorem pages_exclusive_while_pops_fresh_two_threads :
    let st := (runCalls Threads.step SteadyMoves (Threads.create Bool 2 1)
      [(false, .alloc 1 0 5), access false, access false,
        (true, .alloc 1 0 6), access true, access true, access true, access true, access true,
        (true, .alloc 1 0 7), access true, access true, access true, access true, access true,
        (true, .freePages [1]), access true, access true, access true, access true, access true,
        access true]).get (by decide)
    Exclusive st ∧ ¬Exclusive ((st.step (access false)).get (by decide)) := by
  intro st
  have reached : Threads.Reached FreshMoves st :=
    reaches_weaken steady_moves_fresh (reaches_of_run_get _ (by decide))
  have exclusive := pages_exclusive_while_pops_fresh reached
  refine ⟨exclusive.1, ?_⟩
  exact exclusive.2 false { n := 1, ts := 5, out := [], s := 0, tries := 0 } 1 0 _ rfl (by decide)
    (Or.inr ⟨true, by decide⟩) (Option.some_get _).symm

/-- Thread `false` reads head 1 and its link 0 and is suspended. Thread `true`
pops both pages and pushes page 1 back. The compare-exchange of the first
thread then succeeds and makes page 0 the head, which the other thread holds. -/
theorem held_page_becomes_head :
    ¬∀ (Tid : Type) [DecidableEq Tid] (pages shards : Nat) [NeZero shards]
      (st : Threads Tid pages shards), Threads.Reached Threads.FreesHeld st →
      (∀ tid other page, page ∈ (st.thread tid).held → page ∈ (st.thread other).held →
        tid = other) ∧
      ∀ tid page, page ∈ (st.thread tid).held → ¬st.memory.OnFreeStack page := by
  intro always
  have exclusive := always Bool 2 1 _ (reaches_of_run_get
    [(false, .alloc 1 0 5), access false, access false,
      (true, .alloc 1 0 6), access true, access true, access true, access true, access true,
      (true, .alloc 1 0 7), access true, access true, access true, access true, access true,
      (true, .freePages [1]), access true, access true, access true, access true, access true,
      access true, access false] (by decide))
  exact exclusive.2 true 0 (by decide) ⟨0, .top (by decide)⟩

end Runs

end AmpFormal.PagePoolFastExclusion
