import AmpFormal.PagePoolFastExclusion

/-!
# No page of the pool is lost

Besides the exclusivity of pages: every page is on the stack of one shard or in the
hands of one thread, in every state of every interleaving whose pops find the link
of the top unchanged. The first pop that does not ends it, by losing a page, by
putting it on two stacks or by putting a held page on a stack.
-/

namespace AmpFormal.PagePoolFastConservation

open AmpFormal.LinkedStack AmpFormal.TransitionRuns
open AmpFormal.PagePoolFastModel AmpFormal.PagePoolFastModel.PagePoolFast
open AmpFormal.PagePoolFastSequential AmpFormal.PagePoolFastThreads
open AmpFormal.PagePoolFastExclusion

set_option autoImplicit false

variable {Tid : Type} {pages shards : Nat}

def Whole (st : Threads Tid pages shards) : Prop :=
  ∀ page, st.memory.OnFreeStack page ∨ ∃ tid, page ∈ custody st tid

/-- Every page is in exactly one place: on one stack, or once in the hands of one
thread. -/
structure Conserved (st : Threads Tid pages shards) : Prop where
  exclusive : Exclusive st
  once : ∀ tid, (custody st tid).Nodup
  one_stack : ∀ shard other page, Reachable st.memory.next (st.memory.head shard) page →
    Reachable st.memory.next (st.memory.head other) page → shard = other
  whole : Whole st

theorem one_stack_of_lists {pool : PagePoolFast pages shards} {free : Fin shards → List (Fin pages)}
    (lists : FreeLists pool free) {shard other : Fin shards} {page : Fin pages}
    (here : Reachable pool.next (pool.head shard) page)
    (there : Reachable pool.next (pool.head other) page) : shard = other := by
  have first := lists.home shard page ((chain_reachable_iff (lists.chain shard) page).mp here)
  have second := lists.home other page ((chain_reachable_iff (lists.chain other) page).mp there)
  exact first.symm.trans second

theorem conserved_of_safe {st : Threads Tid pages shards} {free : Fin shards → List (Fin pages)}
    (safe : Safe st free) (whole : Whole st) : Conserved st where
  exclusive := safe_exclusive safe
  once := fun tid => safe.ledger.nodup tid trivial
  one_stack := fun _ _ _ here there => one_stack_of_lists safe.lists here there
  whole := whole

theorem whole_create [NeZero shards] : Whole (Threads.create Tid pages shards) :=
  fun page => .inl (@create_well_formed pages shards _ |>.2 page)

variable [DecidableEq Tid]

/-- What leaves a stack is in the hands of the thread that moves, and what leaves its
hands is on a stack. -/
theorem whole_put {st : Threads Tid pages shards} (whole : Whole st) {tid : Tid}
    {memory : PagePoolFast pages shards} {thread : Thread pages shards}
    (stacked : ∀ page, st.memory.OnFreeStack page →
      memory.OnFreeStack page ∨ page ∈ thread.held ++ thread.pc.inFlight)
    (hand : ∀ page ∈ custody st tid,
      memory.OnFreeStack page ∨ page ∈ thread.held ++ thread.pc.inFlight) :
    Whole (st.put tid memory thread) := by
  intro page
  rw [put_custody]
  have mine : memory.OnFreeStack page ∨ page ∈ thread.held ++ thread.pc.inFlight →
      (st.put tid memory thread).memory.OnFreeStack page ∨
        ∃ other, page ∈ Function.update (custody st) tid
          (thread.held ++ thread.pc.inFlight) other := by
    rintro (idle | taken)
    · exact .inl idle
    · exact .inr ⟨tid, by rwa [Function.update_self]⟩
  rcases whole page with idle | ⟨other, member⟩
  · exact mine (stacked page idle)
  · by_cases same : other = tid
    · rw [same] at member
      exact mine (hand page member)
    · exact .inr ⟨other, by rwa [Function.update_of_ne same]⟩

theorem whole_access {st : Threads Tid pages shards} (whole : Whole st) {tid : Tid}
    {memory : PagePoolFast pages shards} {thread : Thread pages shards}
    (next : memory.next = st.memory.next) (head : memory.head = st.memory.head)
    (kept : ∀ page ∈ custody st tid, page ∈ thread.held ++ thread.pc.inFlight) :
    Whole (st.put tid memory thread) := by
  refine whole_put whole (fun page idle => .inl ?_) fun page member => .inr (kept page member)
  unfold OnFreeStack
  rw [next, head]
  exact idle

section Shards

variable [NeZero shards] {st after : Threads Tid pages shards} {tid : Tid}

omit [NeZero shards] in
theorem whole_pop (whole : Whole st) {alloc : AllocFrame pages shards} {top : Fin pages}
    (pc : (st.thread tid).pc = .popHead alloc top (st.memory.next top))
    (at_head : st.memory.head alloc.s = some top) :
    Whole (st.put tid
      { st.memory with head := Function.update st.memory.head alloc.s (st.memory.next top) }
      { st.thread tid with pc := .stampTop alloc top }) := by
  refine whole_put whole ?_ fun page member => .inr ?_
  · rintro page ⟨shard, reached⟩
    by_cases same : shard = alloc.s
    · rw [same, at_head] at reached
      rcases reachable_some_iff.mp reached with rfl | below
      · exact .inr (by simp [Pc.inFlight])
      · refine .inl ⟨alloc.s, ?_⟩
        dsimp only
        rwa [Function.update_self]
    · refine .inl ⟨shard, ?_⟩
      dsimp only
      rwa [Function.update_of_ne same]
  · unfold custody at member
    rw [pc] at member
    change page ∈ (st.thread tid).held ++ (alloc.out ++ [top])
    rw [← List.append_assoc]
    exact List.mem_append_left [top] member

omit [NeZero shards] in
theorem whole_push (whole : Whole st) {frame : FreeFrame pages} {s : Fin shards}
    (pc : (st.thread tid).pc = .pushHead frame s (st.memory.head s))
    (linked : st.memory.next frame.id = st.memory.head s) :
    Whole (st.put tid
      { st.memory with head := Function.update st.memory.head s (some frame.id) }
      { st.thread tid with pc := .freeLoop frame.rest frame.count }) := by
  refine whole_put whole ?_ ?_
  · rintro page ⟨shard, reached⟩
    left
    by_cases same : shard = s
    · refine ⟨s, ?_⟩
      dsimp only
      rw [Function.update_self]
      refine reachable_some_iff.mpr (.inr ?_)
      rw [linked, ← same]
      exact reached
    · refine ⟨shard, ?_⟩
      dsimp only
      rwa [Function.update_of_ne same]
  · intro page member
    unfold custody at member
    rw [pc] at member
    rw [free_loop_in_flight]
    rcases List.mem_append.mp member with held | pushing
    · exact .inr (List.mem_append_left _ held)
    · rcases List.mem_cons.mp pushing with rfl | later
      · refine .inl ⟨s, .top ?_⟩
        exact Function.update_self _ _ _
      · exact .inr (List.mem_append_right _ later)

omit [NeZero shards] in
theorem whole_unmoved (whole : Whole st) {memory : PagePoolFast pages shards}
    {later : Pc pages shards} (next : memory.next = st.memory.next)
    (head : memory.head = st.memory.head)
    (flight : later.inFlight = (st.thread tid).pc.inFlight) :
    Whole (st.put tid memory { st.thread tid with pc := later }) := by
  apply whole_access whole next head
  intro page member
  change page ∈ (st.thread tid).held ++ later.inFlight
  rw [flight]
  exact member

omit [NeZero shards] in
theorem whole_store_next {free : Fin shards → List (Fin pages)} (safe : Safe st free)
    (whole : Whole st) {frame : FreeFrame pages} {s : Fin shards} {top : Option (Fin pages)}
    (pc : (st.thread tid).pc = .storeNext frame s top) :
    Whole (st.put tid { st.memory with next := Function.update st.memory.next frame.id top }
      { st.thread tid with pc := .pushHead frame s top }) := by
  have written := (safe_store_next safe pc).lists
  refine whole_put whole (fun page idle => .inl ?_) fun page member => .inr ?_
  · exact (on_free_stack_iff written page).mpr ((on_free_stack_iff safe.lists page).mp idle)
  · unfold custody at member
    rw [pc] at member
    exact member

omit [NeZero shards] in
theorem whole_count_alloc (whole : Whole st) {alloc : AllocFrame pages shards}
    (pc : (st.thread tid).pc = .countAlloc alloc) {memory : PagePoolFast pages shards}
    (next : memory.next = st.memory.next) (head : memory.head = st.memory.head) :
    Whole (st.put tid memory { held := (st.thread tid).held ++ alloc.out, pc := .idle }) := by
  apply whole_access whole next head
  intro page member
  unfold custody at member
  rw [pc] at member
  exact List.mem_append_left _ member

theorem whole_advance {free : Fin shards → List (Fin pages)} (safe : Safe st free)
    (whole : Whole st) {spurious : Bool}
    (unchanged : LinksUnchanged st (tid, .advance spurious))
    (moved : st.step (tid, .advance spurious) = some after) : Whole after := by
  rcases step_advance moved with ⟨changed, access, rfl⟩
  unfold advance at access
  have known := safe.ready tid
  cases pc : (st.thread tid).pc with
  | idle => simp only [pc, reduceCtorEq] at access
  | loadTop alloc =>
      simp only [pc, Option.some.injEq] at access
      subst access
      exact whole_unmoved whole rfl rfl (pc ▸ on_top_in_flight _ _)
  | loadNext alloc top =>
      simp only [pc, Option.some.injEq] at access
      subst access
      exact whole_unmoved whole rfl rfl (pc ▸ rfl)
  | popHead alloc top nxt =>
      simp only [pc] at access
      split at access
      case isTrue success =>
        cases access
        rw [success.1] at unchanged
        have link := unchanged rfl (alloc.s, top, nxt) (by rw [pc]; rfl) success.2
        dsimp only at link
        rw [← link] at pc ⊢
        exact whole_pop whole pc success.2
      case isFalse =>
        cases access
        exact whole_unmoved whole rfl rfl (pc ▸ on_top_in_flight _ _)
  | stampTop alloc top =>
      simp only [pc, Option.some.injEq] at access
      subst access
      exact whole_unmoved whole rfl rfl (pc ▸ taken_in_flight _)
  | countAlloc alloc =>
      simp only [pc, Option.some.injEq] at access
      subst access
      exact whole_count_alloc whole pc rfl rfl
  | clearStamp frame | loadShard frame | loadHead frame s | countFree count =>
      simp only [pc, Option.some.injEq] at access
      subst access
      exact whole_unmoved whole rfl rfl (pc ▸ rfl)
  | storeNext frame s top =>
      simp only [pc, Option.some.injEq] at access
      subst access
      exact whole_store_next safe whole pc
  | pushHead frame s top =>
      simp only [pc] at access
      split at access
      case isTrue success =>
        cases access
        rw [pc] at known
        have linked := known.2
        rw [← success.2] at pc linked
        exact whole_push whole pc linked
      case isFalse =>
        cases access
        exact whole_unmoved whole rfl rfl (pc ▸ rfl)

theorem whole_step {free : Fin shards → List (Fin pages)} (safe : Safe st free) (whole : Whole st)
    {move : Tid × Move pages} (unchanged : LinksUnchanged st move)
    (moved : st.step move = some after) : Whole after := by
  rcases move with ⟨tid, act⟩
  cases act with
  | alloc n threadHash ts =>
      rcases step_alloc moved with ⟨idle, rfl⟩
      refine whole_access whole rfl rfl fun page member => ?_
      unfold custody at member
      rw [idle] at member
      rw [alloc_loop_in_flight]
      exact member
  | freePages ids =>
      rcases step_free_pages moved with ⟨idle, rfl⟩
      refine whole_access whole rfl rfl fun page member => ?_
      unfold custody at member
      rw [idle] at member
      have held : page ∈ (st.thread tid).held := by simpa [Pc.inFlight] using member
      rw [free_loop_in_flight]
      by_cases given : page ∈ ids
      · exact List.mem_append_right _ given
      · exact List.mem_append_left _ (List.mem_filter.mpr ⟨held, decide_eq_true given⟩)
  | advance spurious => exact whole_advance safe whole unchanged moved

/-! ## A pop with a stale link -/

omit [DecidableEq Tid] [NeZero shards] in
theorem popping_some {pc : Pc pages shards} {pop : Fin shards × Fin pages × Option (Fin pages)}
    (attempted : pop ∈ pc.popping) :
    ∃ alloc top nxt, pc = .popHead alloc top nxt ∧ pop = (alloc.s, top, nxt) := by
  cases pc with
  | popHead alloc top nxt => exact ⟨alloc, top, nxt, rfl, (Option.some.inj attempted).symm⟩
  | _ => cases attempted

def popped (st : Threads Tid pages shards) (tid : Tid) (alloc : AllocFrame pages shards)
    (top : Fin pages) (nxt : Option (Fin pages)) : Threads Tid pages shards :=
  st.put tid { st.memory with head := Function.update st.memory.head alloc.s nxt }
    { st.thread tid with pc := .stampTop alloc top }

section Stale

variable {free : Fin shards → List (Fin pages)} {alloc : AllocFrame pages shards}
  {top : Fin pages} {nxt : Option (Fin pages)}

omit [NeZero shards] in
theorem popped_custody (pc : (st.thread tid).pc = .popHead alloc top nxt) {page : Fin pages}
    {other : Tid} (member : page ∈ custody (popped st tid alloc top nxt) other) :
    page = top ∨ ∃ holder, page ∈ custody st holder := by
  unfold popped at member
  rw [put_custody] at member
  by_cases same : other = tid
  · rw [same, Function.update_self] at member
    change page ∈ (st.thread tid).held ++ (alloc.out ++ [top]) at member
    rw [← List.append_assoc] at member
    rcases List.mem_append.mp member with before | isTop
    · refine .inr ⟨tid, ?_⟩
      unfold custody
      rw [pc]
      exact before
    · exact .inl (List.mem_singleton.mp isTop)
  · rw [Function.update_of_ne same] at member
    exact .inr ⟨other, member⟩

omit [DecidableEq Tid] [NeZero shards] in
theorem free_page_stack (whole : Whole st) {page : Fin pages}
    (outside : ¬(page = top ∨ ∃ holder, page ∈ custody st holder)) :
    ∃ shard, Reachable st.memory.next (st.memory.head shard) page :=
  (whole page).resolve_right fun inHand => outside (.inr inHand)

omit [NeZero shards] in
/-- The page below the top is lost when the pop jumps past it or to another stack. -/
theorem bypassed_page_lost (safe : Safe st free) (whole : Whole st)
    (pc : (st.thread tid).pc = .popHead alloc top nxt)
    (at_head : st.memory.head alloc.s = some top) {page : Fin pages}
    (linked : st.memory.next top = some page) (stale : some page ≠ nxt)
    (outside : ∀ node ∈ nxt, ¬(node = top ∨ ∃ holder, node ∈ custody st holder)) :
    ¬Whole (popped st tid alloc top nxt) := by
  intro wholeAfter
  have topReached : Reachable st.memory.next (st.memory.head alloc.s) top := .top at_head
  have reached : Reachable st.memory.next (st.memory.head alloc.s) page := .link topReached linked
  have acyclic : ∀ node, Reachable st.memory.next (st.memory.head alloc.s) node →
      ¬Reachable st.memory.next (st.memory.next node) node :=
    fun _ => not_below_itself (safe.lists.chain alloc.s)
  rcases wholeAfter page with ⟨shard, after⟩ | ⟨other, member⟩
  · change Reachable st.memory.next (Function.update st.memory.head alloc.s nxt shard) page
      at after
    by_cases same : shard = alloc.s
    · rw [same, Function.update_self] at after
      cases nxt with
      | none => exact not_reachable_none page after
      | some node =>
          have below := (reachable_some_iff.mp after).resolve_left fun same =>
            stale (congrArg some same)
          obtain ⟨home, onStack⟩ := free_page_stack whole (outside node rfl)
          have here := one_stack_of_lists safe.lists (reachable_below onStack below) reached
          rw [here, at_head] at onStack
          have under := (reachable_some_iff.mp onStack).resolve_left fun isTop =>
            outside node rfl (.inl isTop)
          rw [linked] at under
          have further := (reachable_some_iff.mp under).resolve_left fun same =>
            stale (congrArg some same.symm)
          exact acyclic page reached (reachable_below further below)
    · rw [Function.update_of_ne same] at after
      exact same (one_stack_of_lists safe.lists after reached)
  · rcases popped_custody pc member with isTop | ⟨holder, held⟩
    · rw [isTop] at linked
      exact acyclic top topReached (.top linked)
    · exact (safe_exclusive safe).not_free holder page held ⟨alloc.s, reached⟩

omit [NeZero shards] in
/-- With nothing below the top, the new head is on another stack already. -/
theorem foreign_head_doubled (whole : Whole st) (at_head : st.memory.head alloc.s = some top)
    (linked : st.memory.next top = none) {node : Fin pages}
    (outside : ¬(node = top ∨ ∃ holder, node ∈ custody st holder)) :
    ¬Conserved (popped st tid alloc top (some node)) := by
  intro conserved
  obtain ⟨home, onStack⟩ := free_page_stack whole outside
  by_cases same : home = alloc.s
  · rw [same, at_head] at onStack
    have below := (reachable_some_iff.mp onStack).resolve_left fun isTop => outside (.inl isTop)
    rw [linked] at below
    exact not_reachable_none node below
  · apply same
    apply conserved.one_stack home alloc.s node
    · change Reachable st.memory.next (Function.update st.memory.head alloc.s (some node) home) node
      rwa [Function.update_of_ne same]
    · exact .top (Function.update_self _ _ _)

theorem stale_pop_not_conserved (safe : Safe st free) (whole : Whole st)
    (pc : (st.thread tid).pc = .popHead alloc top nxt)
    (at_head : st.memory.head alloc.s = some top) (stale : st.memory.next top ≠ nxt)
    (moved : st.step (tid, .advance false) = some after) : ¬Conserved after := by
  by_cases inHand : ∃ node ∈ nxt, node = top ∨ ∃ holder, node ∈ custody st holder
  · obtain ⟨node, rfl, inHand⟩ := inHand
    exact fun conserved => held_head_not_exclusive pc at_head inHand moved conserved.exclusive
  · push Not at inHand
    have outside : ∀ node ∈ nxt, ¬(node = top ∨ ∃ holder, node ∈ custody st holder) := by
      intro node new either
      exact either.elim (inHand node new).1 fun ⟨holder, held⟩ =>
        (inHand node new).2 holder held
    rcases step_advance moved with ⟨changed, access, rfl⟩
    simp only [advance, pc, at_head, and_self, if_true, Option.some.injEq] at access
    subst access
    intro conserved
    cases linked : st.memory.next top with
    | some page =>
        rw [linked] at stale
        exact bypassed_page_lost safe whole pc at_head linked stale outside conserved.whole
    | none =>
        rw [linked] at stale
        obtain ⟨node, rfl⟩ := Option.ne_none_iff_exists'.mp stale.symm
        exact foreign_head_doubled whole at_head linked (outside node rfl) conserved

end Stale

/-! ## Runs -/

/-- In every interleaving whose pops find the link of the top unchanged, every page is
in exactly one place in every state; a move keeps it so if and only if it is no pop
with a stale link. -/
theorem pages_conserved_iff_links_unchanged (reached : Threads.Reached SteadyMoves st) :
    Conserved st ∧ ∀ move after, st.FreesHeld move → st.step move = some after →
      (Conserved after ↔ LinksUnchanged st move) := by
  have sound : ∃ free, Safe st free ∧ Whole st := by
    apply reaches_invariant (motive := fun st => ∃ free, Safe st free ∧ Whole st) _ _ reached
    · obtain ⟨free, safe⟩ := @safe_create Tid pages shards _
      exact ⟨free, safe, whole_create⟩
    · rintro before move after - ⟨free, safe, whole⟩ steady moved
      obtain ⟨left, safeAfter⟩ :=
        safe_step safe steady.1 (links_unchanged_fresh steady.2) moved
      exact ⟨left, safeAfter, whole_step safe whole steady.2 moved⟩
  obtain ⟨free, safe, whole⟩ := sound
  refine ⟨conserved_of_safe safe whole, ?_⟩
  intro move after held moved
  constructor
  · intro conserved
    by_contra changed
    unfold LinksUnchanged at changed
    push Not at changed
    obtain ⟨access, pop, attempted, at_head, stale⟩ := changed
    obtain ⟨alloc, top, nxt, pc, rfl⟩ := popping_some attempted
    rcases move with ⟨tid, act⟩
    cases access
    exact stale_pop_not_conserved safe whole pc at_head stale moved conserved
  · intro unchanged
    obtain ⟨left, safeAfter⟩ := safe_step safe held (links_unchanged_fresh unchanged) moved
    exact conserved_of_safe safeAfter (whole_step safe whole unchanged moved)

/-- Thread `true` takes both pages and returns one while thread `false` is suspended in
its pop: all is in place until the pop goes through. -/
theorem pages_conserved_two_threads :
    let st := (runCalls Threads.step SteadyMoves (Threads.create Bool 2 1)
      [(false, .alloc 1 0 5), access false, access false,
        (true, .alloc 1 0 6), access true, access true, access true, access true, access true,
        (true, .alloc 1 0 7), access true, access true, access true, access true, access true,
        (true, .freePages [1]), access true, access true, access true, access true, access true,
        access true]).get (by decide)
    Conserved st ∧ ¬Conserved ((st.step (access false)).get (by decide)) := by
  intro st
  have reached : Threads.Reached SteadyMoves st := reaches_of_run_get _ (by decide)
  have conserved := pages_conserved_iff_links_unchanged reached
  refine ⟨conserved.1, ?_⟩
  rw [conserved.2 (access false) _ trivial (Option.some_get _).symm]
  decide

end Shards

end AmpFormal.PagePoolFastConservation
