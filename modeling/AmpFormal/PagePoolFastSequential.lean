import Mathlib.Algebra.Ring.Defs
import AmpFormal.PagePoolFastModel
import Mathlib.Algebra.BigOperators.Fin
import Mathlib.Algebra.Group.Fin.Basic
import Mathlib.Data.ENat.BigOperators
import Mathlib.Algebra.Order.BigOperators.Group.Finset

/-!
# What the sequential pool operations do

`alloc` is a sequence of single pops, so each of its properties is shown for
one pop and carried along `Draws`. Two levels are kept apart. For every sharded
pool, even one whose links were corrupted into a cycle by a double free,
`alloc` succeeds exactly when the stacks hold enough pages. For a well-formed
pool, whose free pages are exactly the pages with a cleared timestamp, the
operations are described by their effect on the timestamps alone.
-/

namespace AmpFormal.PagePoolFastSequential

open AmpFormal.LinkedStack AmpFormal.PagePoolFastModel AmpFormal.PagePoolFastModel.PagePoolFast

set_option autoImplicit false

variable {pages shards : Nat}

/-! ## Pops -/

inductive Draws (ts : UInt64) : PagePoolFast pages shards → List (Fin pages) →
    PagePoolFast pages shards → List (Fin pages) → Prop where
  | refl (pool : PagePoolFast pages shards) (out : List (Fin pages)) : Draws ts pool out pool out
  | pop {pool last : PagePoolFast pages shards} {out taken : List (Fin pages)}
      {shard : Fin shards} {top : Fin pages} (at_head : pool.head shard = some top)
      (rest : Draws ts (pool.pop shard top ts) (out ++ [top]) last taken) :
      Draws ts pool out last taken

theorem draws_trans {ts : UInt64} {first second third : PagePoolFast pages shards}
    {before between after : List (Fin pages)} (left : Draws ts first before second between)
    (right : Draws ts second between third after) : Draws ts first before third after := by
  induction left with
  | refl pool out => exact right
  | pop at_head rest ih => exact .pop at_head (ih right)

theorem pop_loop_draws (ts : UInt64) (shard : Fin shards) (missing : Nat)
    (pool : PagePoolFast pages shards) (out : List (Fin pages)) :
    Draws ts pool out (popLoop ts shard missing pool out).1
      (popLoop ts shard missing pool out).2 := by
  induction missing generalizing pool out with
  | zero => exact .refl pool out
  | succ missing ih =>
      cases at_head : pool.head shard with
      | none =>
          simp only [popLoop, at_head]
          exact .refl pool out
      | some top =>
          simp only [popLoop, at_head]
          exact .pop at_head (ih _ _)

theorem pop_loop_length_le (ts : UInt64) (shard : Fin shards) (missing : Nat)
    (pool : PagePoolFast pages shards) (out : List (Fin pages)) :
    (popLoop ts shard missing pool out).2.length ≤ out.length + missing := by
  induction missing generalizing pool out with
  | zero => simp [popLoop]
  | succ missing ih =>
      cases at_head : pool.head shard with
      | none => simp [popLoop, at_head]
      | some top =>
          have bound := ih (pool.pop shard top ts) (out ++ [top])
          simp only [popLoop, at_head]
          simp only [List.length_append, List.length_cons, List.length_nil] at bound
          omega

theorem pop_loop_stops (ts : UInt64) (shard : Fin shards) (missing : Nat)
    (pool : PagePoolFast pages shards) (out : List (Fin pages)) :
    (popLoop ts shard missing pool out).2.length = out.length + missing ∨
      (popLoop ts shard missing pool out).1.head shard = none := by
  induction missing generalizing pool out with
  | zero => exact Or.inl rfl
  | succ missing ih =>
      cases at_head : pool.head shard with
      | none =>
          simp only [popLoop, at_head]
          exact Or.inr trivial
      | some top =>
          simp only [popLoop, at_head]
          rcases ih (pool.pop shard top ts) (out ++ [top]) with full | empty
          · simp only [List.length_append, List.length_cons, List.length_nil] at full
            exact Or.inl (by omega)
          · exact Or.inr empty

theorem draws_keep_empty {ts : UInt64} {pool last : PagePoolFast pages shards}
    {out taken : List (Fin pages)} (draws : Draws ts pool out last taken) (shard : Fin shards)
    (empty : pool.head shard = none) : last.head shard = none := by
  induction draws with
  | refl pool out => exact empty
  | @pop pool last out taken other top at_head rest ih =>
      have different : shard ≠ other := by
        intro same
        rw [same, at_head] at empty
        cases empty
      apply ih
      simpa [PagePoolFast.pop, Function.update_of_ne different] using empty

theorem shard_loop_draws [NeZero shards] (n : Nat) (ts : UInt64) (tries : Nat)
    (shard : Fin shards) (pool : PagePoolFast pages shards) (out : List (Fin pages)) :
    Draws ts pool out (shardLoop n ts tries shard pool out).1
      (shardLoop n ts tries shard pool out).2 := by
  induction tries generalizing shard pool out with
  | zero => exact .refl pool out
  | succ tries ih =>
      unfold shardLoop
      split
      · exact draws_trans (pop_loop_draws ts shard (n - out.length) pool out) (ih _ _ _)
      · exact .refl pool out

theorem shard_loop_length_le [NeZero shards] (n : Nat) (ts : UInt64) (tries : Nat)
    (shard : Fin shards) (pool : PagePoolFast pages shards) (out : List (Fin pages))
    (bound : out.length ≤ n) : (shardLoop n ts tries shard pool out).2.length ≤ n := by
  induction tries generalizing shard pool out with
  | zero => exact bound
  | succ tries ih =>
      unfold shardLoop
      split
      · apply ih
        have popped := pop_loop_length_le ts shard (n - out.length) pool out
        omega
      · exact bound

theorem cyclic_successor [NeZero shards] (shard : Fin shards) (offset : Nat) :
    shard + 1 + Fin.ofNat shards offset = shard + Fin.ofNat shards (offset + 1) := by
  apply Fin.ext
  simp only [Fin.val_add, Fin.val_ofNat, Fin.val_one', Nat.mod_add_mod, Nat.add_mod_mod]
  rw [Nat.add_right_comm, Nat.add_assoc]

/-- A short result means that every shard tried is empty. -/
theorem shard_loop_empties [NeZero shards] (n : Nat) (ts : UInt64) (tries : Nat)
    (shard : Fin shards) (pool : PagePoolFast pages shards) (out : List (Fin pages))
    (short : (shardLoop n ts tries shard pool out).2.length < n) (offset : Nat)
    (tried : offset < tries) :
    (shardLoop n ts tries shard pool out).1.head (shard + Fin.ofNat shards offset) = none := by
  induction tries generalizing shard pool out offset with
  | zero => omega
  | succ tries ih =>
      unfold shardLoop at short ⊢
      split at short
      case isFalse full => exact absurd short full
      case isTrue room =>
        rw [if_pos room]
        have remaining := shard_loop_draws n ts tries (shard + 1)
          (popLoop ts shard (n - out.length) pool out).1
          (popLoop ts shard (n - out.length) pool out).2
        cases offset with
        | zero =>
            have here : shard + Fin.ofNat shards 0 = shard := by simp
            rw [here]
            apply draws_keep_empty remaining
            rcases pop_loop_stops ts shard (n - out.length) pool out with full | empty
            · have longer : (popLoop ts shard (n - out.length) pool out).2.length = n := by omega
              exact absurd short (by
                cases tries with
                | zero => simp [shardLoop, longer]
                | succ tries => simp [shardLoop, longer])
            · exact empty
        | succ offset =>
            rw [← cyclic_successor]
            exact ih (shard + 1) _ _ short offset (by omega)

theorem shard_loop_exhausts [NeZero shards] (n : Nat) (ts : UInt64) (first : Fin shards)
    (pool : PagePoolFast pages shards)
    (short : (shardLoop n ts shards first pool []).2.length < n) (shard : Fin shards) :
    (shardLoop n ts shards first pool []).1.head shard = none := by
  have visited := shard_loop_empties n ts shards first pool [] short (shard - first).val
    (shard - first).isLt
  have target : first + Fin.ofNat shards (shard - first).val = shard := by
    rw [Fin.ofNat_val_eq_self]
    exact add_sub_cancel first shard
  rwa [target] at visited

/-- What any sequence of pops leaves alone, and which timestamps it sets. -/
structure DrawsFrame (ts : UInt64) (pool last : PagePoolFast pages shards)
    (new : List (Fin pages)) : Prop where
  next : last.next = pool.next
  shard : last.shard = pool.shard
  allocCnt : last.allocCnt = pool.allocCnt
  freeCnt : last.freeCnt = pool.freeCnt
  touchUs : ∀ id, last.touchUs id = if id ∈ new then ts else pool.touchUs id

theorem draws_frame {ts : UInt64} {pool last : PagePoolFast pages shards}
    {out taken : List (Fin pages)} (draws : Draws ts pool out last taken) :
    ∃ new, taken = out ++ new ∧ DrawsFrame ts pool last new := by
  induction draws with
  | refl pool out => exact ⟨[], by simp, rfl, rfl, rfl, rfl, by simp⟩
  | @pop pool last out taken shard top at_head rest ih =>
      rcases ih with ⟨new, split, frame⟩
      refine ⟨top :: new, by simp [split], frame.next, frame.shard, frame.allocCnt,
        frame.freeCnt, ?_⟩
      intro id
      rw [frame.touchUs id]
      by_cases later : id ∈ new
      · simp [later]
      · by_cases same : id = top
        · simp [same, PagePoolFast.pop]
        · simp [later, same, PagePoolFast.pop]

/-! ## Sharded pools: when an allocation succeeds -/

/-- Every link stays in the shard of its page. No operation breaks this, not
even a page freed twice. -/
structure Sharded (pool : PagePoolFast pages shards) : Prop where
  head : ∀ shard top, pool.head shard = some top → pool.shard top = shard
  next : ∀ id successor, pool.next id = some successor → pool.shard successor = pool.shard id

/-- The pages `alloc` could pop, infinite when a stack has become a cycle. -/
noncomputable def available (pool : PagePoolFast pages shards) : ℕ∞ :=
  ∑ shard, depth pool.next (pool.head shard)

def canPop (pool : PagePoolFast pages shards) (n : Nat) : Bool :=
  n ≤ ∑ shard, popsUpTo pool.next n (pool.head shard)

theorem can_pop_iff (pool : PagePoolFast pages shards) (n : Nat) :
    canPop pool n = true ↔ (n : ℕ∞) ≤ available pool := by
  have capped : ((∑ shard, popsUpTo pool.next n (pool.head shard) : Nat) : ℕ∞) =
      ∑ shard, min (n : ℕ∞) (depth pool.next (pool.head shard)) := by
    rw [Nat.cast_sum]
    apply Finset.sum_congr rfl
    intro shard _
    exact pops_up_to_eq_min n (pool.head shard)
  rw [canPop, decide_eq_true_iff, ← Nat.cast_le (α := ℕ∞), capped, available]
  constructor
  · intro enough
    exact enough.trans (Finset.sum_le_sum fun shard _ => min_le_right _ _)
  · intro enough
    by_cases deep : ∃ shard, (n : ℕ∞) ≤ depth pool.next (pool.head shard)
    · rcases deep with ⟨shard, bound⟩
      calc
        (n : ℕ∞) = min (n : ℕ∞) (depth pool.next (pool.head shard)) := (min_eq_left bound).symm
        _ ≤ _ := Finset.single_le_sum (f := fun other =>
            min (n : ℕ∞) (depth pool.next (pool.head other)))
          (fun _ _ => zero_le) (Finset.mem_univ shard)
    · rw [Finset.sum_congr rfl fun shard _ =>
        min_eq_right (le_of_not_ge fun bound => deep ⟨shard, bound⟩)]
      exact enough

theorem available_pop {pool : PagePoolFast pages shards} {shard : Fin shards} {top : Fin pages}
    (at_head : pool.head shard = some top) (ts : UInt64) :
    available pool = available (pool.pop shard top ts) + 1 := by
  have moved : (fun other => depth pool.next ((pool.pop shard top ts).head other)) =
      Function.update (fun other => depth pool.next (pool.head other)) shard
        (depth pool.next (pool.next top)) := by
    funext other
    by_cases same : other = shard
    · subst same
      simp [PagePoolFast.pop]
    · simp [PagePoolFast.pop, Function.update_of_ne same]
  have popped : available (pool.pop shard top ts) = depth pool.next (pool.next top) +
      ∑ other ∈ Finset.univ \ {shard}, depth pool.next (pool.head other) := by
    change ∑ other, (fun other => depth pool.next ((pool.pop shard top ts).head other)) other = _
    rw [moved, Finset.sum_update_of_mem (Finset.mem_univ shard)]
  have whole : available pool = depth pool.next (some top) +
      ∑ other ∈ Finset.univ \ {shard}, depth pool.next (pool.head other) := by
    rw [available, ← at_head, Finset.sdiff_singleton_eq_erase,
      Finset.add_sum_erase _ (fun other => depth pool.next (pool.head other))
        (Finset.mem_univ shard)]
  rw [whole, popped, depth_some]
  exact add_right_comm _ _ _

theorem draws_available {ts : UInt64} {pool last : PagePoolFast pages shards}
    {out taken : List (Fin pages)} (draws : Draws ts pool out last taken) :
    available pool + out.length = available last + taken.length := by
  induction draws with
  | refl pool out => rfl
  | pop at_head rest ih =>
      rw [available_pop at_head ts, ← ih]
      simp only [List.length_append, List.length_cons, List.length_nil, Nat.cast_add, zero_add,
        Nat.cast_one]
      rw [add_assoc, add_comm (1 : ℕ∞)]

theorem available_exhausted {pool : PagePoolFast pages shards}
    (empty : ∀ shard, pool.head shard = none) : available pool = 0 := by
  apply Finset.sum_eq_zero
  intro shard _
  rw [empty shard, depth_none]

/-! ## Free lists -/

abbrev FreeLists (pool : PagePoolFast pages shards) (free : Fin shards → List (Fin pages)) : Prop :=
  Stacked pool.next pool.head pool.shard free

theorem free_lists_available {pool : PagePoolFast pages shards}
    {free : Fin shards → List (Fin pages)} (lists : FreeLists pool free) :
    available pool = ∑ shard, ((free shard).length : ℕ∞) := by
  apply Finset.sum_congr rfl
  intro shard _
  exact depth_of_chain (lists.chain shard)

theorem chain_stays_home {pool : PagePoolFast pages shards} (sharded : Sharded pool)
    {shard : Fin shards} {first : Option (Fin pages)} {nodes : List (Fin pages)}
    (chain : Chain pool.next first nodes)
    (starts : ∀ top, first = some top → pool.shard top = shard) :
    ∀ node ∈ nodes, pool.shard node = shard := by
  induction nodes generalizing first with
  | nil => simp
  | cons top rest ih =>
      intro node member
      have topHome := starts top chain.1
      rcases List.mem_cons.mp member with rfl | later
      · exact topHome
      · refine ih chain.2 (fun successor linked => ?_) node later
        rw [sharded.next top successor linked, topHome]

theorem sharded_free_lists {pool : PagePoolFast pages shards} (sharded : Sharded pool)
    (finite : available pool ≠ ⊤) : ∃ free, FreeLists pool free := by
  have ended : ∀ shard, ∃ nodes, Chain pool.next (pool.head shard) nodes := by
    intro shard
    apply chain_of_depth_ne_top
    intro endless
    apply finite
    exact WithTop.sum_eq_top.mpr ⟨shard, Finset.mem_univ shard, endless⟩
  choose free chain using ended
  exact ⟨free, chain, fun shard => chain_stays_home sharded (chain shard) (sharded.head shard)⟩

theorem sharded_pop {pool : PagePoolFast pages shards} (sharded : Sharded pool)
    {shard : Fin shards} {top : Fin pages} (at_head : pool.head shard = some top) (ts : UInt64) :
    Sharded (pool.pop shard top ts) := by
  constructor
  · intro other successor exposed
    by_cases same : other = shard
    · subst same
      simp only [PagePoolFast.pop, Function.update_self] at exposed
      exact (sharded.next top successor exposed).trans (sharded.head _ top at_head)
    · simp only [PagePoolFast.pop, Function.update_of_ne same] at exposed
      exact sharded.head other successor exposed
  · exact sharded.next

theorem sharded_push {pool : PagePoolFast pages shards} (sharded : Sharded pool)
    (id : Fin pages) : Sharded (pool.push id) := by
  constructor
  · intro shard top exposed
    by_cases same : shard = pool.shard id
    · subst same
      simp only [PagePoolFast.push, Function.update_self, Option.some.injEq] at exposed ⊢
      rw [← exposed]
    · simp only [PagePoolFast.push, Function.update_of_ne same] at exposed ⊢
      exact sharded.head shard top exposed
  · intro other successor linked
    by_cases same : other = id
    · subst same
      simp only [PagePoolFast.push, Function.update_self] at linked ⊢
      exact sharded.head _ successor linked
    · simp only [PagePoolFast.push, Function.update_of_ne same] at linked ⊢
      exact sharded.next other successor linked

theorem draws_sharded {ts : UInt64} {pool last : PagePoolFast pages shards}
    {out taken : List (Fin pages)} (draws : Draws ts pool out last taken)
    (sharded : Sharded pool) : Sharded last := by
  induction draws with
  | refl pool out => exact sharded
  | pop at_head rest ih => exact ih (sharded_pop sharded at_head ts)

theorem push_all_sharded (ids : List (Fin pages)) {pool : PagePoolFast pages shards}
    (sharded : Sharded pool) : Sharded (ids.foldl push pool) := by
  induction ids generalizing pool with
  | nil => exact sharded
  | cons id rest ih => exact ih (sharded_push sharded id)

/-- Pages already drawn and pages still listed stay apart, and together they
are the same pages as before. -/
structure Drawn (pool : PagePoolFast pages shards) (free : Fin shards → List (Fin pages))
    (out : List (Fin pages)) : Prop where
  lists : FreeLists pool free
  nodup : out.Nodup
  apart : ∀ id ∈ out, id ∉ free (pool.shard id)

theorem drawn_pop {pool : PagePoolFast pages shards} {free : Fin shards → List (Fin pages)}
    {out : List (Fin pages)} (drawn : Drawn pool free out) {shard : Fin shards} {top : Fin pages}
    (at_head : pool.head shard = some top) (ts : UInt64) :
    ∃ rest, Drawn (pool.pop shard top ts) (Function.update free shard rest) (out ++ [top]) ∧
      ∀ id, (id ∈ free (pool.shard id) ∨ id ∈ out) ↔
        (id ∈ Function.update free shard rest (pool.shard id) ∨ id ∈ out ++ [top]) := by
  rcases stacked_pop drawn.lists at_head with ⟨rest, split, popped⟩
  have topHome : pool.shard top = shard :=
    drawn.lists.home shard top (by rw [split]; exact List.mem_cons_self)
  have listed : ∀ id, id ∈ free (pool.shard id) ↔
      id = top ∨ id ∈ Function.update free shard rest (pool.shard id) := by
    intro id
    by_cases here : pool.shard id = shard
    · rw [here, split, Function.update_self, List.mem_cons]
    · rw [Function.update_of_ne here]
      have different : id ≠ top := fun same => here (same ▸ topHome)
      simp [different]
  have topUnlisted : top ∉ Function.update free shard rest (pool.shard top) := by
    rw [topHome, Function.update_self]
    have distinct := chain_nodup (drawn.lists.chain shard)
    rw [split] at distinct
    exact (List.nodup_cons.mp distinct).1
  have topNew : top ∉ out := fun member => drawn.apart top member ((listed top).mpr (Or.inl rfl))
  refine ⟨rest, ⟨popped, ?_, ?_⟩, ?_⟩
  · rw [List.nodup_append]
    refine ⟨drawn.nodup, List.nodup_singleton top, ?_⟩
    intro id member other single same
    rw [List.mem_singleton] at single
    exact topNew (single ▸ same ▸ member)
  · intro id member
    rcases List.mem_append.mp member with old | fresh
    · exact fun inside => drawn.apart id old ((listed id).mpr (Or.inr inside))
    · rw [List.mem_singleton] at fresh
      rw [fresh]
      exact topUnlisted
  · intro id
    rw [listed id, List.mem_append, List.mem_singleton]
    tauto

theorem draws_drawn {ts : UInt64} {pool last : PagePoolFast pages shards}
    {out taken : List (Fin pages)} (draws : Draws ts pool out last taken)
    {free : Fin shards → List (Fin pages)} (drawn : Drawn pool free out) :
    ∃ left, Drawn last left taken ∧
      ∀ id, (id ∈ free (pool.shard id) ∨ id ∈ out) ↔
        (id ∈ left (pool.shard id) ∨ id ∈ taken) := by
  induction draws generalizing free with
  | refl pool out => exact ⟨free, drawn, fun _ => Iff.rfl⟩
  | pop at_head rest ih =>
      rcases drawn_pop drawn at_head ts with ⟨remaining, next, conserved⟩
      rcases ih next with ⟨left, final, kept⟩
      exact ⟨left, final, fun id => (conserved id).trans (kept id)⟩

theorem available_push {pool : PagePoolFast pages shards} {free : Fin shards → List (Fin pages)}
    (lists : FreeLists pool free) {id : Fin pages} (outside : id ∉ free (pool.shard id)) :
    available (pool.push id) = available pool + 1 := by
  have popped : available (pool.push id) =
      available ((pool.push id).pop (pool.shard id) id 0) + 1 :=
    available_pop (Function.update_self _ _ _) 0
  have restored : FreeLists ((pool.push id).pop (pool.shard id) id 0) free := by
    have step := stacked_set_link lists outside (pool.head (pool.shard id))
    have same : ((pool.push id).pop (pool.shard id) id 0).head = pool.head := by
      simp [PagePoolFast.pop, PagePoolFast.push]
    change Stacked (Function.update pool.next id (pool.head (pool.shard id)))
      ((pool.push id).pop (pool.shard id) id 0).head pool.shard free
    rw [same]
    exact step
  rw [popped, free_lists_available restored, free_lists_available lists]

theorem push_all_free_lists (ids : List (Fin pages)) {pool : PagePoolFast pages shards}
    {free : Fin shards → List (Fin pages)} (lists : FreeLists pool free) (distinct : ids.Nodup)
    (unlisted : ∀ id ∈ ids, id ∉ free (pool.shard id)) :
    ∃ refilled, FreeLists (ids.foldl push pool) refilled ∧
      (∀ id, id ∈ refilled (pool.shard id) ↔ id ∈ free (pool.shard id) ∨ id ∈ ids) ∧
      available (ids.foldl push pool) = available pool + ids.length := by
  induction ids generalizing pool free with
  | nil => exact ⟨free, lists, by simp, by simp⟩
  | cons id rest ih =>
      have outside := unlisted id (by simp)
      have linked := stacked_link (stacked_set_link lists outside (pool.head (pool.shard id)))
        (Function.update_self id _ pool.next)
      have pushed : FreeLists (pool.push id)
          (Function.update free (pool.shard id) (id :: free (pool.shard id))) := linked
      have listed : ∀ other, other ∈ Function.update free (pool.shard id)
          (id :: free (pool.shard id)) (pool.shard other) ↔
            other = id ∨ other ∈ free (pool.shard other) := by
        intro other
        by_cases here : pool.shard other = pool.shard id
        · rw [here, Function.update_self, List.mem_cons]
        · rw [Function.update_of_ne here]
          have different : other ≠ id := fun same => here (by rw [same])
          simp [different]
      have apart : ∀ other ∈ rest, other ∉ Function.update free (pool.shard id)
          (id :: free (pool.shard id)) (pool.shard other) := by
        intro other member inside
        rcases (listed other).mp inside with same | older
        · exact (List.nodup_cons.mp distinct).1 (same ▸ member)
        · exact unlisted other (by simp [member]) older
      rcases ih pushed (List.nodup_cons.mp distinct).2 apart with
        ⟨refilled, final, members, total⟩
      refine ⟨refilled, final, ?_, ?_⟩
      · intro other
        have step := members other
        change other ∈ refilled (pool.shard other) ↔ _ at step
        rw [step]
        change other ∈ Function.update free (pool.shard id)
          (id :: free (pool.shard id)) (pool.shard other) ∨ _ ↔ _
        rw [listed other, List.mem_cons]
        tauto
      · rw [List.foldl_cons, total, available_push lists outside, List.length_cons,
          Nat.cast_add, Nat.cast_one, add_assoc, add_comm (1 : ℕ∞)]

theorem free_pages_sharded {pool : PagePoolFast pages shards} (sharded : Sharded pool)
    (ids : List (Fin pages)) : Sharded (pool.freePages ids) := by
  have pushed := push_all_sharded ids sharded
  exact ⟨pushed.head, pushed.next⟩

theorem touch_sharded {pool : PagePoolFast pages shards} (sharded : Sharded pool)
    (ids : List (Fin pages)) (ts : UInt64) : Sharded (pool.touch ids ts) :=
  ⟨sharded.head, sharded.next⟩

theorem create_sharded [NeZero shards] : Sharded (create pages shards) := by
  apply push_all_sharded
  constructor
  · intro shard top head
    cases head
  · intro id successor next
    cases next

/-! ## Allocation in a sharded pool -/

theorem alloc_cases [NeZero shards] (pool : PagePoolFast pages shards) (n : Nat) (threadHash : Int)
    (ts : UInt64) :
    (∃ last taken, Draws ts pool [] last taken ∧ taken.length = n ∧
      pool.alloc n threadHash ts = ({ last with allocCnt := last.allocCnt + UInt64.ofNat n }, taken)) ∨
    (∃ last taken, Draws ts pool [] last taken ∧ taken.length < n ∧
      (∀ shard, last.head shard = none) ∧
      pool.alloc n threadHash ts = (last.freePages taken, [])) := by
  have draws := shard_loop_draws n ts shards (firstShard shards threadHash) pool []
  have bound := shard_loop_length_le n ts shards (firstShard shards threadHash) pool []
    (Nat.zero_le n)
  by_cases short : (shardLoop n ts shards (firstShard shards threadHash) pool []).2.length < n
  · right
    refine ⟨_, _, draws, short, shard_loop_exhausts n ts _ pool short, ?_⟩
    simp only [PagePoolFast.alloc, if_pos short]
  · left
    refine ⟨_, _, draws, by omega, ?_⟩
    simp only [PagePoolFast.alloc, if_neg short]

theorem alloc_short_empty [NeZero shards] {pool : PagePoolFast pages shards} {n : Nat}
    {threadHash : Int} {ts : UInt64} (short : (pool.alloc n threadHash ts).2.length < n) :
    (pool.alloc n threadHash ts).2 = [] := by
  rcases alloc_cases pool n threadHash ts with
    ⟨last, taken, _, full, result⟩ | ⟨last, taken, _, _, _, result⟩
  · rw [result] at short
    dsimp only at short
    omega
  · rw [result]

theorem alloc_sharded [NeZero shards] {pool : PagePoolFast pages shards} (sharded : Sharded pool)
    (n : Nat) (threadHash : Int) (ts : UInt64) : Sharded (pool.alloc n threadHash ts).1 := by
  rcases alloc_cases pool n threadHash ts with
    ⟨last, taken, draws, _, result⟩ | ⟨last, taken, draws, _, _, result⟩
  · rw [result]
    have final := draws_sharded draws sharded
    exact ⟨final.head, final.next⟩
  · rw [result]
    exact free_pages_sharded (draws_sharded draws sharded) taken

/-- Whatever its hash, `alloc` succeeds exactly when the stacks hold enough
pages; success takes them, failure leaves the number unchanged. -/
theorem alloc_available [NeZero shards] {pool : PagePoolFast pages shards}
    (sharded : Sharded pool) (n : Nat) (threadHash : Int) (ts : UInt64) :
    ((n : ℕ∞) ≤ available pool → (pool.alloc n threadHash ts).2.length = n ∧
      available (pool.alloc n threadHash ts).1 + n = available pool) ∧
    (available pool < n → (pool.alloc n threadHash ts).2 = [] ∧
      available (pool.alloc n threadHash ts).1 = available pool) := by
  rcases alloc_cases pool n threadHash ts with
    ⟨last, taken, draws, full, result⟩ | ⟨last, taken, draws, short, empty, result⟩
  · have total := draws_available draws
    rw [full] at total
    simp only [List.length_nil, Nat.cast_zero, add_zero] at total
    rw [result]
    refine ⟨fun _ => ⟨full, total.symm⟩, fun few => ?_⟩
    exact absurd (total ▸ few) (not_lt.mpr le_add_self)
  · have total := draws_available draws
    rw [available_exhausted empty] at total
    simp only [List.length_nil, Nat.cast_zero, add_zero, zero_add] at total
    have finite : available pool ≠ ⊤ := by
      rw [total]
      exact WithTop.natCast_ne_top _
    rw [result]
    constructor
    · intro enough
      rw [total, Nat.cast_le] at enough
      omega
    · intro _
      rcases sharded_free_lists sharded finite with ⟨free, lists⟩
      rcases draws_drawn draws ⟨lists, List.nodup_nil, by simp⟩ with ⟨left, drawn, _⟩
      rcases push_all_free_lists taken drawn.lists drawn.nodup drawn.apart with
        ⟨_, _, _, restored⟩
      refine ⟨rfl, ?_⟩
      rw [total]
      change available (taken.foldl push last) = _
      rw [restored, available_exhausted empty, zero_add]

/-! ## Well-formed pools -/

/-- The free stacks end, and every page on them has its timestamp cleared. -/
def WellFormed (pool : PagePoolFast pages shards) : Prop :=
  ∃ free, FreeLists pool free ∧ ∀ id, id ∈ free (pool.shard id) → pool.touchUs id = 0

theorem on_free_stack_iff {pool : PagePoolFast pages shards}
    {free : Fin shards → List (Fin pages)} (lists : FreeLists pool free) (id : Fin pages) :
    pool.OnFreeStack id ↔ id ∈ free (pool.shard id) :=
  stacked_mem_iff lists id

theorem on_free_stack_cleared {pool : PagePoolFast pages shards} (formed : WellFormed pool)
    {id : Fin pages} (idle : pool.OnFreeStack id) : pool.touchUs id = 0 := by
  rcases formed with ⟨free, lists, cleared⟩
  exact cleared id ((on_free_stack_iff lists id).mp idle)

theorem touch_all_stamps (ids : List (Fin pages)) (touchUs : Fin pages → UInt64) (ts : UInt64)
    (id : Fin pages) :
    (ids.foldl (fun touchUs id => Function.update touchUs id ts) touchUs) id =
      if id ∈ ids then ts else touchUs id := by
  induction ids generalizing touchUs with
  | nil => simp
  | cons first rest ih =>
      rw [List.foldl_cons, ih]
      by_cases later : id ∈ rest
      · simp [later]
      · by_cases same : id = first
        · simp [same]
        · simp [later, same]

theorem push_all_touch (ids : List (Fin pages)) (pool : PagePoolFast pages shards)
    (id : Fin pages) :
    (ids.foldl push pool).touchUs id = if id ∈ ids then 0 else pool.touchUs id := by
  have stamps : (ids.foldl push pool).touchUs =
      ids.foldl (fun touchUs id => Function.update touchUs id 0) pool.touchUs := by
    induction ids generalizing pool with
    | nil => rfl
    | cons first rest ih =>
        rw [List.foldl_cons, List.foldl_cons, ih]
        rfl
  rw [stamps, touch_all_stamps]

theorem push_all_shard (ids : List (Fin pages)) (pool : PagePoolFast pages shards) :
    (ids.foldl push pool).shard = pool.shard := by
  induction ids generalizing pool with
  | nil => rfl
  | cons first rest ih =>
      rw [List.foldl_cons, ih]
      rfl

theorem free_pages_touch (pool : PagePoolFast pages shards) (ids : List (Fin pages))
    (id : Fin pages) :
    (pool.freePages ids).touchUs id = if id ∈ ids then 0 else pool.touchUs id :=
  push_all_touch ids pool id

theorem free_pages_well_formed {pool : PagePoolFast pages shards} (formed : WellFormed pool)
    {ids : List (Fin pages)} (distinct : ids.Nodup) (held : ∀ id ∈ ids, ¬pool.OnFreeStack id) :
    WellFormed (pool.freePages ids) ∧
      ∀ id, (pool.freePages ids).OnFreeStack id ↔ pool.OnFreeStack id ∨ id ∈ ids := by
  rcases formed with ⟨free, lists, cleared⟩
  have unlisted : ∀ id ∈ ids, id ∉ free (pool.shard id) := by
    intro id member inside
    exact held id member ((on_free_stack_iff lists id).mpr inside)
  rcases push_all_free_lists ids lists distinct unlisted with ⟨refilled, final, members, _⟩
  have shard := push_all_shard ids pool
  constructor
  · refine ⟨refilled, final, ?_⟩
    intro id inside
    change id ∈ refilled ((ids.foldl push pool).shard id) at inside
    rw [shard, members id] at inside
    rw [free_pages_touch]
    by_cases freed : id ∈ ids
    · exact if_pos freed
    · rw [if_neg freed]
      exact cleared id (inside.resolve_right freed)
  · intro id
    have after := on_free_stack_iff final id
    rw [shard, members id, ← on_free_stack_iff lists id] at after
    exact after

structure Granted (pool after : PagePoolFast pages shards) (ids : List (Fin pages))
    (ts : UInt64) : Prop where
  formed : WellFormed after
  distinct : ids.Nodup
  taken : ∀ id, pool.OnFreeStack id ↔ after.OnFreeStack id ∨ id ∈ ids
  apart : ∀ id ∈ ids, ¬after.OnFreeStack id
  touchUs : ∀ id, after.touchUs id = if id ∈ ids then ts else pool.touchUs id

theorem alloc_granted [NeZero shards] {pool : PagePoolFast pages shards}
    (formed : WellFormed pool) (n : Nat) (threadHash : Int) (ts : UInt64) :
    Granted pool (pool.alloc n threadHash ts).1 (pool.alloc n threadHash ts).2 ts := by
  rcases formed with ⟨free, lists, cleared⟩
  have drawnFrom : ∀ {last taken}, Draws ts pool [] last taken →
      ∃ left, Drawn last left taken ∧ DrawsFrame ts pool last taken ∧
        ∀ id, id ∈ free (pool.shard id) ↔ id ∈ left (pool.shard id) ∨ id ∈ taken := by
    intro last taken draws
    rcases draws_frame draws with ⟨new, split, frame⟩
    rw [List.nil_append] at split
    subst split
    rcases draws_drawn draws ⟨lists, List.nodup_nil, by simp⟩ with ⟨left, drawn, conserved⟩
    exact ⟨left, drawn, frame, fun id => by simpa using conserved id⟩
  rcases alloc_cases pool n threadHash ts with
    ⟨last, taken, draws, _, result⟩ | ⟨last, taken, draws, _, _, result⟩
  · rcases drawnFrom draws with ⟨left, drawn, frame, conserved⟩
    have listed : ∀ id, last.OnFreeStack id ↔ id ∈ left (pool.shard id) := by
      intro id
      rw [on_free_stack_iff drawn.lists, frame.shard]
    rw [result]
    refine ⟨⟨left, drawn.lists, ?_⟩, drawn.nodup, ?_, ?_, frame.touchUs⟩
    · intro id inside
      change last.touchUs id = 0
      rw [frame.touchUs id]
      have unheld : id ∉ taken := fun held => drawn.apart id held inside
      rw [if_neg unheld]
      change id ∈ left (last.shard id) at inside
      rw [frame.shard] at inside
      exact cleared id ((conserved id).mpr (Or.inl inside))
    · intro id
      rw [on_free_stack_iff lists, conserved id]
      exact or_congr (listed id).symm Iff.rfl
    · intro id held idle
      exact drawn.apart id held ((on_free_stack_iff drawn.lists id).mp idle)
  · rcases drawnFrom draws with ⟨left, drawn, frame, conserved⟩
    rcases push_all_free_lists taken drawn.lists drawn.nodup drawn.apart with
      ⟨refilled, final, members, _⟩
    have shard : (taken.foldl push last).shard = pool.shard := by
      rw [push_all_shard, frame.shard]
    have restored : ∀ id, (last.freePages taken).touchUs id = pool.touchUs id := by
      intro id
      rw [free_pages_touch, frame.touchUs id]
      by_cases held : id ∈ taken
      · rw [if_pos held]
        exact (cleared id ((conserved id).mpr (Or.inr held))).symm
      · rw [if_neg held, if_neg held]
    have relisted : ∀ id, id ∈ refilled (pool.shard id) ↔ id ∈ free (pool.shard id) := by
      intro id
      have step := members id
      rw [frame.shard] at step
      rw [step, conserved id]
    rw [result]
    refine ⟨⟨refilled, final, ?_⟩, List.nodup_nil, ?_, by simp, by simpa using restored⟩
    · intro id inside
      change id ∈ refilled ((taken.foldl push last).shard id) at inside
      rw [shard, relisted] at inside
      rw [restored]
      exact cleared id inside
    · intro id
      have after := on_free_stack_iff final id
      rw [shard, relisted, ← on_free_stack_iff lists] at after
      simp only [List.not_mem_nil, or_false]
      exact after.symm

theorem touch_stamps (pool : PagePoolFast pages shards) (ids : List (Fin pages)) (ts : UInt64)
    (id : Fin pages) :
    (pool.touch ids ts).touchUs id = if id ∈ ids then ts else pool.touchUs id :=
  touch_all_stamps ids pool.touchUs ts id

theorem touch_well_formed {pool : PagePoolFast pages shards} (formed : WellFormed pool)
    {ids : List (Fin pages)} (held : ∀ id ∈ ids, ¬pool.OnFreeStack id) (ts : UInt64) :
    WellFormed (pool.touch ids ts) := by
  rcases formed with ⟨free, lists, cleared⟩
  refine ⟨free, lists, ?_⟩
  intro id inside
  have untouched : id ∉ ids :=
    fun touched => held id touched ((on_free_stack_iff lists id).mpr inside)
  rw [touch_stamps, if_neg untouched]
  exact cleared id inside

theorem mem_orphans_iff (pool : PagePoolFast pages shards) (ttlMs : Int) (now : UInt64)
    (id : Fin pages) : id ∈ pool.orphans ttlMs now ↔ pool.isStale ttlMs now id = true := by
  simp [orphans, List.mem_finRange]

/-- `leak_scan` needs no discipline of its caller: the pages it frees have a
timestamp, so none is on a stack, and each is collected once. -/
theorem leak_scan_well_formed {pool : PagePoolFast pages shards} (formed : WellFormed pool)
    (ttlMs : Int) (now : UInt64) :
    WellFormed (pool.leakScan ttlMs now).1 ∧ ∀ id, (pool.leakScan ttlMs now).1.OnFreeStack id ↔
      pool.OnFreeStack id ∨ pool.isStale ttlMs now id = true := by
  have held : ∀ id ∈ pool.orphans ttlMs now, ¬pool.OnFreeStack id := by
    intro id collected idle
    have stale := (mem_orphans_iff pool ttlMs now id).mp collected
    simp [isStale, on_free_stack_cleared formed idle] at stale
  rcases free_pages_well_formed formed ((List.nodup_finRange pages).filter _) held with
    ⟨after, listed⟩
  refine ⟨after, fun id => (listed id).trans ?_⟩
  exact or_congr Iff.rfl (mem_orphans_iff pool ttlMs now id)

theorem leak_scan_touch (pool : PagePoolFast pages shards) (ttlMs : Int) (now : UInt64)
    (id : Fin pages) :
    (pool.leakScan ttlMs now).1.touchUs id =
      if pool.isStale ttlMs now id = true then 0 else pool.touchUs id := by
  rw [leakScan, free_pages_touch]
  simp only [mem_orphans_iff]

theorem create_touch [NeZero shards] (id : Fin pages) : (create pages shards).touchUs id = 0 := by
  rw [create, push_all_touch]
  exact ite_self _

theorem create_free_lists [NeZero shards] : ∃ free,
    FreeLists (create pages shards) free ∧
      (∀ id, id ∈ free ((create pages shards).shard id)) ∧
      available (create pages shards) = pages := by
  have lists : FreeLists
      ({ touchUs := fun _ => 0
         shard := fun id => Fin.ofNat shards id.val
         head := fun _ => none
         next := fun _ => none
         allocCnt := 0
         freeCnt := 0 } : PagePoolFast pages shards) (fun _ => []) := ⟨fun _ => rfl, by simp⟩
  obtain ⟨free, final, members, total⟩ :=
    push_all_free_lists (List.finRange pages) lists (List.nodup_finRange pages) (by simp)
  refine ⟨free, final, ?_, ?_⟩
  · intro id
    rw [create, push_all_shard, members id]
    exact Or.inr (List.mem_finRange id)
  · rw [create, total, available_exhausted (fun _ => rfl), zero_add, List.length_finRange]

/-- The freshly constructed pool: every page free, on its shard `i % n_shards`. -/
theorem create_well_formed [NeZero shards] : WellFormed (create pages shards) ∧
    ∀ id, (create pages shards).OnFreeStack id := by
  obtain ⟨free, lists, members, _⟩ := @create_free_lists pages shards _
  exact ⟨⟨free, lists, fun id _ => create_touch id⟩,
    fun id => (on_free_stack_iff lists id).mpr (members id)⟩

theorem create_available [NeZero shards] : available (create pages shards) = pages := by
  obtain ⟨_, _, _, total⟩ := @create_free_lists pages shards _
  exact total

end AmpFormal.PagePoolFastSequential
