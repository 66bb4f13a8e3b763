import AmpFormal.PagePoolNumaModel
import AmpFormal.PagePoolFastRepresentation
import Mathlib.Data.Set.Card

/-!
# The pages of all nodes in one numbering

A global id names one page of one node, so the pools of the nodes compose: in a
history that frees only held ids, each once, the ids held are distinct, and a
page is held or on the free stack of its own node and shard. An allocation is
granted by the first node with enough free pages, and one that no node can grant
leaves every stack with its pages.
-/

namespace AmpFormal.PagePoolNuma

open AmpFormal.LinkedStack AmpFormal.PagePoolFastModel AmpFormal.PagePoolFastModel.PagePoolFast
open AmpFormal.PagePoolFastSequential AmpFormal.PagePoolFastRepresentation
open AmpFormal.PagePoolNumaModel AmpFormal.PagePoolNumaModel.PagePoolNUMA
open AmpFormal.TransitionRuns

set_option autoImplicit false

variable {nodes pagesPerNode : Nat}

/-! ## Global ids -/

theorem element_at_inside {size : Nat} {index : Int} (start : 0 ≤ index) (inside : index < size) :
    ∃ element, elementAt size index = some element := by
  rw [elementAt, dif_pos ⟨start, by omega⟩]
  exact ⟨_, rfl⟩

theorem element_at_cast (size : Nat) (index : Fin size) :
    elementAt size (index.val : Int) = some index := by
  simp [elementAt]

theorem position_lt (node : Fin nodes) (localId : Fin pagesPerNode) :
    node.val * pagesPerNode + localId.val < nodes * pagesPerNode := by
  calc node.val * pagesPerNode + localId.val
      < (node.val + 1) * pagesPerNode := by rw [Nat.add_one_mul]; omega
    _ ≤ nodes * pagesPerNode := Nat.mul_le_mul_right _ node.isLt

section Ids

variable (small : nodes * pagesPerNode < 2 ^ 31) (node : Fin nodes) (localId : Fin pagesPerNode)

include small

theorem pages_per_node_lt (node : Fin nodes) : pagesPerNode < 2 ^ 31 := by
  have := Nat.le_mul_of_pos_left pagesPerNode (Nat.zero_lt_of_lt node.isLt)
  omega

/-- A global id is the position of its page in the pages of all nodes. -/
theorem global_id_to_int :
    (globalId node localId).toInt = ((node.val * pagesPerNode + localId.val : Nat) : Int) := by
  have inside := position_lt node localId
  have nodeSmall : node.val < 2 ^ 31 := by
    have := Nat.le_mul_of_pos_right nodes (Nat.zero_lt_of_lt localId.isLt)
    omega
  have product : ((node.val : Int) * pagesPerNode).bmod (2 ^ 32) = node.val * pagesPerNode := by
    rw [← Nat.cast_mul]
    apply Int.bmod_eq_of_le <;> omega
  rw [globalId, Int32.toInt_add, Int32.toInt_mul, Int32.toInt_ofNat_of_lt nodeSmall,
    Int32.toInt_ofNat_of_lt (pages_per_node_lt small node),
    Int32.toInt_ofNat_of_lt (by omega : localId.val < 2 ^ 31), product, ← Nat.cast_mul,
    ← Nat.cast_add]
  apply Int.bmod_eq_of_le <;> omega

theorem split_global_id :
    (split pagesPerNode (globalId node localId)).1.toInt = node.val ∧
      (split pagesPerNode (globalId node localId)).2.toInt = localId.val := by
  have divisor := Int32.toInt_ofNat_of_lt (pages_per_node_lt small node)
  have notMinusOne : Int32.ofNat pagesPerNode ≠ -1 := by
    intro same
    rw [same] at divisor
    have minus : (-1 : Int32).toInt = -1 := rfl
    omega
  have value := global_id_to_int small node localId
  rw [Nat.add_comm] at value
  constructor
  · rw [split, Int32.toInt_div_of_ne_right _ _ notMinusOne, divisor, value, ← Int.ofNat_tdiv,
      Nat.add_mul_div_right _ _ (Nat.zero_lt_of_lt localId.isLt),
      Nat.div_eq_of_lt localId.isLt, Nat.zero_add]
  · rw [split, Int32.toInt_mod, divisor, value, ← Int.ofNat_tmod, Nat.add_mul_mod_self_right,
      Nat.mod_eq_of_lt localId.isLt]

omit small in
theorem global_id_injective (small : nodes * pagesPerNode < 2 ^ 31) {node other : Fin nodes}
    {localId localOther : Fin pagesPerNode}
    (same : globalId node localId = globalId other localOther) :
    node = other ∧ localId = localOther := by
  obtain ⟨first, second⟩ := split_global_id small node localId
  obtain ⟨firstOther, secondOther⟩ := split_global_id small other localOther
  rw [same] at first second
  exact ⟨Fin.ext (by omega), Fin.ext (by omega)⟩

omit small in
theorem global_id_mem_iff (small : nodes * pagesPerNode < 2 ^ 31) {node : Fin nodes}
    {localId : Fin pagesPerNode} {pages : List (Fin nodes × Fin pagesPerNode)} :
    globalId node localId ∈ (pages.map fun page => globalId page.1 page.2) ↔
      (node, localId) ∈ pages := by
  rw [List.mem_map]
  constructor
  · rintro ⟨page, member, same⟩
    obtain ⟨rfl, rfl⟩ := global_id_injective small same
    exact member
  · intro member
    exact ⟨(node, localId), member, rfl⟩

theorem add_to_global_id (per : Fin nodes → List (Fin pagesPerNode)) :
    addTo per (globalId node localId) =
      some (Function.update per node (per node ++ [localId])) := by
  obtain ⟨first, second⟩ := split_global_id small node localId
  simp only [addTo, first, second, element_at_cast]
  rfl

/-- `free_pages` hands each node its own pages, in the order given. -/
theorem sorted_by_node (pages : List (Fin nodes × Fin pagesPerNode))
    (per : Fin nodes → List (Fin pagesPerNode)) :
    (pages.map fun page => globalId page.1 page.2).foldlM addTo per =
      some fun node => per node ++ (pages.filter (·.1 = node)).map (·.2) := by
  induction pages generalizing per with
  | nil => simp
  | cons page rest ih =>
      rw [List.map_cons, List.foldlM_cons, add_to_global_id small]
      change List.foldlM addTo _ _ = _
      rw [ih]
      congr 1
      funext other
      by_cases same : page.1 = other
      · subst same
        simp
      · have unlike : other ≠ page.1 := fun equal => same equal.symm
        simp [same, Function.update_of_ne unlike]

end Ids

/-! ## One node -/

section Nodes

variable {pages shards : Nat} [NeZero shards] {pool : PagePoolFast pages shards}

def idlePages (pool : PagePoolFast pages shards) : Set (Fin pages) := {id | pool.OnFreeStack id}

/-- A pool whose stacks are lists, with every page in its own shard. -/
structure Sound (pool : PagePoolFast pages shards) : Prop where
  sharded : Sharded pool
  formed : WellFormed pool
  home : ∀ id, pool.shard id = Fin.ofNat shards id.val

theorem create_sound : Sound (PagePoolFast.create pages shards) :=
  ⟨create_sharded, create_well_formed.1, create_represented.home⟩

theorem alloc_sound (sound : Sound pool) (n : Nat) (threadHash : Int) (ts : UInt64) :
    Sound (pool.alloc n threadHash ts).1 := by
  refine ⟨alloc_sharded sound.sharded n threadHash ts,
    (alloc_granted sound.formed n threadHash ts).formed, fun id => ?_⟩
  rw [alloc_shard]
  exact sound.home id

theorem free_sound (sound : Sound pool) {ids : List (Fin pages)} (distinct : ids.Nodup)
    (held : ∀ id ∈ ids, ¬pool.OnFreeStack id) : Sound (pool.freePages ids) := by
  refine ⟨free_pages_sharded sound.sharded ids,
    (free_pages_well_formed sound.formed distinct held).1, fun id => ?_⟩
  change (ids.foldl push pool).shard id = _
  rw [push_all_shard]
  exact sound.home id

omit [NeZero shards] in
theorem idle_at_least {ids : List (Fin pages)} (distinct : ids.Nodup)
    (free : ∀ id ∈ ids, pool.OnFreeStack id) : ids.length ≤ (idlePages pool).ncard := by
  rw [← List.toFinset_card_of_nodup distinct, ← Set.ncard_coe_finset]
  apply Set.ncard_le_ncard _ (Set.toFinite _)
  intro id member
  exact free id (by simpa using member)

/-- In a sound pool a page is only ever on the stack of its shard. -/
theorem sound_reachable (sound : Sound pool) (shard : Fin shards) (id : Fin pages) :
    Reachable pool.next (pool.head shard) id ↔
      shard = Fin.ofNat shards id.val ∧ pool.OnFreeStack id := by
  rw [reachable_iff sound.formed, sound.home id]
  exact and_congr_left' eq_comm

theorem sound_available (sound : Sound pool) : available pool = ((idlePages pool).ncard : Nat) := by
  classical
  obtain ⟨free, lists, -⟩ := sound.formed
  rw [available_eq_count lists (fun id => decide (id ∈ free (pool.shard id))) (by simp)]
  have listed : idlePages pool =
      ((List.finRange pages).filter fun id => decide (id ∈ free (pool.shard id))).toFinset := by
    ext id
    simp [idlePages, on_free_stack_iff lists id]
  rw [listed, Set.ncard_coe_finset,
    List.toFinset_card_of_nodup ((List.nodup_finRange pages).filter _), List.countP_eq_length_filter]

theorem alloc_enough (sound : Sound pool) {n : Nat} (enough : n ≤ (idlePages pool).ncard)
    (threadHash : Int) (ts : UInt64) : (pool.alloc n threadHash ts).2.length = n := by
  have succeeds := (alloc_available sound.sharded n threadHash ts).1
  rw [sound_available sound, Nat.cast_le] at succeeds
  exact (succeeds enough).1

theorem alloc_few (sound : Sound pool) {n : Nat} (few : (idlePages pool).ncard < n)
    (threadHash : Int) (ts : UInt64) : (pool.alloc n threadHash ts).2 = [] ∧
      ∀ id, (pool.alloc n threadHash ts).1.OnFreeStack id ↔ pool.OnFreeStack id := by
  have fails := (alloc_available sound.sharded n threadHash ts).2
  rw [sound_available sound, Nat.cast_lt] at fails
  have returned := (fails few).1
  refine ⟨returned, fun id => ?_⟩
  have taken := (alloc_granted sound.formed n threadHash ts).taken id
  rw [returned] at taken
  simpa using taken.symm

end Nodes

/-! ## All nodes -/

/-- What an allocation from the nodes `tried` does: it takes `n` pages of one node,
or no node tried has so many and every node keeps its free pages. -/
inductive Outcome (n : Nat) (tried : Fin nodes → Prop) (pool : PagePoolNUMA nodes pagesPerNode)
    (result : PagePoolNUMA nodes pagesPerNode × List Int32) : Prop where
  | granted (node : Fin nodes) (ids : List (Fin pagesPerNode))
      (named : result.2 = ids.map (globalId node)) (full : ids.length = n) (distinct : ids.Nodup)
      (taken : ∀ other id, (pool.perNode other).OnFreeStack id ↔
        (result.1.perNode other).OnFreeStack id ∨ (other = node ∧ id ∈ ids))
      (apart : ∀ id ∈ ids, ¬(result.1.perNode node).OnFreeStack id)
  | refused (few : ∀ node, tried node → (idlePages (pool.perNode node)).ncard < n)
      (empty : result.2 = [])
      (kept : ∀ node id, (result.1.perNode node).OnFreeStack id ↔
        (pool.perNode node).OnFreeStack id)

section Allocation

variable {pool : PagePoolNUMA nodes pagesPerNode} {n : Nat}

def AllSound (pool : PagePoolNUMA nodes pagesPerNode) : Prop := ∀ node, Sound (pool.perNode node)

theorem alloc_on_sound (sound : AllSound pool) (tid : Int) (ts : UInt64) (node : Fin nodes) :
    AllSound (pool.allocOn n tid ts node).1 := by
  intro other
  by_cases same : other = node
  · subst same
    simpa [allocOn] using alloc_sound (sound other) n tid ts
  · simpa [allocOn, Function.update_of_ne same] using sound other

theorem alloc_on_outcome (sound : AllSound pool) (tid : Int) (ts : UInt64) (node : Fin nodes) :
    Outcome n (· = node) pool (pool.allocOn n tid ts node) := by
  have here : (pool.allocOn n tid ts node).1.perNode node =
      ((pool.perNode node).alloc n tid ts).1 := by
    simp [allocOn]
  have elsewhere : ∀ other, other ≠ node →
      (pool.allocOn n tid ts node).1.perNode other = pool.perNode other := by
    intro other unlike
    simp [allocOn, Function.update_of_ne unlike]
  have granted := alloc_granted (sound node).formed n tid ts
  by_cases enough : n ≤ (idlePages (pool.perNode node)).ncard
  · refine .granted node ((pool.perNode node).alloc n tid ts).2 rfl
      (alloc_enough (sound node) enough tid ts) granted.distinct (fun other id => ?_) ?_
    · by_cases same : other = node
      · subst same
        rw [here, granted.taken id]
        simp
      · rw [elsewhere other same]
        simp [same]
    · rw [here]
      exact granted.apart
  · obtain ⟨returned, kept⟩ := alloc_few (sound node) (Nat.not_le.mp enough) tid ts
    refine .refused (fun other same => ?_) ?_ fun other id => ?_
    · rw [same]
      exact Nat.not_le.mp enough
    · rw [allocOn, returned, List.map_nil]
    · by_cases same : other = node
      · subst same
        rw [here]
        exact kept id
      · rw [elsewhere other same]

theorem try_next {tried others : Fin nodes → Prop}
    {first rest : PagePoolNUMA nodes pagesPerNode × List Int32} (positive : 1 ≤ n)
    (attempt : Outcome n tried pool first) (next : Outcome n others first.1 rest) :
    Outcome n (fun node => tried node ∨ others node) pool
      (if first.2.isEmpty then rest else first) := by
  cases attempt with
  | granted node ids named full distinct taken apart =>
      have returned : first.2.isEmpty = false := by
        rw [named, List.isEmpty_eq_false_iff_exists_mem]
        obtain ⟨id, member⟩ := List.exists_mem_of_length_pos (full ▸ positive : 0 < ids.length)
        exact ⟨_, List.mem_map_of_mem member⟩
      rw [returned]
      exact .granted node ids named full distinct taken apart
  | refused few empty kept =>
      rw [empty]
      have same : ∀ node, idlePages (first.1.perNode node) = idlePages (pool.perNode node) :=
        fun node => Set.ext fun id => kept node id
      cases next with
      | granted node ids named full distinct taken apart =>
          refine .granted node ids named full distinct (fun other id => ?_) apart
          rw [← kept other id]
          exact taken other id
      | refused fewOthers emptyRest keptRest =>
          refine .refused (fun node either => ?_) emptyRest
            fun node id => (keptRest node id).trans (kept node id)
          rcases either with here | there
          · exact few node here
          · rw [← same node]
            exact fewOthers node there

theorem fallback_outcome (positive : 1 ≤ n) (tid : Int) (now : Fin nodes → UInt64)
    (node : Fin nodes) (alts : List (Fin nodes)) (sound : AllSound pool) :
    AllSound (fallback n tid now node alts pool).1 ∧
      Outcome n (fun alt => alt ∈ alts ∧ alt ≠ node) pool (fallback n tid now node alts pool) := by
  induction alts generalizing pool with
  | nil => exact ⟨sound, .refused (fun _ tried => absurd tried.1 List.not_mem_nil) rfl fun _ _ => Iff.rfl⟩
  | cons alt rest ih =>
      by_cases skipped : alt = node
      · rw [fallback, if_pos skipped]
        have tried : (fun other => other ∈ alt :: rest ∧ other ≠ node) =
            fun other => other ∈ rest ∧ other ≠ node := by
          funext other
          simp only [List.mem_cons, skipped, eq_iff_iff]
          tauto
        rw [tried]
        exact ih sound
      · have attempt := alloc_on_outcome (n := n) sound tid (now alt) alt
        obtain ⟨soundRest, next⟩ := ih (alloc_on_sound (n := n) sound tid (now alt) alt)
        have tried : (fun other => other ∈ alt :: rest ∧ other ≠ node) =
            fun other => other = alt ∨ other ∈ rest ∧ other ≠ node := by
          funext other
          simp only [List.mem_cons, eq_iff_iff]
          constructor
          · rintro ⟨rfl | member, unlike⟩
            · exact Or.inl rfl
            · exact Or.inr ⟨member, unlike⟩
          · rintro (rfl | ⟨member, unlike⟩)
            · exact ⟨Or.inl rfl, skipped⟩
            · exact ⟨Or.inr member, unlike⟩
        rw [fallback, if_neg skipped, tried]
        refine ⟨?_, try_next positive attempt next⟩
        dsimp only
        split
        · exact soundRest
        · exact alloc_on_sound sound tid (now alt) alt

theorem first_node_exists (someNode : 1 ≤ nodes) (currentNode : Int) {tid : Int}
    (nonnegative : 0 ≤ tid) : ∃ node, firstNode nodes currentNode tid = some node := by
  have remainder := Int.tmod_lt_of_pos tid (by omega : (0 : Int) < nodes)
  have start := Int.tmod_nonneg (nodes : Int) nonnegative
  rw [firstNode]
  split
  · exact element_at_inside start remainder
  · exact element_at_inside (by omega) (by omega)

theorem alloc_outcome (someNode : 1 ≤ nodes) (sound : AllSound pool) (positive : 1 ≤ n)
    (currentNode : Int) {tid : Int} (nonnegative : 0 ≤ tid) (now : Fin nodes → UInt64) :
    ∃ result, pool.alloc n tid currentNode now = some result ∧ AllSound result.1 ∧
      Outcome n (fun _ => True) pool result := by
  obtain ⟨node, first⟩ := first_node_exists someNode currentNode nonnegative
  have attempt := alloc_on_outcome (n := n) sound tid (now node) node
  obtain ⟨soundRest, next⟩ := fallback_outcome positive tid now node (List.finRange nodes)
    (alloc_on_sound (n := n) sound tid (now node) node)
  refine ⟨_, by rw [PagePoolNUMA.alloc, first, Option.map_some], ?_, ?_⟩
  · dsimp only
    split
    · exact soundRest
    · exact alloc_on_sound sound tid (now node) node
  · have either := try_next positive attempt next
    have all : (fun other => other = node ∨ other ∈ List.finRange nodes ∧ other ≠ node) =
        fun _ => True := by
      funext other
      simp only [List.mem_finRange, true_and, eq_iff_iff, iff_true]
      exact Classical.em _
    rwa [all] at either

theorem outcome_full_iff (positive : 1 ≤ n) {result : PagePoolNUMA nodes pagesPerNode × List Int32}
    (outcome : Outcome n (fun _ => True) pool result) :
    (result.2.length = n ∧ ∃ node : Fin nodes, ∀ gid ∈ result.2, ∃ id : Fin pagesPerNode,
        gid = globalId node id ∧ (pool.perNode node).OnFreeStack id) ↔
      ∃ node, n ≤ (idlePages (pool.perNode node)).ncard := by
  cases outcome with
  | granted node ids named full distinct taken apart =>
      have free : ∀ id ∈ ids, (pool.perNode node).OnFreeStack id :=
        fun id member => (taken node id).mpr (Or.inr ⟨rfl, member⟩)
      have enough := idle_at_least distinct free
      rw [full] at enough
      refine ⟨fun _ => ⟨node, enough⟩, fun _ => ⟨by rw [named, List.length_map, full], node, ?_⟩⟩
      intro gid member
      rw [named] at member
      obtain ⟨id, inside, rfl⟩ := List.mem_map.mp member
      exact ⟨id, rfl, free id inside⟩
  | refused few empty kept =>
      constructor
      · intro given
        have length := given.1
        rw [empty, List.length_nil] at length
        omega
      · rintro ⟨node, enough⟩
        exact absurd (few node trivial) (Nat.not_lt.mpr enough)

theorem outcome_refused {result : PagePoolNUMA nodes pagesPerNode × List Int32}
    (before : AllSound pool) (after : AllSound result.1)
    (outcome : Outcome n (fun _ => True) pool result)
    (none : ¬∃ node, n ≤ (idlePages (pool.perNode node)).ncard) :
    result.2 = [] ∧ ∀ node shard id,
      Reachable (result.1.perNode node).next ((result.1.perNode node).head shard) id ↔
        Reachable (pool.perNode node).next ((pool.perNode node).head shard) id := by
  cases outcome with
  | granted node ids named full distinct taken apart =>
      have enough := idle_at_least distinct fun id member =>
        (taken node id).mpr (Or.inr ⟨rfl, member⟩)
      rw [full] at enough
      exact absurd ⟨node, enough⟩ none
  | refused few empty kept =>
      refine ⟨empty, fun node shard id => ?_⟩
      rw [sound_reachable (after node), sound_reachable (before node)]
      exact and_congr_right' (kept node id)

end Allocation

theorem free_pages_outcome (small : nodes * pagesPerNode < 2 ^ 31)
    {pool : PagePoolNUMA nodes pagesPerNode} (sound : AllSound pool)
    {pages : List (Fin nodes × Fin pagesPerNode)} (distinct : pages.Nodup)
    (held : ∀ page ∈ pages, ¬(pool.perNode page.1).OnFreeStack page.2) :
    ∃ after, pool.freePages (pages.map fun page => globalId page.1 page.2) = some after ∧
      AllSound after ∧ ∀ node id, (after.perNode node).OnFreeStack id ↔
        (pool.perNode node).OnFreeStack id ∨ (node, id) ∈ pages := by
  let per := fun node => (pages.filter (·.1 = node)).map (·.2)
  have member : ∀ node id, id ∈ per node ↔ (node, id) ∈ pages := by
    intro node id
    simp [per]
  have once : ∀ node, (per node).Nodup := by
    intro node
    refine (distinct.filter _).map_on ?_
    intro page inside other insideOther same
    have first := of_decide_eq_true (List.mem_filter.mp inside).2
    have second := of_decide_eq_true (List.mem_filter.mp insideOther).2
    exact Prod.ext (first.trans second.symm) same
  have owned : ∀ node, ∀ id ∈ per node, ¬(pool.perNode node).OnFreeStack id :=
    fun node id inside => held (node, id) ((member node id).mp inside)
  have sorted : (pages.map fun page => globalId page.1 page.2).foldlM addTo (fun _ => []) =
      some per := by
    rw [sorted_by_node small]
    rfl
  refine ⟨_, by rw [PagePoolNUMA.freePages, sorted]; rfl, fun node => ?_, fun node id => ?_⟩
  · dsimp only
    split
    · exact sound node
    · exact free_sound (sound node) (once node) (owned node)
  · rw [← member node id]
    dsimp only
    split
    · rename_i nothing
      simp [List.isEmpty_iff.mp nothing]
    · exact (free_pages_well_formed (sound node).formed (once node) (owned node)).2 id

/-! ## Histories -/

inductive Call (nodes : Nat) where
  | alloc (n : Nat) (tid currentNode : Int) (now : Fin nodes → UInt64)
  | freePages (gids : List Int32)

/-- A pool and the global ids its callers hold. -/
structure Pool (nodes pagesPerNode : Nat) where
  numa : PagePoolNUMA nodes pagesPerNode
  held : List Int32

namespace Pool

def create (nodes pagesPerNode : Nat) : Pool nodes pagesPerNode where
  numa := PagePoolNUMA.create nodes pagesPerNode
  held := []

def step (s : Pool nodes pagesPerNode) : Call nodes → Option (Pool nodes pagesPerNode)
  | .alloc n tid currentNode now =>
      (s.numa.alloc n tid currentNode now).map fun result =>
        { numa := result.1, held := s.held ++ result.2 }
  | .freePages gids =>
      (s.numa.freePages gids).map fun after => { numa := after, held := s.held.diff gids }

/-- Callers ask for at least one page, and free ids that they hold, each as often as
they hold it. -/
def Disciplined (s : Pool nodes pagesPerNode) : Call nodes → Prop
  | .alloc n tid _ _ => 1 ≤ n ∧ 0 ≤ tid
  | .freePages gids => gids.Subperm s.held

end Pool

/-- The ids held name the pages that are on no stack, each once. -/
structure Composed (s : Pool nodes pagesPerNode) : Prop where
  sound : AllSound s.numa
  distinct : s.held.Nodup
  named : ∀ gid ∈ s.held, ∃ (node : Fin nodes) (id : Fin pagesPerNode), globalId node id = gid
  owned : ∀ node id, globalId node id ∈ s.held ↔ ¬(s.numa.perNode node).OnFreeStack id

section Histories

variable {s : Pool nodes pagesPerNode}

theorem create_composed : Composed (Pool.create nodes pagesPerNode) where
  sound := fun _ => create_sound
  distinct := List.nodup_nil
  named := by simp [Pool.create]
  owned := fun _ id => by
    simpa [Pool.create, PagePoolNUMA.create] using create_well_formed.2 id

theorem held_pages (composed : Composed s) {gids : List Int32} (freed : gids.Subperm s.held) :
    ∃ pages : List (Fin nodes × Fin pagesPerNode),
      (pages.map fun page => globalId page.1 page.2) = gids ∧ pages.Nodup ∧
        ∀ page ∈ pages, ¬(s.numa.perNode page.1).OnFreeStack page.2 := by
  have named : gids ∈ Set.range
      (List.map fun page : Fin nodes × Fin pagesPerNode => globalId page.1 page.2) := by
    rw [Set.range_list_map]
    intro gid member
    obtain ⟨node, id, same⟩ := composed.named gid (freed.subset member)
    exact ⟨(node, id), same⟩
  obtain ⟨pages, rfl⟩ := named
  refine ⟨pages, rfl, ?_, fun page member => ?_⟩
  · obtain ⟨others, permuted, sublist⟩ := freed
    exact (permuted.nodup (composed.distinct.sublist sublist)).of_map
  · have held := freed.subset (List.mem_map.mpr ⟨page, member, rfl⟩)
    exact (composed.owned page.1 page.2).mp held

theorem alloc_composed (small : nodes * pagesPerNode < 2 ^ 31) (composed : Composed s)
    {n : Nat} {tried : Fin nodes → Prop} {result : PagePoolNUMA nodes pagesPerNode × List Int32}
    (sound : AllSound result.1) (outcome : Outcome n tried s.numa result) :
    Composed ({ numa := result.1, held := s.held ++ result.2 } : Pool nodes pagesPerNode) := by
  cases outcome with
  | granted node ids given full distinct taken apart =>
      have fresh : ∀ id ∈ ids, globalId node id ∉ s.held := by
        intro id member held
        exact (composed.owned node id).mp held ((taken node id).mpr (Or.inr ⟨rfl, member⟩))
      refine ⟨sound, ?_, ?_, fun other id => ?_⟩
      · rw [given]
        refine composed.distinct.append (distinct.map ?_) ?_
        · intro one another same
          exact (global_id_injective small same).2
        · intro gid held added
          obtain ⟨id, member, rfl⟩ := List.mem_map.mp added
          exact fresh id member held
      · intro gid member
        rcases List.mem_append.mp member with old | new
        · exact composed.named gid old
        · rw [given] at new
          obtain ⟨id, -, same⟩ := List.mem_map.mp new
          exact ⟨node, id, same⟩
      · have added : globalId other id ∈ result.2 ↔ other = node ∧ id ∈ ids := by
          rw [given, List.mem_map]
          constructor
          · rintro ⟨found, member, same⟩
            obtain ⟨rfl, rfl⟩ := global_id_injective small same
            exact ⟨rfl, member⟩
          · rintro ⟨rfl, member⟩
            exact ⟨id, member, rfl⟩
        rw [List.mem_append, composed.owned other id, added, taken other id]
        have gone : other = node ∧ id ∈ ids → ¬(result.1.perNode other).OnFreeStack id := by
          rintro ⟨rfl, member⟩
          exact apart id member
        tauto
  | refused few empty kept =>
      rw [empty, List.append_nil]
      refine ⟨sound, composed.distinct, composed.named, fun node id => ?_⟩
      rw [kept node id]
      exact composed.owned node id

theorem free_composed (small : nodes * pagesPerNode < 2 ^ 31) (composed : Composed s)
    {pages : List (Fin nodes × Fin pagesPerNode)} {after : PagePoolNUMA nodes pagesPerNode}
    (sound : AllSound after)
    (listed : ∀ node id, (after.perNode node).OnFreeStack id ↔
      (s.numa.perNode node).OnFreeStack id ∨ (node, id) ∈ pages) :
    Composed ({ numa := after,
                held := s.held.diff (pages.map fun page => globalId page.1 page.2) } :
      Pool nodes pagesPerNode) := by
  refine ⟨sound, composed.distinct.diff, fun gid member => ?_, fun node id => ?_⟩
  · exact composed.named gid (composed.distinct.mem_sdiff_iff.mp member).1
  · have freed : globalId node id ∈ (pages.map fun page => globalId page.1 page.2) ↔
        (node, id) ∈ pages := by
      rw [List.mem_map]
      constructor
      · rintro ⟨page, member, same⟩
        obtain ⟨rfl, rfl⟩ := global_id_injective small same
        exact member
      · intro member
        exact ⟨(node, id), member, rfl⟩
    rw [composed.distinct.mem_sdiff_iff, composed.owned node id, freed, listed node id, not_or]

theorem reached_composed (someNode : 1 ≤ nodes) (small : nodes * pagesPerNode < 2 ^ 31)
    (reached : Reaches Pool.step Pool.Disciplined (Pool.create nodes pagesPerNode) s) :
    Composed s := by
  refine reaches_invariant create_composed ?_ reached
  intro before call after _ composed disciplined moved
  cases call with
  | alloc n tid currentNode now =>
      obtain ⟨result, returned, sound, outcome⟩ :=
        alloc_outcome someNode composed.sound disciplined.1 currentNode disciplined.2 now
      rw [Pool.step, returned] at moved
      obtain rfl := Option.some.inj moved
      exact alloc_composed small composed sound outcome
  | freePages gids =>
      obtain ⟨pages, rfl, distinct, held⟩ := held_pages composed disciplined
      obtain ⟨final, returned, sound, listed⟩ :=
        free_pages_outcome small composed.sound distinct held
      rw [Pool.step, returned] at moved
      obtain rfl := Option.some.inj moved
      exact free_composed small composed sound listed

/-- After every disciplined history of a pool of at least one node: the ids held are
distinct and in range; an allocation has a result, which is `n` pages of one node
exactly when some node has `n` free pages, and else is empty, with every stack as
before; a free has a result, in which each page is back on the stack of the node and
the shard it was on before it was allocated. -/
theorem page_pool_numa_composition (someNode : 1 ≤ nodes)
    (small : nodes * pagesPerNode < 2 ^ 31)
    (reached : Reaches Pool.step Pool.Disciplined (Pool.create nodes pagesPerNode) s) :
    (s.held.Nodup ∧ ∀ gid ∈ s.held, 0 ≤ gid.toInt ∧ gid.toInt < nodes * pagesPerNode) ∧
    (∀ node shard id, Reachable (s.numa.perNode node).next ((s.numa.perNode node).head shard) id →
      shard = Fin.ofNat 16 id.val) ∧
    (∀ n tid currentNode now, 1 ≤ n → 0 ≤ tid → ∃ after gids,
      s.numa.alloc n tid currentNode now = some (after, gids) ∧
        ((gids.length = n ∧ ∃ node : Fin nodes, ∀ gid ∈ gids, ∃ id : Fin pagesPerNode,
            gid = globalId node id ∧ (s.numa.perNode node).OnFreeStack id) ↔
          ∃ node, n ≤ (idlePages (s.numa.perNode node)).ncard) ∧
        ((¬∃ node, n ≤ (idlePages (s.numa.perNode node)).ncard) →
          gids = [] ∧ ∀ node shard id,
            Reachable (after.perNode node).next ((after.perNode node).head shard) id ↔
              Reachable (s.numa.perNode node).next ((s.numa.perNode node).head shard) id)) ∧
    ∀ gids : List Int32, gids.Subperm s.held → ∃ after, s.numa.freePages gids = some after ∧
      ∀ node shard id, Reachable (after.perNode node).next ((after.perNode node).head shard) id ↔
        Reachable (s.numa.perNode node).next ((s.numa.perNode node).head shard) id ∨
          (globalId node id ∈ gids ∧ shard = Fin.ofNat 16 id.val) := by
  have composed := reached_composed someNode small reached
  refine ⟨⟨composed.distinct, fun gid member => ?_⟩, fun node shard id listed => ?_,
    fun n tid currentNode now positive nonnegative => ?_, fun gids freed => ?_⟩
  · obtain ⟨node, id, rfl⟩ := composed.named gid member
    have inside := position_lt node id
    rw [global_id_to_int small]
    exact ⟨Int.natCast_nonneg _, by exact_mod_cast inside⟩
  · exact ((sound_reachable (composed.sound node) shard id).mp listed).1
  · obtain ⟨⟨after, gids⟩, returned, sound, outcome⟩ :=
      alloc_outcome someNode composed.sound positive currentNode nonnegative now
    exact ⟨after, gids, returned, outcome_full_iff positive outcome,
      outcome_refused composed.sound sound outcome⟩
  · obtain ⟨pages, rfl, distinct, held⟩ := held_pages composed freed
    obtain ⟨after, returned, sound, listed⟩ :=
      free_pages_outcome small composed.sound distinct held
    refine ⟨after, returned, fun node shard id => ?_⟩
    rw [sound_reachable (sound node), sound_reachable (composed.sound node), listed node id,
      global_id_mem_iff small]
    tauto

end Histories

instance disciplinedDecidable (s : Pool nodes pagesPerNode) :
    ∀ call, Decidable (s.Disciplined call)
  | .alloc n tid _ _ => inferInstanceAs (Decidable (1 ≤ n ∧ 0 ≤ tid))
  | .freePages gids => inferInstanceAs (Decidable (gids.Subperm s.held))

/-- An allocation on the reported node, one that falls back, one for an unknown node, a free
that mixes nodes and one that no node can grant. -/
def mixedCalls : List (Call 2) :=
  [.alloc 2 0 1 fun _ => 5, .alloc 2 0 1 fun _ => 6, .alloc 1 3 (-1) fun _ => 7,
    .freePages [4, 0], .alloc 3 0 0 fun _ => 8]

theorem page_pool_numa_composition_mixed :
    ((runCalls Pool.step Pool.Disciplined (Pool.create 2 3) mixedCalls).get
      (by decide +kernel)).held.Nodup :=
  (page_pool_numa_composition (by decide) (by decide)
    (reaches_of_run_get mixedCalls (by decide +kernel))).1.1

end AmpFormal.PagePoolNuma
