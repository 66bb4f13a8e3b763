import Mathlib.Data.List.Nodup
import Mathlib.Data.ENat.Basic
import Mathlib.Logic.Function.Basic
import Mathlib.Data.ENat.Lattice

/-!
# Intrusive linked stacks

A stack is a head cell and one `next` link per node; nodes are popped and
pushed by rewriting the head and the link of the node itself. `Path` says which
nodes are met between two cells, `Chain` that the links end. `Stacked` gathers
several stacks over one array of links, every node having a fixed home stack.
-/

namespace AmpFormal.LinkedStack

set_option autoImplicit false

variable {Node Shard : Type*}

/-- Following the links from the cell `first` meets exactly the listed nodes
and arrives at the cell `last`. -/
def Path (next : Node → Option Node) : Option Node → List Node → Option Node → Prop
  | first, [], last => first = last
  | first, node :: rest, last => first = some node ∧ Path next (next node) rest last

/-- The links from `first` meet exactly the listed nodes and then end. -/
def Chain (next : Node → Option Node) (first : Option Node) (nodes : List Node) : Prop :=
  Path next first nodes none

/-- The nodes reachable from a head cell through the links. -/
inductive Reachable (next : Node → Option Node) (head : Option Node) : Node → Prop where
  | top {node : Node} (at_head : head = some node) : Reachable next head node
  | link {node successor : Node} (prior : Reachable next head node)
      (linked : next node = some successor) : Reachable next head successor

variable {next : Node → Option Node}

theorem chain_empty_iff (first : Option Node) : Chain next first [] ↔ first = none := Iff.rfl

theorem chain_none {nodes : List Node} (chain : Chain next none nodes) : nodes = [] := by
  cases nodes with
  | nil => rfl
  | cons node rest => exact absurd chain.1 (by simp)

theorem chain_some {top : Node} {nodes : List Node} (chain : Chain next (some top) nodes) :
    ∃ rest, nodes = top :: rest ∧ Chain next (next top) rest := by
  cases nodes with
  | nil => exact absurd chain (by simp [chain_empty_iff])
  | cons node rest =>
      obtain ⟨same, tail⟩ := chain
      cases same
      exact ⟨rest, rfl, tail⟩

theorem chain_unique {first : Option Node} {left right : List Node}
    (leftChain : Chain next first left) (rightChain : Chain next first right) :
    left = right := by
  induction left generalizing first right with
  | nil =>
      cases leftChain
      exact (chain_none rightChain).symm
  | cons node rest ih =>
      obtain ⟨same, tail⟩ := leftChain
      subst same
      obtain ⟨others, rfl, otherTail⟩ := chain_some rightChain
      rw [ih tail otherTail]

/-- Every suffix of a chain is the chain of the cell it starts at, so two
occurrences of one node would give one cell chains of different lengths. -/
theorem chain_from_member {first : Option Node} {nodes : List Node} {node : Node}
    (chain : Chain next first nodes) (member : node ∈ nodes) :
    ∃ before after, nodes = before ++ node :: after ∧ Chain next (some node) (node :: after) := by
  induction nodes generalizing first with
  | nil => simp at member
  | cons top rest ih =>
      obtain ⟨same, tail⟩ := chain
      rcases List.mem_cons.mp member with rfl | later
      · exact ⟨[], rest, rfl, rfl, tail⟩
      · obtain ⟨before, after, split, suffix⟩ := ih tail later
        exact ⟨top :: before, after, by simp [split], suffix⟩

theorem chain_nodup {first : Option Node} {nodes : List Node} (chain : Chain next first nodes) :
    nodes.Nodup := by
  induction nodes generalizing first with
  | nil => exact List.nodup_nil
  | cons node rest ih =>
      obtain ⟨same, tail⟩ := chain
      refine List.nodup_cons.mpr ⟨fun repeated => ?_, ih tail⟩
      obtain ⟨before, after, split, suffix⟩ := chain_from_member tail repeated
      have lengths := congrArg List.length (chain_unique suffix.2 tail)
      have sizes := congrArg List.length split
      simp only [List.length_append, List.length_cons] at sizes
      omega

theorem chain_frame {changed : Node → Option Node} {first : Option Node} {nodes : List Node}
    (same : ∀ node ∈ nodes, changed node = next node) (chain : Chain next first nodes) :
    Chain changed first nodes := by
  induction nodes generalizing first with
  | nil => exact chain
  | cons node rest ih =>
      refine ⟨chain.1, ?_⟩
      rw [same node (by simp)]
      exact ih (fun other member => same other (by simp [member])) chain.2

theorem chain_reachable_iff {head : Option Node} {nodes : List Node}
    (chain : Chain next head nodes) (node : Node) :
    Reachable next head node ↔ node ∈ nodes := by
  constructor
  · intro reached
    induction reached with
    | top at_head =>
        subst at_head
        obtain ⟨rest, rfl, _⟩ := chain_some chain
        simp
    | link prior linked ih =>
        obtain ⟨before, after, rfl, suffix⟩ := chain_from_member chain ih
        have tail := suffix.2
        rw [linked] at tail
        obtain ⟨rest, rfl, _⟩ := chain_some tail
        simp
  · intro member
    induction nodes generalizing head with
    | nil => simp at member
    | cons top rest ih =>
        obtain ⟨same, tail⟩ := chain
        have topReached : Reachable next head top := .top same
        rcases List.mem_cons.mp member with rfl | later
        · exact topReached
        · have reached := ih tail later
          clear ih tail member later
          induction reached with
          | top at_head => exact .link topReached at_head
          | link prior linked ih => exact .link ih linked

theorem reachable_below {head : Option Node} {node other : Node}
    (reached : Reachable next head node) (below : Reachable next (next node) other) :
    Reachable next head other := by
  induction below with
  | top at_head => exact .link reached at_head
  | link prior linked ih => exact .link ih linked

theorem reachable_some_iff {top node : Node} :
    Reachable next (some top) node ↔ node = top ∨ Reachable next (next top) node := by
  constructor
  · intro reached
    induction reached with
    | top at_head => exact .inl (Option.some.inj at_head).symm
    | link prior linked ih =>
        rcases ih with rfl | below
        · exact .inr (.top linked)
        · exact .inr (.link below linked)
  · rintro (rfl | below)
    · exact .top rfl
    · exact reachable_below (.top rfl) below

theorem not_reachable_none (node : Node) : ¬Reachable next none node := by
  intro reached
  induction reached with
  | top at_head => cases at_head
  | link prior linked ih => exact ih

theorem not_below_itself {first : Option Node} {nodes : List Node} {node : Node}
    (chain : Chain next first nodes) (reached : Reachable next first node) :
    ¬Reachable next (next node) node := by
  obtain ⟨before, after, -, suffix⟩ :=
    chain_from_member chain ((chain_reachable_iff chain node).mp reached)
  rw [chain_reachable_iff suffix.2]
  exact (List.nodup_cons.mp (chain_nodup suffix)).1

/-! ## How many nodes can be popped -/

open scoped Classical in
/-- The number of nodes below a head cell, infinite when the links never end. -/
noncomputable def depth (next : Node → Option Node) (head : Option Node) : ℕ∞ :=
  if ended : ∃ nodes, Chain next head nodes then (ended.choose.length : ℕ∞) else ⊤

theorem depth_of_chain {head : Option Node} {nodes : List Node} (chain : Chain next head nodes) :
    depth next head = nodes.length := by
  have ended : ∃ nodes, Chain next head nodes := ⟨nodes, chain⟩
  rw [depth, dif_pos ended, chain_unique ended.choose_spec chain]

theorem depth_none : depth next none = 0 := by
  have chain : Chain next none [] := rfl
  simpa using depth_of_chain chain

theorem depth_eq_top {head : Option Node} (endless : ¬∃ nodes, Chain next head nodes) :
    depth next head = ⊤ := dif_neg endless

theorem depth_some (top : Node) : depth next (some top) = depth next (next top) + 1 := by
  by_cases ended : ∃ rest, Chain next (next top) rest
  · obtain ⟨rest, tail⟩ := ended
    have whole : Chain next (some top) (top :: rest) := ⟨rfl, tail⟩
    rw [depth_of_chain whole, depth_of_chain tail]
    simp
  · have endless : ¬∃ nodes, Chain next (some top) nodes := by
      rintro ⟨nodes, chain⟩
      obtain ⟨rest, _, tail⟩ := chain_some chain
      exact ended ⟨rest, tail⟩
    rw [depth_eq_top ended, depth_eq_top endless]
    rfl

theorem chain_of_depth_ne_top {head : Option Node} (finite : depth next head ≠ ⊤) :
    ∃ nodes, Chain next head nodes := by
  by_contra endless
  exact finite (depth_eq_top endless)

/-- The nodes met by walking at most `fuel` links: the executable reading of
`depth`. -/
def popsUpTo (next : Node → Option Node) : Nat → Option Node → Nat
  | 0, _ => 0
  | _ + 1, none => 0
  | fuel + 1, some top => popsUpTo next fuel (next top) + 1

theorem pops_up_to_eq_min (fuel : Nat) (head : Option Node) :
    (popsUpTo next fuel head : ℕ∞) = min (fuel : ℕ∞) (depth next head) := by
  induction fuel generalizing head with
  | zero => simp [popsUpTo]
  | succ fuel ih =>
      cases head with
      | none => simp [popsUpTo, depth_none]
      | some top =>
          rw [popsUpTo, depth_some, Nat.cast_add, ih, Nat.cast_add, Nat.cast_one,
            min_add_add_right]

/-! ## Several stacks over one array of links -/

/-- `free shard` lists the nodes of each stack, and every node on a stack is on
its home stack. -/
structure Stacked (next : Node → Option Node) (head : Shard → Option Node)
    (home : Node → Shard) (free : Shard → List Node) : Prop where
  chain : ∀ shard, Chain next (head shard) (free shard)
  home : ∀ shard, ∀ node ∈ free shard, home node = shard

variable {head : Shard → Option Node} {home : Node → Shard} {free : Shard → List Node}

theorem stacked_mem_iff (stacked : Stacked next head home free) (node : Node) :
    (∃ shard, Reachable next (head shard) node) ↔ node ∈ free (home node) := by
  constructor
  · rintro ⟨shard, reached⟩
    have member := (chain_reachable_iff (stacked.chain shard) node).mp reached
    rw [stacked.home shard node member]
    exact member
  · intro member
    exact ⟨home node, (chain_reachable_iff (stacked.chain _) node).mpr member⟩

theorem stacked_set_link [DecidableEq Node] (stacked : Stacked next head home free) {node : Node}
    (outside : node ∉ free (home node)) (link : Option Node) :
    Stacked (Function.update next node link) head home free := by
  refine ⟨fun shard => chain_frame ?_ (stacked.chain shard), stacked.home⟩
  intro other member
  refine Function.update_of_ne ?_ _ _
  rintro rfl
  rw [stacked.home shard other member] at outside
  exact outside member

variable [DecidableEq Shard]

/-- A head may be moved to any cell from which a part of its own nodes hangs. -/
theorem stacked_set_head (stacked : Stacked next head home free) {shard : Shard}
    {link : Option Node} {kept : List Node} (chain : Chain next link kept)
    (part : kept ⊆ free shard) :
    Stacked next (Function.update head shard link) home (Function.update free shard kept) := by
  constructor
  · intro other
    by_cases same : other = shard
    · subst same
      simpa using chain
    · simpa [Function.update_of_ne same] using stacked.chain other
  · intro other node member
    by_cases same : other = shard
    · subst same
      rw [Function.update_self] at member
      exact stacked.home other node (part member)
    · rw [Function.update_of_ne same] at member
      exact stacked.home other node member

theorem stacked_pop (stacked : Stacked next head home free) {shard : Shard} {top : Node}
    (at_head : head shard = some top) :
    ∃ rest, free shard = top :: rest ∧
      Stacked next (Function.update head shard (next top)) home
        (Function.update free shard rest) := by
  have chain := stacked.chain shard
  rw [at_head] at chain
  rcases chain_some chain with ⟨rest, split, tail⟩
  refine ⟨rest, split, stacked_set_head stacked tail ?_⟩
  rw [split]
  exact List.subset_cons_self top rest

/-- Moving a head below its top node loses the nodes that are jumped over. -/
theorem stacked_cut (stacked : Stacked next head home free) {shard : Shard} {top : Node}
    (at_head : head shard = some top) {link : Option Node}
    (below : ∀ node ∈ link, Reachable next (next top) node) :
    ∃ rest kept, free shard = top :: rest ∧ kept ⊆ rest ∧
      Stacked next (Function.update head shard link) home (Function.update free shard kept) := by
  have chain := stacked.chain shard
  rw [at_head] at chain
  rcases chain_some chain with ⟨rest, split, tail⟩
  have whole : rest ⊆ free shard := by
    rw [split]
    exact List.subset_cons_self top rest
  cases link with
  | none =>
      exact ⟨rest, [], split, List.nil_subset rest,
        stacked_set_head stacked rfl (List.nil_subset _)⟩
  | some node =>
      have member := (chain_reachable_iff tail node).mp (below node rfl)
      rcases chain_from_member tail member with ⟨before, after, shape, suffix⟩
      have part : node :: after ⊆ rest := by
        rw [shape]
        exact List.subset_append_right before _
      exact ⟨rest, node :: after, split, part,
        stacked_set_head stacked suffix (List.Subset.trans part whole)⟩

theorem stacked_link (stacked : Stacked next head home free) {node : Node}
    (linked : next node = head (home node)) :
    Stacked next (Function.update head (home node) (some node)) home
      (Function.update free (home node) (node :: free (home node))) := by
  refine ⟨?_, ?_⟩
  · intro other
    by_cases same : other = home node
    · subst same
      simp only [Function.update_self]
      exact ⟨rfl, by rw [linked]; exact stacked.chain _⟩
    · simpa [Function.update_of_ne same] using stacked.chain other
  · intro other member inside
    by_cases same : other = home node
    · subst same
      rw [Function.update_self] at inside
      rcases List.mem_cons.mp inside with rfl | older
      · rfl
      · exact stacked.home _ member older
    · rw [Function.update_of_ne same] at inside
      exact stacked.home other member inside

end AmpFormal.LinkedStack
