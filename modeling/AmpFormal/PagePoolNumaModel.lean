import AmpFormal.PagePoolFastModel

/-!
# The page pool with one inner pool per NUMA node

A transcription of `PagePoolNUMA::alloc` and `free_pages`: each node has a
`PagePoolFast` of 16 shards, and a page is named by a global id that is computed
in the 32-bit arithmetic of `int`. The node the system reports for the caller and
the clock reading of each inner call are arguments. An index outside its vector is
undefined behaviour, and a call that uses one has no result here.
-/

namespace AmpFormal.PagePoolNumaModel

open AmpFormal.PagePoolFastModel

set_option autoImplicit false

structure PagePoolNUMA (nodes pagesPerNode : Nat) where
  perNode : Fin nodes → PagePoolFast pagesPerNode 16

/-- The element of a vector of `size` elements that an `int` indexes. -/
def elementAt (size : Nat) (index : Int) : Option (Fin size) :=
  if inside : 0 ≤ index ∧ index.toNat < size then some ⟨index.toNat, inside.2⟩ else none

namespace PagePoolNUMA

variable {nodes pagesPerNode : Nat}

def create (nodes pagesPerNode : Nat) : PagePoolNUMA nodes pagesPerNode where
  perNode := fun _ => PagePoolFast.create pagesPerNode 16

def globalId (node : Fin nodes) (localId : Fin pagesPerNode) : Int32 :=
  Int32.ofNat node.val * Int32.ofNat pagesPerNode + Int32.ofNat localId.val

def split (pagesPerNode : Nat) (gid : Int32) : Int32 × Int32 :=
  (gid / Int32.ofNat pagesPerNode, gid % Int32.ofNat pagesPerNode)

/-- The node an `alloc` tries first: the reported one, or `tid % n_nodes_` when
there is no such node. -/
def firstNode (nodes : Nat) (currentNode tid : Int) : Option (Fin nodes) :=
  elementAt nodes
    (if currentNode < 0 ∨ (nodes : Int) ≤ currentNode then tid.tmod nodes else currentNode)

/-- `per_node_[node]->alloc`, with global ids. -/
def allocOn (pool : PagePoolNUMA nodes pagesPerNode) (n : Nat) (tid : Int) (ts : UInt64)
    (node : Fin nodes) : PagePoolNUMA nodes pagesPerNode × List Int32 :=
  let result := (pool.perNode node).alloc n tid ts
  ({ perNode := Function.update pool.perNode node result.1 }, result.2.map (globalId node))

def fallback (n : Nat) (tid : Int) (now : Fin nodes → UInt64) (node : Fin nodes) :
    List (Fin nodes) → PagePoolNUMA nodes pagesPerNode →
      PagePoolNUMA nodes pagesPerNode × List Int32
  | [], pool => (pool, [])
  | alt :: rest, pool =>
      if alt = node then fallback n tid now node rest pool
      else
        let result := pool.allocOn n tid (now alt) alt
        if result.2.isEmpty then fallback n tid now node rest result.1 else result

def alloc (pool : PagePoolNUMA nodes pagesPerNode) (n : Nat) (tid currentNode : Int)
    (now : Fin nodes → UInt64) : Option (PagePoolNUMA nodes pagesPerNode × List Int32) :=
  (firstNode nodes currentNode tid).map fun node =>
    let result := pool.allocOn n tid (now node) node
    if result.2.isEmpty then fallback n tid now node (List.finRange nodes) result.1 else result

def addTo (per : Fin nodes → List (Fin pagesPerNode)) (gid : Int32) :
    Option (Fin nodes → List (Fin pagesPerNode)) := do
  let node ← elementAt nodes (split pagesPerNode gid).1.toInt
  let localId ← elementAt pagesPerNode (split pagesPerNode gid).2.toInt
  return Function.update per node (per node ++ [localId])

def freePages (pool : PagePoolNUMA nodes pagesPerNode) (gids : List Int32) :
    Option (PagePoolNUMA nodes pagesPerNode) := do
  let per ← gids.foldlM addTo fun _ => []
  return { perNode := fun node =>
    if (per node).isEmpty then pool.perNode node else (pool.perNode node).freePages (per node) }

end PagePoolNUMA

end AmpFormal.PagePoolNumaModel
