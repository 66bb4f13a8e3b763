import AmpFormal.IntIndexing
import AmpFormal.MatmulKernel
import AmpFormal.PhaseRules
import Mathlib.Algebra.BigOperators.Fin

/-!
# The tensor-core matrix product

A transcription of `matmul_bf16_wmma` and its launch. One warp of 32 threads, or one
wavefront of 64, computes a tile of 16 x 16. Between two barriers either each thread
executes its own operations, or the warp as a whole executes the operations on
fragments, which are collective. These belong to a library that is a parameter. A
`float` and a BF16 number are elements of a commutative semiring. A shared cell holds
nothing before it is written; an access outside an array and a read of an empty cell or
fragment have no result.
-/

namespace AmpFormal.WmmaKernel

open AmpFormal.BarrierPhases AmpFormal.IntIndexing AmpFormal.MatmulKernel

set_option autoImplicit false

universe u

abbrev Tile (R : Type*) := Fin 16 → Fin 16 → R

/-- The operations on fragments, wherever the threads of a warp keep their elements. -/
structure FragmentLibrary (R : Type u) where
  FragA : Type u
  FragB : Type u
  FragC : Type u
  fillFragment : R → FragC
  /-- `load_matrix_sync` of a row-major tile -/
  loadA : Tile R → FragA
  loadB : Tile R → FragB
  mmaSync : FragA → FragB → FragC → FragC
  /-- `store_matrix_sync` in row-major order -/
  storeMatrix : FragC → Tile R

/-- What the library documents, with exact accumulation: a filled fragment stores its
constant, and a multiplication of two loaded tiles stores their product on top of what
the accumulator would have stored. -/
structure FragmentLaws {R : Type*} [CommSemiring R] (lib : FragmentLibrary R) : Prop where
  store_fill : ∀ x r c, lib.storeMatrix (lib.fillFragment x) r c = x
  store_mma : ∀ a b acc r c,
    lib.storeMatrix (lib.mmaSync (lib.loadA a) (lib.loadB b) acc) r c =
      (∑ k, a r k * b k c) + lib.storeMatrix acc r c

/-- The threads of the warp and the arguments of a launch; the `int` counters of the
loops and of the grid go up to the next tile behind a dimension. -/
structure Wmma (R : Type*) where
  lib : FragmentLibrary R
  lanes : Nat
  positive : 0 < lanes
  M : Nat
  N : Nat
  K : Nat
  counters : M + 15 < 2147483648 ∧ N + 15 < 2147483648 ∧ K + 15 < 2147483648
  A : Nat → R
  B : Nat → R

inductive StagingArray where
  | a
  | b
  | c
  deriving DecidableEq, Repr

inductive WmmaOp where
  | stageA (k i : Nat)
  | stageB (k i : Nat)
  | loadA
  | loadB
  | mma
  | storeC
  | scatter (i : Nat)
  deriving DecidableEq, Repr

/-- The staging tiles, the fragments and the writes to `C` in their order. -/
structure WmmaState {R : Type*} (lib : FragmentLibrary R) where
  cells : StagingArray × Nat × Nat → Option R
  fa : Option lib.FragA
  fb : Option lib.FragB
  fc : lib.FragC
  stores : List (Nat × R)

section Accesses

variable {R : Type*} {lib : FragmentLibrary R}

/-- `array[r][c]` -/
def readTile (array : StagingArray) (r c : Nat) (s : WmmaState lib) : Option R :=
  if r < 16 ∧ c < 16 then s.cells (array, r, c) else none

/-- `array[r][c] = value` -/
def writeTile (array : StagingArray) (r c : Nat) (value : R) (s : WmmaState lib) :
    Option (WmmaState lib) :=
  if r < 16 ∧ c < 16 then
    some { s with cells := Function.update s.cells (array, r, c) (some value) }
  else none

/-- The tile behind a pointer that the warp loads: all 256 elements are read. -/
def wholeTile (array : StagingArray) (s : WmmaState lib) : Option (Tile R) :=
  if filled : ∀ r c : Fin 16, (readTile array r c s).isSome then
    some fun r c => (readTile array r c s).get (filled r c)
  else none

def putTile (array : StagingArray) (tile : Tile R) (s : WmmaState lib) : WmmaState lib :=
  { s with
    cells := fun cell =>
      if inside : cell.1 = array ∧ cell.2.1 < 16 ∧ cell.2.2 < 16 then
        some (tile ⟨cell.2.1, inside.2.1⟩ ⟨cell.2.2, inside.2.2⟩)
      else s.cells cell }

end Accesses

namespace Wmma

variable {R : Type*} (kernel : Wmma R)

abbrev Actor {R : Type*} (kernel : Wmma R) := Option (Fin kernel.lanes)

def initial [Zero R] : WmmaState kernel.lib :=
  { cells := fun _ => none, fa := none, fb := none, fc := kernel.lib.fillFragment 0, stores := [] }

/-- `blockIdx` as (`wM`, `wN`). -/
def step [Zero R] (block : Block) (_ : kernel.Actor) :
    WmmaOp → WmmaState kernel.lib → Option (WmmaState kernel.lib)
  | .stageA k i, s => do
      let r := i >>> 4
      let c := i &&& 15
      let value ← readOrZeroAt kernel.M kernel.K kernel.A (block.1 * 16 + r) (k + c)
      writeTile .a r c value s
  | .stageB k i, s => do
      let r := i >>> 4
      let c := i &&& 15
      let value ← readOrZeroAt kernel.K kernel.N kernel.B (k + r) (block.2 * 16 + c)
      writeTile .b r c value s
  | .loadA, s => do
      let tile ← wholeTile .a s
      some { s with fa := some (kernel.lib.loadA tile) }
  | .loadB, s => do
      let tile ← wholeTile .b s
      some { s with fb := some (kernel.lib.loadB tile) }
  | .mma, s => do
      let fa ← s.fa
      let fb ← s.fb
      some { s with fc := kernel.lib.mmaSync fa fb s.fc }
  | .storeC, s => some (putTile .c (kernel.lib.storeMatrix s.fc) s)
  | .scatter i, s =>
      let r := i >>> 4
      let c := i &&& 15
      let gR := block.1 * 16 + r
      let gC := block.2 * 16 + c
      if gR < kernel.M ∧ gC < kernel.N then do
        let value ← readTile .c r c s
        let stores ← writeAt (kernel.M * kernel.N) (rowMajorIndex gR gC kernel.N) value s.stores
        some { s with stores }
      else some s

/-- The operations of the threads in `for (i = lane; i < 256; i += lanes)`. -/
def shared (body : Nat → WmmaOp) : kernel.Actor → List WmmaOp
  | none => []
  | some lane => (strided lane 256 kernel.lanes).map body

def collective (ops : List WmmaOp) : kernel.Actor → List WmmaOp
  | none => ops
  | some _ => []

def stagePhase (k : Nat) (actor : kernel.Actor) : List WmmaOp :=
  kernel.shared (.stageA k) actor ++ kernel.shared (.stageB k) actor

/-- The phases of the iterations `ks`, and the output behind the loop. -/
def phasesFrom (block : Block) : List Nat → List (kernel.Actor → List WmmaOp)
  | [] =>
      if block.1 * 16 < kernel.M ∧ block.2 * 16 < kernel.N then
        [kernel.collective [.storeC], kernel.shared .scatter]
      else []
  | k :: rest =>
      kernel.stagePhase k :: kernel.collective [.loadA, .loadB, .mma] :: phasesFrom block rest

def phases (block : Block) : List (kernel.Actor → List WmmaOp) :=
  kernel.phasesFrom block (strided 0 kernel.K 16)

def runBlock [Zero R] (block : Block) (orders : List (List (kernel.Actor × WmmaOp))) :
    Option (WmmaState kernel.lib) :=
  runPhases (kernel.step block) orders kernel.initial

/-- `dim3 grid((N + 15) / 16, (M + 15) / 16, 1)` -/
def InGrid (block : Block) : Prop :=
  block.1 < (kernel.M + 15) / 16 ∧ block.2 < (kernel.N + 15) / 16

instance (block : Block) : Decidable (kernel.InGrid block) :=
  inferInstanceAs (Decidable (_ ∧ _))

end Wmma

/-! ## The launch -/

inductive GpuBackend where
  | cuda
  | hip
  deriving DecidableEq, Repr

def blockWidth : GpuBackend → Nat
  | .cuda => 32
  | .hip => 64

def launchMatmulBf16 {R : Type*} (lib : FragmentLibrary R) (backend : GpuBackend) (A B : Nat → R)
    (M N K : Nat)
    (counters : M + 15 < 2147483648 ∧ N + 15 < 2147483648 ∧ K + 15 < 2147483648) : Wmma R :=
  { lib
    lanes := blockWidth backend
    positive := by cases backend <;> decide
    M, N, K, counters, A, B }

end AmpFormal.WmmaKernel
