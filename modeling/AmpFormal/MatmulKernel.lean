import AmpFormal.BarrierPhases
import Mathlib.Algebra.BigOperators.Group.Finset.Basic
import Mathlib.Algebra.BigOperators.Ring.Finset
import Mathlib.Algebra.Ring.Defs

/-!
# The tiled matrix product

A transcription of `matmul_fp32_kernel` and its launch. A `float` is an element
of a commutative semiring and an `int` is a natural number, so neither rounding
nor overflow is modelled: the indices are those of matrices of up to 2^31 elements.
An operation is one pass through the body of a loop of
one thread. A shared cell holds nothing before it is written; an access outside
an array and a read of an empty cell have no result.
-/

namespace AmpFormal.MatmulKernel

open AmpFormal.BarrierPhases

set_option autoImplicit false

/-- The template and the arguments of a launch; `A` and `B` have `M * K` and
`K * N` elements. -/
structure Matmul (R : Type*) where
  bm : Nat
  bn : Nat
  bk : Nat
  rows : 0 < bm
  cols : 0 < bn
  depth : 0 < bk
  M : Nat
  N : Nat
  K : Nat
  A : Nat → R
  B : Nat → R

abbrev Thread {R : Type*} (kernel : Matmul R) := Fin kernel.bm × Fin kernel.bn

abbrev Block := Nat × Nat

inductive MatmulOp where
  | loadA (kb idx : Nat)
  | loadB (kb idx : Nat)
  | multiply (k : Nat)
  | store
  deriving DecidableEq, Repr

abbrev Cells (R : Type*) := Nat → Nat → Option R

/-- The shared arrays, the accumulators and the writes to `C` in their order. -/
structure BlockState (R : Type*) (kernel : Matmul R) where
  sA : Cells R
  sB : Cells R
  acc : Thread kernel → R
  stores : List (Nat × R)

section Accesses

variable {R : Type*}

/-- `data[index]` for an array of `size` elements. -/
def readGlobal (size : Nat) (data : Nat → R) (index : Nat) : Option R :=
  if index < size then some (data index) else none

/-- `cells[r][c]` -/
def readCell (height width : Nat) (cells : Cells R) (r c : Nat) : Option R :=
  if r < height ∧ c < width then cells r c else none

/-- `cells[r][c] = value` -/
def setCell (cells : Cells R) (r c : Nat) (value : R) : Cells R :=
  fun r' c' => if r' = r ∧ c' = c then some value else cells r' c'

def writeCell (height width : Nat) (cells : Cells R) (r c : Nat) (value : R) : Option (Cells R) :=
  if r < height ∧ c < width then some (setCell cells r c value) else none

/-- `(r < height && c < width) ? data[r * width + c] : 0` -/
def readOrZero [Zero R] (height width : Nat) (data : Nat → R) (r c : Nat) : Option R :=
  if r < height ∧ c < width then readGlobal (height * width) data (r * width + c) else some 0

end Accesses

namespace Matmul

variable {R : Type*} (kernel : Matmul R)

def initial [Zero R] : BlockState R kernel :=
  { sA := fun _ _ => none, sB := fun _ _ => none, acc := fun _ => 0, stores := [] }

def row (block : Block) (thread : Thread kernel) : Nat := block.1 * kernel.bm + thread.1

def col (block : Block) (thread : Thread kernel) : Nat := block.2 * kernel.bn + thread.2

variable [CommSemiring R]

def step (block : Block) (thread : Thread kernel) :
    MatmulOp → BlockState R kernel → Option (BlockState R kernel)
  | .loadA kb idx, s => do
      let r := idx / kernel.bk
      let c := idx % kernel.bk
      let aRow := block.1 * kernel.bm + r
      let aCol := kb + c
      let value ← readOrZero kernel.M kernel.K kernel.A aRow aCol
      let cells ← writeCell kernel.bm kernel.bk s.sA r c value
      some { s with sA := cells }
  | .loadB kb idx, s => do
      let r := idx / kernel.bn
      let c := idx % kernel.bn
      let bRow := kb + r
      let bCol := block.2 * kernel.bn + c
      let value ← readOrZero kernel.K kernel.N kernel.B bRow bCol
      let cells ← writeCell kernel.bk kernel.bn s.sB r c value
      some { s with sB := cells }
  | .multiply k, s => do
      let a ← readCell kernel.bm kernel.bk s.sA thread.1 k
      let b ← readCell kernel.bk kernel.bn s.sB k thread.2
      some { s with acc := Function.update s.acc thread (s.acc thread + a * b) }
  | .store, s =>
      some { s with stores := s.stores ++
        [(kernel.row block thread * kernel.N + kernel.col block thread, s.acc thread)] }

def tid (thread : Thread kernel) : Nat := thread.1 * kernel.bn + thread.2

def loadPhase (kb : Nat) (thread : Thread kernel) : List MatmulOp :=
  (strided (kernel.tid thread) (kernel.bm * kernel.bk) (kernel.bm * kernel.bn)).map
    (MatmulOp.loadA kb) ++
  (strided (kernel.tid thread) (kernel.bk * kernel.bn) (kernel.bm * kernel.bn)).map
    (MatmulOp.loadB kb)

def multiplyPhase (_ : Thread kernel) : List MatmulOp :=
  (List.range kernel.bk).map MatmulOp.multiply

/-- `if (row < M && col < N)` -/
def storePhase (block : Block) (thread : Thread kernel) : List MatmulOp :=
  if kernel.row block thread < kernel.M ∧ kernel.col block thread < kernel.N then [.store] else []

/-- The phases of the iterations `kbs`, and the store behind the loop. -/
def phasesFrom (block : Block) : List Nat → List (Thread kernel → List MatmulOp)
  | [] => [kernel.storePhase block]
  | kb :: rest => kernel.loadPhase kb :: kernel.multiplyPhase :: phasesFrom block rest

def phases (block : Block) : List (Thread kernel → List MatmulOp) :=
  kernel.phasesFrom block (strided 0 kernel.K kernel.bk)

def runBlock (block : Block) (orders : List (List (Thread kernel × MatmulOp))) :
    Option (BlockState R kernel) :=
  runPhases (kernel.step block) orders kernel.initial

/-- `dim3 grid((N + bn - 1)/bn, (M + bm - 1)/bm)` -/
def InGrid (block : Block) : Prop :=
  block.1 < (kernel.M + kernel.bm - 1) / kernel.bm ∧
    block.2 < (kernel.N + kernel.bn - 1) / kernel.bn

instance (block : Block) : Decidable (kernel.InGrid block) :=
  inferInstanceAs (Decidable (_ ∧ _))

end Matmul

/-! ## The launch -/

structure TileCfg where
  bm : Nat := 64
  bn : Nat := 64
  bk : Nat := 16
  deriving DecidableEq, Repr

/-- The four instances of `DISPATCH_FP32`. -/
def dispatchFp32 : List TileCfg := [⟨16, 16, 16⟩, ⟨32, 16, 16⟩, ⟨32, 32, 16⟩, ⟨32, 32, 32⟩]

theorem dispatch_fp32_fits : ∀ cfg ∈ dispatchFp32,
    0 < cfg.bm ∧ 0 < cfg.bn ∧ 0 < cfg.bk ∧ cfg.bm * cfg.bn ≤ 1024 := by
  decide

def launchMatmul {R : Type*} (cfg : TileCfg) (A B : Nat → R) (M N K : Nat) :
    Except String (Matmul R) :=
  if h : cfg ∈ dispatchFp32 then .ok
    { bm := cfg.bm, bn := cfg.bn, bk := cfg.bk
      rows := (dispatch_fp32_fits cfg h).1
      cols := (dispatch_fp32_fits cfg h).2.1
      depth := (dispatch_fp32_fits cfg h).2.2.1
      M, N, K, A, B }
  else .error "unknown FP32 tile cfg"

def sixteens {R : Type*} (A B : Nat → R) (M N K : Nat) : Matmul R :=
  { bm := 16, bn := 16, bk := 16
    rows := by decide
    cols := by decide
    depth := by decide
    M, N, K, A, B }

end AmpFormal.MatmulKernel
