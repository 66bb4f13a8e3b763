import AmpFormal.IntIndexing
import AmpFormal.MatmulKernel

/-!
# The SYCL matrix product

A transcription of `gemm_tiled_sycl` and of the launch without joint matrices. A `float`
and a BF16 number are elements of a commutative semiring. The runtime refuses an
`nd_range` whose work-group does not divide it. A local cell holds nothing before it is
written; an access outside an array and a read of an empty cell have no result.
-/

namespace AmpFormal.SyclKernel

open AmpFormal.BarrierPhases AmpFormal.IntIndexing AmpFormal.MatmulKernel AmpFormal.WrappedInts

set_option autoImplicit false

/-- The arguments of a launch; the `int` counter of the loop goes up to the next tile
behind `K`. -/
structure SyclGemm (R : Type*) where
  M : Nat
  N : Nat
  K : Nat
  counters : M < 2147483648 ∧ N < 2147483648 ∧ K + 15 < 2147483648
  A : Nat → R
  B : Nat → R

abbrev Group := Nat × Nat

/-- `item.get_local_id()` as (`lr`, `lc`). -/
abbrev Item := Fin 16 × Fin 16

inductive TiledOp where
  | loadA (t : Nat)
  | loadB (t : Nat)
  | multiply (k : Nat)
  | store
  deriving DecidableEq, Repr

/-- The local accessors, the accumulators and the writes to `C` in their order. -/
structure TiledState (R : Type*) where
  lA : Cells R
  lB : Cells R
  acc : Item → R
  stores : List (Nat × R)

namespace SyclGemm

variable {R : Type*} (gemm : SyclGemm R)

def row (group : Group) (item : Item) : Nat := group.1 * 16 + item.1

def col (group : Group) (item : Item) : Nat := group.2 * 16 + item.2

/-- `(row < M && t + lc < K) ? A[row * K + t + lc] : 0` -/
def readA [Zero R] (row t lc : Nat) : Option R :=
  if row < gemm.M ∧ t + lc < gemm.K then
    readAt (gemm.M * gemm.K) gemm.A (toInt32 (toInt32 (toInt32 (row * gemm.K) + t) + lc))
  else some 0

def step [CommSemiring R] (group : Group) (item : Item) :
    TiledOp → TiledState R → Option (TiledState R)
  | .loadA t, s => do
      let value ← gemm.readA (row group item) t item.2
      let cells ← writeCell 16 16 s.lA item.1 item.2 value
      some { s with lA := cells }
  | .loadB t, s => do
      let value ← readOrZeroAt gemm.K gemm.N gemm.B (t + item.1) (col group item)
      let cells ← writeCell 16 16 s.lB item.1 item.2 value
      some { s with lB := cells }
  | .multiply k, s => do
      let a ← readCell 16 16 s.lA item.1 k
      let b ← readCell 16 16 s.lB k item.2
      some { s with acc := Function.update s.acc item (s.acc item + a * b) }
  | .store, s => do
      let stores ← writeAt (gemm.M * gemm.N)
        (rowMajorIndex (row group item) (col group item) gemm.N) (s.acc item) s.stores
      some { s with stores }

/-- `if (row < M && col < N)` -/
def storePhase (group : Group) (item : Item) : List TiledOp :=
  if row group item < gemm.M ∧ col group item < gemm.N then [.store] else []

/-- The phases between the barriers of the iterations `ts`, and the store behind the
loop. -/
def phasesFrom (group : Group) : List Nat → List (Item → List TiledOp)
  | [] => [gemm.storePhase group]
  | t :: rest =>
      (fun _ => [.loadA t, .loadB t]) :: (fun _ => (List.range 16).map .multiply) ::
        phasesFrom group rest

def phases (group : Group) : List (Item → List TiledOp) :=
  gemm.phasesFrom group (strided 0 gemm.K 16)

def initial [Zero R] : TiledState R :=
  { lA := fun _ _ => none, lB := fun _ _ => none, acc := fun _ => 0, stores := [] }

def runGroup [CommSemiring R] (group : Group) (orders : List (List (Item × TiledOp))) :
    Option (TiledState R) :=
  runPhases (gemm.step group) orders initial

end SyclGemm

/-! ## The launch -/

/-- The numbers of work-groups, where the runtime accepts the `nd_range`. -/
def launchMatmulSyclBf16 {R : Type*} (gemm : SyclGemm R) : Option Group :=
  if gemm.M % 16 ≠ 0 ∨ gemm.N % 16 ≠ 0 then none else some (gemm.M / 16, gemm.N / 16)

/-- The work-group is one of the launch. -/
def InRange (groups group : Group) : Prop := group.1 < groups.1 ∧ group.2 < groups.2

instance (groups group : Group) : Decidable (InRange groups group) :=
  inferInstanceAs (Decidable (_ ∧ _))

end AmpFormal.SyclKernel
