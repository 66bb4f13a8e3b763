import Mathlib.Tactic.Positivity
import Mathlib.Tactic.Ring

/-!
# Wrapping machine integers

Signed 32-bit arithmetic on `Int`: a sum or a product is taken exactly and then
brought back to the machine range. The lemmas say when nothing is lost and in
which direction a value moves when something is.
-/

namespace AmpFormal.WrappedInts

set_option autoImplicit false

/-- The value that a 32-bit signed register holds after an exact result. The
test has its constant on the left, so that it is stuck on a symbolic residue
instead of counting down from the constant. -/
def toInt32 (x : Int) : Int :=
  let residue := (x % 4294967296).toNat
  if 2147483648 ≤ residue then residue - 4294967296 else residue

theorem to_int32_range (x : Int) : -2147483648 ≤ toInt32 x ∧ toInt32 x < 2147483648 := by
  unfold toInt32
  dsimp only
  split <;> omega

theorem to_int32_of_range {x : Int} (lower : -2147483648 ≤ x) (upper : x < 2147483648) :
    toInt32 x = x := by
  unfold toInt32
  dsimp only
  split <;> omega

/-- A register only loses whole multiples of its range, so a result that is not
too small is never overestimated. -/
theorem to_int32_le {x : Int} (lower : -2147483648 ≤ x) : toInt32 x ≤ x := by
  unfold toInt32
  dsimp only
  split <;> omega

theorem to_int32_eq_iff {x : Int} (nonneg : 0 ≤ x) : toInt32 x = x ↔ x < 2147483648 := by
  constructor
  · intro same
    rw [← same]
    exact (to_int32_range x).2
  · exact to_int32_of_range (by omega)

theorem to_int32_add (x y : Int) : toInt32 (toInt32 x + y) = toInt32 (x + y) := by
  unfold toInt32
  dsimp only
  split <;> omega

theorem to_int32_congr {x y : Int} (same : x % 4294967296 = y % 4294967296) :
    toInt32 x = toInt32 y := by
  unfold toInt32
  rw [same]

theorem to_int32_emod (x : Int) : toInt32 x % 4294967296 = x % 4294967296 := by
  unfold toInt32
  dsimp only
  split <;> omega

theorem to_int32_mul (x y : Int) : toInt32 (toInt32 x * y) = toInt32 (x * y) := by
  apply to_int32_congr
  rw [Int.mul_emod, to_int32_emod, ← Int.mul_emod]

theorem to_int32_mul_right (x y : Int) : toInt32 (x * toInt32 y) = toInt32 (x * y) := by
  rw [Int.mul_comm, to_int32_mul, Int.mul_comm]

theorem to_int32_sum_eq_iff {x y z : Int} (first : 0 ≤ x) (second : 0 ≤ y) (third : 0 ≤ z) :
    toInt32 x + toInt32 y + toInt32 z = x + y + z ↔
      x < 2147483648 ∧ y < 2147483648 ∧ z < 2147483648 := by
  have fewer := to_int32_le (x := x) (by omega)
  have lower := to_int32_le (x := y) (by omega)
  have smaller := to_int32_le (x := z) (by omega)
  rw [← to_int32_eq_iff first, ← to_int32_eq_iff second, ← to_int32_eq_iff third]
  constructor
  · intro same
    exact ⟨by omega, by omega, by omega⟩
  · rintro ⟨same, same', same''⟩
    omega

/-! ## Strides -/

/-- An element of a four-dimensional array in row-major order, found over strides
that a register holds: the offsets of the two outer dimensions are added to a wider
pointer, the last two make one index. -/
theorem stride_offset_exact_iff {b h row d : Int} (heads seq dim : Int)
    (outer : 0 ≤ b * (heads * seq * dim)) (middle : 0 ≤ h * (seq * dim))
    (inner : 0 ≤ row * dim + d) :
    toInt32 (b * toInt32 (toInt32 (heads * seq) * dim)) + toInt32 (h * toInt32 (seq * dim)) +
        toInt32 (toInt32 (row * dim) + d) = ((b * heads + h) * seq + row) * dim + d ↔
      b * (heads * seq * dim) < 2147483648 ∧ h * (seq * dim) < 2147483648 ∧
        row * dim + d < 2147483648 := by
  have split : ((b * heads + h) * seq + row) * dim + d =
      b * (heads * seq * dim) + h * (seq * dim) + (row * dim + d) := by ring
  rw [to_int32_mul, to_int32_mul_right, to_int32_mul_right, to_int32_add, split,
    to_int32_sum_eq_iff outer middle inner]

theorem stride_offset_exact {b heads h seq dim row d : Int} (batch : 0 ≤ b) (count : 0 ≤ heads)
    (head : 0 ≤ h) (length : 0 ≤ seq) (width : 0 ≤ dim) (index : 0 ≤ row) (col : 0 ≤ d)
    (fits : ((b * heads + h) * seq + row) * dim + d < 2147483648) :
    toInt32 (b * toInt32 (toInt32 (heads * seq) * dim)) + toInt32 (h * toInt32 (seq * dim)) +
        toInt32 (toInt32 (row * dim) + d) = ((b * heads + h) * seq + row) * dim + d := by
  have outer : 0 ≤ b * (heads * seq * dim) := by positivity
  have middle : 0 ≤ h * (seq * dim) := by positivity
  have inner : 0 ≤ row * dim + d := by positivity
  have split : ((b * heads + h) * seq + row) * dim + d =
      b * (heads * seq * dim) + h * (seq * dim) + (row * dim + d) := by ring
  rw [split] at fits
  exact (stride_offset_exact_iff heads seq dim outer middle inner).mpr
    ⟨by omega, by omega, by omega⟩

end AmpFormal.WrappedInts
