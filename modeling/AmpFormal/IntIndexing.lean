import AmpFormal.MatrixLayouts
import AmpFormal.WrappedInts

/-!
# Arrays with machine indices

Matrices kept in row-major order in arrays of a known size, whose index is computed in
a 32-bit register. An index outside the array has no result. In a matrix of no more
elements than the register counts, every element is found.
-/

namespace AmpFormal.IntIndexing

open AmpFormal.MatrixLayouts AmpFormal.WrappedInts

set_option autoImplicit false

variable {R : Type*}

/-- `r * width + c` in a register. -/
def rowMajorIndex (r c width : Nat) : Int := toInt32 (toInt32 (r * width) + c)

/-- `data[index]` -/
def readAt (size : Nat) (data : Nat → R) (index : Int) : Option R :=
  if 0 ≤ index ∧ index < size then some (data index.toNat) else none

/-- `data[index] = value`, as an entry of the writes to `data`. -/
def writeAt (size : Nat) (index : Int) (value : R) (writes : List (Nat × R)) :
    Option (List (Nat × R)) :=
  if 0 ≤ index ∧ index < size then some (writes ++ [(index.toNat, value)]) else none

/-- `data[index] = value` -/
def setAt (size : Nat) (index : Int) (value : R) (data : Nat → R) : Option (Nat → R) :=
  if 0 ≤ index ∧ index < size then some (Function.update data index.toNat value) else none

/-- `(r < height && c < width) ? data[r * width + c] : 0` -/
def readOrZeroAt [Zero R] (height width : Nat) (data : Nat → R) (r c : Nat) : Option R :=
  if r < height ∧ c < width then readAt (height * width) data (rowMajorIndex r c width)
  else some 0

section Exact

variable {height width r c : Nat}

theorem row_major_index_eq (row : r < height) (col : c < width)
    (fits : height * width ≤ 2147483648) : rowMajorIndex r c width = (r * width + c : Nat) := by
  have inside := row_major_lt row col
  unfold rowMajorIndex
  rw [to_int32_add, ← Nat.cast_mul, ← Nat.cast_add]
  exact to_int32_of_range (by omega) (by omega)

theorem read_at_row_major (row : r < height) (col : c < width)
    (fits : height * width ≤ 2147483648) (data : Nat → R) :
    readAt (height * width) data (rowMajorIndex r c width) = some (data (r * width + c)) := by
  have inside := row_major_lt row col
  rw [row_major_index_eq row col fits]
  exact if_pos ⟨Int.natCast_nonneg _, by omega⟩

theorem write_at_row_major (row : r < height) (col : c < width)
    (fits : height * width ≤ 2147483648) (value : R) (writes : List (Nat × R)) :
    writeAt (height * width) (rowMajorIndex r c width) value writes =
      some (writes ++ [(r * width + c, value)]) := by
  have inside := row_major_lt row col
  rw [row_major_index_eq row col fits]
  exact if_pos ⟨Int.natCast_nonneg _, by omega⟩

theorem set_at_row_major (row : r < height) (col : c < width)
    (fits : height * width ≤ 2147483648) (value : R) (data : Nat → R) :
    setAt (height * width) (rowMajorIndex r c width) value data =
      some (Function.update data (r * width + c) value) := by
  have inside := row_major_lt row col
  rw [row_major_index_eq row col fits]
  exact if_pos ⟨Int.natCast_nonneg _, by omega⟩

theorem read_or_zero_at_eq [Zero R] (fits : height * width ≤ 2147483648) (data : Nat → R)
    (r c : Nat) : readOrZeroAt height width data r c =
      some (if r < height ∧ c < width then data (r * width + c) else 0) := by
  unfold readOrZeroAt
  split
  case isTrue inside => exact read_at_row_major inside.1 inside.2 fits data
  case isFalse => rfl

end Exact

/-- The matrices of a product have no more elements than the register counts. -/
structure MatricesFit (M N K : Nat) : Prop where
  a : M * K ≤ 2147483648
  b : K * N ≤ 2147483648
  c : M * N ≤ 2147483648

/-! ## Loops that read -/

theorem foldlM_some {α β : Type*} {f : β → α → Option β} {g : β → α → β} {list : List α}
    (each : ∀ a ∈ list, ∀ b, f b a = some (g b a)) (b : β) :
    list.foldlM f b = some (list.foldl g b) := by
  induction list generalizing b with
  | nil => rfl
  | cons first rest ih =>
      rw [List.foldlM_cons, each first List.mem_cons_self b, Option.bind_eq_bind, Option.bind_some,
        List.foldl_cons]
      exact ih (fun a member => each a (List.mem_cons_of_mem _ member)) (g b first)

end AmpFormal.IntIndexing
