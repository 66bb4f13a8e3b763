import Mathlib.Algebra.Order.Field.Basic
import Mathlib.Tactic.FieldSimp
import Mathlib.Tactic.Linarith
import Mathlib.Tactic.Ring

/-!
# Relative errors through a common reference

Two values within a relative tolerance of one reference are close to each other. When
each is rounded on top of that, the distance has an optimal bound too. The error of `x`
against `y` is `|x - y| / max 1 |y|`.
-/

namespace AmpFormal.RelativeErrors

set_option autoImplicit false

variable {K : Type*} [Field K] [LinearOrder K]

def relativeError (x y : K) : K := |x - y| / max 1 |y|

/-- Every value moves by at most this part of itself. -/
def Precise (precision : K) (printed : K → K) : Prop := ∀ x, |printed x - x| ≤ precision * |x|

/-- The greatest error of two printed values, each within the tolerance. -/
def composedError (tolerance precision : K) : K :=
  (1 + tolerance) * (1 + precision) / ((1 - tolerance) * (1 - precision)) - 1

variable [IsStrictOrderedRing K]

theorem max_one_pos (y : K) : 0 < max 1 |y| := lt_max_of_lt_left one_pos

theorem composed_error_eq {tolerance precision : K} (tolerant : tolerance < 1)
    (precise : precision < 1) : composedError tolerance precision =
      (2 * tolerance + 2 * precision) / ((1 - tolerance) * (1 - precision)) := by
  have first : 0 < 1 - tolerance := by linarith
  have second : 0 < 1 - precision := by linarith
  unfold composedError
  field_simp
  ring

theorem relative_error_lt {x y tolerance : K} (close : relativeError x y < tolerance) :
    |x - y| < tolerance * max 1 |y| := (div_lt_iff₀ (max_one_pos y)).mp close

section Composed

variable {tolerance precision : K} {a b r : K}

theorem spread_lt (tolerant : tolerance < 1) (precise : 0 ≤ precision ∧ precision < 1)
    (closeA : |a - r| < tolerance * max 1 |r|) (closeB : |b - r| < tolerance * max 1 |r|) :
    |a - b| + precision * (|a| + |b|) < (2 * tolerance + 2 * precision) * max 1 |r| := by
  have positive := max_one_pos r
  have reference : |r| ≤ max 1 |r| := le_max_right _ _
  obtain ⟨lowerA, upperA⟩ := abs_lt.mp closeA
  obtain ⟨lowerB, upperB⟩ := abs_lt.mp closeB
  obtain ⟨lowerR, upperR⟩ := abs_le.mp reference
  have apart : |a - b| < 2 * (tolerance * max 1 |r|) := by
    rw [abs_lt]
    constructor <;> linarith
  -- a sum of two absolute values is the larger one of the sum and the difference
  obtain same | opposite : |a| + |b| = |a + b| ∨ |a| + |b| = |a - b| := by
    rcases abs_cases a with ⟨isA, signA⟩ | ⟨isA, signA⟩ <;>
      rcases abs_cases b with ⟨isB, signB⟩ | ⟨isB, signB⟩ <;> rw [isA, isB]
    · exact Or.inl (abs_of_nonneg (by linarith)).symm
    · right
      rw [abs_of_nonneg (by linarith)]
      ring
    · right
      rw [abs_of_nonpos (by linarith)]
      ring
    · left
      rw [abs_of_nonpos (by linarith)]
      ring
  · have centred : |a + b| ≤ 2 * max 1 |r| + |(a - r) + (b - r)| := by
      have split : a + b = 2 * r + ((a - r) + (b - r)) := by ring
      calc |a + b| ≤ |2 * r| + |(a - r) + (b - r)| := split ▸ abs_add_le _ _
        _ = 2 * |r| + |(a - r) + (b - r)| := by rw [abs_mul, abs_two]
        _ ≤ _ := by linarith
    have corners : |a - b| + |(a - r) + (b - r)| < 2 * (tolerance * max 1 |r|) := by
      rcases abs_cases (a - b) with ⟨isD, _⟩ | ⟨isD, _⟩ <;>
        rcases abs_cases ((a - r) + (b - r)) with ⟨isS, _⟩ | ⟨isS, _⟩ <;>
        rw [isD, isS] <;> linarith
    have scaled : precision * |(a - r) + (b - r)| ≤ |(a - r) + (b - r)| :=
      mul_le_of_le_one_left (abs_nonneg _) precise.2.le
    have grown := mul_le_mul_of_nonneg_left centred precise.1
    rw [same]
    linarith
  · have grown := mul_le_mul_of_nonneg_left apart.le precise.1
    have small : precision * (tolerance * max 1 |r|) ≤ precision * max 1 |r| :=
      mul_le_mul_of_nonneg_left (mul_le_of_le_one_left positive.le tolerant.le) precise.1
    rw [opposite]
    linarith

theorem scale_le (tolerant : 0 ≤ tolerance ∧ tolerance < 1)
    (precise : 0 ≤ precision ∧ precision < 1) {printed : K → K}
    (rounded : Precise precision printed) (close : |b - r| < tolerance * max 1 |r|) :
    (1 - tolerance) * (1 - precision) * max 1 |r| ≤ max 1 |printed b| := by
  have kept : (1 - precision) * |b| ≤ |printed b| := by
    have apart := abs_sub_abs_le_abs_sub b (printed b)
    rw [abs_sub_comm] at apart
    linarith [rounded b]
  have near : |r| - tolerance * max 1 |r| ≤ |b| := by
    have apart := abs_sub_abs_le_abs_sub r b
    rw [abs_sub_comm] at apart
    linarith
  have factor : 0 ≤ 1 - precision := by linarith [precise.2]
  by_cases below : |r| ≤ 1
  · have one : max 1 |r| = 1 := max_eq_left below
    have bounded : (1 - tolerance) * (1 - precision) ≤ 1 :=
      mul_le_one₀ (by linarith [tolerant.1]) factor (by linarith [precise.1])
    rw [one, mul_one]
    exact bounded.trans (le_max_left _ _)
  · have large : max 1 |r| = |r| := max_eq_right (not_le.mp below).le
    rw [large] at near ⊢
    have scaled := mul_le_mul_of_nonneg_left near factor
    exact le_trans (by linarith) (kept.trans (le_max_right _ _))

theorem composed_error_lt (tolerant : 0 ≤ tolerance ∧ tolerance < 1)
    (precise : 0 ≤ precision ∧ precision < 1) {printed : K → K}
    (rounded : Precise precision printed) (closeA : relativeError a r < tolerance)
    (closeB : relativeError b r < tolerance) :
    relativeError (printed a) (printed b) < composedError tolerance precision := by
  have nearA := relative_error_lt closeA
  have nearB := relative_error_lt closeB
  have spread := spread_lt tolerant.2 precise nearA nearB
  have scale := scale_le tolerant precise rounded nearB
  have moved : |printed a - printed b| ≤ |a - b| + precision * (|a| + |b|) := by
    have split : printed a - printed b = (printed a - a) + (a - b) + (b - printed b) := by ring
    have triangle := abs_add_three (printed a - a) (a - b) (b - printed b)
    rw [← split, abs_sub_comm b] at triangle
    linarith [rounded a, rounded b]
  have positive : 0 < (1 - tolerance) * (1 - precision) :=
    mul_pos (by linarith [tolerant.2]) (by linarith [precise.2])
  rw [composed_error_eq tolerant.2 precise.2, relativeError,
    div_lt_div_iff₀ (max_one_pos _) positive]
  calc |printed a - printed b| * ((1 - tolerance) * (1 - precision))
      < (2 * tolerance + 2 * precision) * max 1 |r| * ((1 - tolerance) * (1 - precision)) :=
        mul_lt_mul_of_pos_right (moved.trans_lt spread) positive
    _ = (2 * tolerance + 2 * precision) * ((1 - tolerance) * (1 - precision) * max 1 |r|) := by
        ring
    _ ≤ (2 * tolerance + 2 * precision) * max 1 |printed b| :=
        mul_le_mul_of_nonneg_left scale (by linarith [tolerant.1, precise.1])

end Composed

/-! ## The bound is the least one -/

section Optimal

variable {tolerance precision : K}

def spreading (precision middle x : K) : K :=
  if x ≤ middle then (1 - precision) * x else (1 + precision) * x

theorem spreading_precise (precise : 0 ≤ precision) (middle : K) :
    Precise precision (spreading precision middle) := by
  intro x
  unfold spreading
  split
  · rw [sub_mul, one_mul, sub_sub_cancel_left, abs_neg, abs_mul, abs_of_nonneg precise]
  · rw [add_mul, one_mul, add_sub_cancel_left, abs_mul, abs_of_nonneg precise]

/-- Every error between that of rounding alone and the bound is the composed error of
a smaller tolerance. -/
theorem exists_tolerance (tolerant : 0 ≤ tolerance ∧ tolerance < 1)
    (precise : 0 ≤ precision ∧ precision < 1) {error : K}
    (above : composedError 0 precision < error) (below : error < composedError tolerance precision) :
    ∃ smaller, 0 < smaller ∧ smaller < tolerance ∧ composedError smaller precision = error := by
  have factor : 0 < 1 - precision := by linarith [precise.2]
  rw [composed_error_eq zero_lt_one precise.2] at above
  rw [composed_error_eq tolerant.2 precise.2] at below
  have lower : 2 * precision < error * (1 - precision) := by
    have scaled := (div_lt_iff₀ (by linarith)).mp above
    linarith
  have upper : error * ((1 - tolerance) * (1 - precision)) < 2 * tolerance + 2 * precision :=
    (lt_div_iff₀ (mul_pos (by linarith [tolerant.2]) factor)).mp below
  have denominator : 0 < 2 + error * (1 - precision) := by linarith [precise.1]
  refine ⟨(error * (1 - precision) - 2 * precision) / (2 + error * (1 - precision)),
    div_pos (by linarith) denominator, ?_, ?_⟩
  · rw [div_lt_iff₀ denominator]
    linarith
  · have rest : 1 - (error * (1 - precision) - 2 * precision) / (2 + error * (1 - precision)) =
        (2 + 2 * precision) / (2 + error * (1 - precision)) := by
      field_simp
      ring
    have positive : 0 < 2 + 2 * precision := by linarith [precise.1]
    have less : (error * (1 - precision) - 2 * precision) / (2 + error * (1 - precision)) < 1 := by
      rw [div_lt_one denominator]
      linarith
    rw [composed_error_eq less precise.2, rest,
      div_eq_iff (mul_pos (div_pos positive denominator) factor).ne']
    field_simp
    ring

/-- No smaller bound holds. -/
theorem composed_error_optimal (tolerant : 0 < tolerance ∧ tolerance < 1)
    (precise : 0 ≤ precision ∧ precision < 1) {bound : K}
    (below : bound < composedError tolerance precision) :
    ∃ printed : K → K, Precise precision printed ∧ ∃ a b r,
      relativeError a r < tolerance ∧ relativeError b r < tolerance ∧
        bound ≤ relativeError (printed a) (printed b) := by
  have factor : 0 < 1 - precision := by linarith [precise.2]
  have growing : composedError 0 precision < composedError tolerance precision := by
    rw [composed_error_eq zero_lt_one precise.2, composed_error_eq tolerant.2 precise.2]
    apply div_lt_div₀ (by linarith [tolerant.1]) _ (by linarith [precise.1, tolerant.1])
      (mul_pos (by linarith [tolerant.2]) factor)
    exact mul_le_mul_of_nonneg_right (by linarith [tolerant.1]) factor.le
  obtain ⟨error, above, below⟩ := exists_between (max_lt below growing)
  obtain ⟨smaller, positive, less, composed⟩ := exists_tolerance ⟨tolerant.1.le, tolerant.2⟩
    precise ((le_max_right _ _).trans_lt above) below
  have remaining : 0 < 1 - smaller := by linarith [tolerant.2]
  have product : 0 < (1 - smaller) * (1 - precision) := mul_pos remaining factor
  let r := 1 / ((1 - smaller) * (1 - precision))
  have large : 1 < r := by
    apply (one_lt_div product).mpr
    have shrunk := mul_lt_mul_of_pos_right (show 1 - smaller < 1 by linarith) factor
    linarith [precise.1]
  have rPositive : 0 < r := zero_lt_one.trans large
  have scale : max 1 |r| = r := by
    rw [abs_of_nonneg (rPositive.le), max_eq_right large.le]
  refine ⟨spreading precision r, spreading_precise precise.1 r, (1 + smaller) * r,
    (1 - smaller) * r, r, ?_, ?_, ?_⟩
  · have apart : (1 + smaller) * r - r = smaller * r := by ring
    rw [relativeError, scale, apart, abs_of_pos (mul_pos positive rPositive),
      mul_div_assoc, div_self rPositive.ne', mul_one]
    exact less
  · have apart : (1 - smaller) * r - r = -(smaller * r) := by ring
    rw [relativeError, scale, apart, abs_neg, abs_of_pos (mul_pos positive rPositive),
      mul_div_assoc, div_self rPositive.ne', mul_one]
    exact less
  · have up : spreading precision r ((1 + smaller) * r) = (1 + precision) * ((1 + smaller) * r) :=
      if_neg (not_le.mpr (by linarith [mul_pos positive rPositive]))
    have down : spreading precision r ((1 - smaller) * r) = 1 := by
      rw [spreading, if_pos (by linarith [mul_pos positive rPositive])]
      dsimp only [r]
      field_simp
    have value : (1 + precision) * ((1 + smaller) * r) - 1 = error := by
      rw [← composed]
      dsimp only [r]
      unfold composedError
      field_simp
    rw [relativeError, up, down, abs_one, max_self, div_one, value]
    exact ((le_max_left _ _).trans above.le).trans (le_abs_self error)

end Optimal

end AmpFormal.RelativeErrors
