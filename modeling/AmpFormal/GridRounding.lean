import Mathlib.Algebra.Order.Round
import Mathlib.Order.Monotone.Basic
import Mathlib.Tactic.FieldSimp
import Mathlib.Tactic.Linarith
import Mathlib.Tactic.Ring

/-!
# Rounding to a grid

A grid is a strictly increasing sequence. Nearest points follow the order of what
they are nearest to, whatever is done with ties. On a stretch of evenly spaced
points the nearest one is found by rounding the number of steps, and the points
outside of the stretch are further away than its ends.
-/

namespace AmpFormal.GridRounding

set_option autoImplicit false

variable {K : Type*} [Field K] [LinearOrder K] {grid : ℕ → K} {x y : K} {c d : ℕ}

def Nearest (grid : ℕ → K) (x : K) (c : ℕ) : Prop := ∀ d, |x - grid c| ≤ |x - grid d|

variable [IsStrictOrderedRing K]

/-- Nearer to the lower one of two points is what lies at or below their middle. -/
theorem below_middle {low high : K} (less : low < high) (nearer : |x - low| ≤ |x - high|) :
    2 * x ≤ low + high := by
  by_contra above
  have right : |x - low| = x - low := abs_of_pos (by linarith)
  rw [right] at nearer
  rcases le_abs.mp nearer with upper | lower <;> linarith

theorem nearer_below {low high : K} (less : low < high) (below : 2 * x ≤ low + high) :
    |x - low| ≤ |x - high| := by
  have right : high - x ≤ |x - high| := by
    rw [← neg_sub x high]
    exact neg_le_abs _
  have left : |x - low| ≤ high - x := abs_le.mpr ⟨by linarith, by linarith⟩
  exact left.trans right

theorem above_middle {low high : K} (less : low < high) (nearer : |x - high| ≤ |x - low|) :
    low + high ≤ 2 * x := by
  by_contra below
  have left : |x - high| = high - x := by
    rw [abs_sub_comm]
    exact abs_of_pos (by linarith)
  rw [left] at nearer
  rcases le_abs.mp nearer with upper | lower <;> linarith

theorem nearest_mono (increasing : StrictMono grid) (first : Nearest grid x c)
    (second : Nearest grid y d) (less : x < y) : c ≤ d := by
  by_contra crossed
  have apart : grid d < grid c := increasing (Nat.lt_of_not_le crossed)
  have upper := above_middle apart (first d)
  have lower := below_middle apart (second c)
  linarith

theorem nearest_le (increasing : StrictMono grid) (nearest : Nearest grid x c)
    (bound : x ≤ grid d) : c ≤ d := by
  by_contra crossed
  have apart : grid d < grid c := increasing (Nat.lt_of_not_le crossed)
  have := above_middle apart (nearest d)
  linarith

theorem le_nearest (increasing : StrictMono grid) (nearest : Nearest grid x c)
    (bound : grid d ≤ x) : d ≤ c := by
  by_contra crossed
  have apart : grid c < grid d := increasing (Nat.lt_of_not_le crossed)
  have := below_middle apart (nearest d)
  linarith

/-! ## Evenly spaced stretches -/

/-- `count` steps of one size from the point with index `start` on. -/
structure EvenlySpaced (grid : ℕ → K) (start count : ℕ) (step : K) : Prop where
  positive : 0 < step
  spaced : ∀ j ≤ count, grid (start + j) = grid start + j * step

variable {start count : ℕ} {step : K}

theorem EvenlySpaced.increases (even : EvenlySpaced grid start count step) {j : ℕ}
    (inside : j < count) : grid (start + j) < grid (start + j + 1) := by
  have next := even.spaced (j + 1) inside
  have here := even.spaced j inside.le
  rw [← Nat.add_assoc] at next
  rw [here, next, Nat.cast_succ, add_one_mul, ← add_assoc]
  exact lt_add_of_pos_right _ even.positive

theorem EvenlySpaced.distance (even : EvenlySpaced grid start count step) {j : ℕ}
    (inside : j ≤ count) :
    |x - grid (start + j)| = |(x - grid start) / step - j| * step := by
  have nonzero := even.positive.ne'
  have scaled : x - grid (start + j) = ((x - grid start) / step - j) * step := by
    rw [even.spaced j inside]
    field_simp
    ring
  rw [scaled, abs_mul, abs_of_pos even.positive]

theorem EvenlySpaced.nearest (even : EvenlySpaced grid start count step)
    (increasing : StrictMono grid) (lower : grid start ≤ x) (upper : x ≤ grid (start + count))
    {m : ℕ} (inside : m ≤ count)
    (rounded : ∀ j : ℕ, |(x - grid start) / step - m| ≤ |(x - grid start) / step - j|) :
    Nearest grid x (start + m) := by
  have within : ∀ j ≤ count, |x - grid (start + m)| ≤ |x - grid (start + j)| := by
    intro j small
    rw [even.distance inside, even.distance small]
    exact mul_le_mul_of_nonneg_right (rounded j) even.positive.le
  intro d
  rcases Nat.lt_or_ge d start with below | above
  · have further : grid d ≤ grid start := increasing.monotone below.le
    have first := within 0 (Nat.zero_le _)
    rw [Nat.add_zero, abs_of_nonneg (sub_nonneg.mpr lower)] at first
    exact (first.trans (sub_le_sub_left further x)).trans (le_abs_self _)
  · obtain ⟨j, rfl⟩ := Nat.exists_eq_add_of_le above
    rcases Nat.le_total j count with small | large
    · exact within j small
    · have further : grid (start + count) ≤ grid (start + j) :=
        increasing.monotone (Nat.add_le_add_left large start)
      have last := within count (Nat.le_refl _)
      rw [abs_sub_comm x (grid (start + count)), abs_of_nonneg (sub_nonneg.mpr upper)] at last
      rw [abs_sub_comm x (grid (start + j))]
      exact (last.trans (sub_le_sub_right further x)).trans (le_abs_self _)

/-! ## Rounding a number of steps -/

variable [FloorRing K] {t : K}

theorem round_nonneg (nonneg : 0 ≤ t) : 0 ≤ round t := by
  rw [round_eq]
  exact Int.floor_nonneg.mpr (by linarith)

theorem round_cast (nonneg : 0 ≤ t) : ((round t).toNat : K) = (round t : ℤ) := by
  rw [← Int.cast_natCast, Int.toNat_of_nonneg (round_nonneg nonneg)]

theorem round_le_count (bound : t ≤ count) : (round t).toNat ≤ count := by
  have upper : round t < (count : ℤ) + 1 := by
    rw [round_eq, Int.floor_lt]
    push_cast
    linarith
  omega

theorem round_nearest (nonneg : 0 ≤ t) (j : ℕ) : |t - (round t).toNat| ≤ |t - j| := by
  rw [round_cast nonneg]
  have nearest := round_le t (j : ℤ)
  rwa [Int.cast_natCast] at nearest

/-- On a stretch the nearest point of what lies in it is `round` of the steps to it. -/
theorem EvenlySpaced.nearest_round (even : EvenlySpaced grid start count step)
    (increasing : StrictMono grid) (lower : grid start ≤ x) (upper : x ≤ grid (start + count)) :
    Nearest grid x (start + (round ((x - grid start) / step)).toNat) := by
  have nonneg : 0 ≤ (x - grid start) / step :=
    div_nonneg (sub_nonneg.mpr lower) even.positive.le
  have bound : (x - grid start) / step ≤ count := by
    rw [div_le_iff₀ even.positive, sub_le_iff_le_add, add_comm, ← even.spaced count le_rfl]
    exact upper
  exact even.nearest increasing lower upper (round_le_count bound) (round_nearest nonneg)

end AmpFormal.GridRounding
