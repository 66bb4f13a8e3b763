import Mathlib.Analysis.SpecialFunctions.Log.Basic

/-!
# Softmax averages kept while keys arrive

A running average over the keys seen so far is kept with a shift `m` and the sum `l`
of the shifted exponentials. Keys arrive in groups. The shift may change to any other
number with each group, since both the sum and the average are rescaled with it; the
average and `m + log l` do not depend on the shifts that were chosen.
-/

namespace AmpFormal.OnlineSoftmax

set_option autoImplicit false

variable {Key : Type*} (s v : Key → ℝ)

/-- The sum of the exponentials of the scores, shifted by `m`. -/
noncomputable def mass (m : ℝ) (keys : Finset Key) : ℝ := ∑ key ∈ keys, Real.exp (s key - m)

noncomputable def weighted (m : ℝ) (keys : Finset Key) : ℝ :=
  ∑ key ∈ keys, Real.exp (s key - m) * v key

structure Keeps (keys : Finset Key) (m l o : ℝ) : Prop where
  mass : l = mass s m keys
  average : o = weighted s v m keys / l

theorem mass_nonneg (m : ℝ) (keys : Finset Key) : 0 ≤ mass s m keys :=
  Finset.sum_nonneg fun key _ => (Real.exp_pos (s key - m)).le

theorem mass_pos (m : ℝ) {keys : Finset Key} (nonempty : keys.Nonempty) : 0 < mass s m keys :=
  Finset.sum_pos (fun key _ => Real.exp_pos (s key - m)) nonempty

theorem mass_shift (m m' : ℝ) (keys : Finset Key) :
    Real.exp (m - m') * mass s m keys = mass s m' keys := by
  rw [mass, mass, Finset.mul_sum]
  apply Finset.sum_congr rfl
  intro key _
  rw [← Real.exp_add]
  congr 1
  ring

theorem weighted_shift (m m' : ℝ) (keys : Finset Key) :
    Real.exp (m - m') * weighted s v m keys = weighted s v m' keys := by
  rw [weighted, weighted, Finset.mul_sum]
  apply Finset.sum_congr rfl
  intro key _
  rw [← mul_assoc, ← Real.exp_add]
  congr 2
  ring

variable {s v} {keys : Finset Key} {m l o : ℝ}

theorem keeps_empty (m : ℝ) : Keeps s v ∅ m 0 0 := by
  constructor
  · simp [OnlineSoftmax.mass]
  · simp [weighted]

theorem keeps_product (kept : Keeps s v keys m l o) : l * o = weighted s v m keys := by
  obtain rfl | nonempty := keys.eq_empty_or_nonempty
  · have none_seen : l = 0 := by
      rw [kept.mass]
      exact Finset.sum_empty
    rw [none_seen, zero_mul]
    exact Finset.sum_empty.symm
  · have positive : 0 < l := by
      rw [kept.mass]
      exact mass_pos s m nonempty
    rw [kept.average, mul_div_cancel₀ _ positive.ne']

section Absorb

variable [DecidableEq Key] {group : Finset Key}

/-- A group of new keys arrives, and the shift changes to `m'`. The factor `alpha` only
matters when there is something to rescale. -/
theorem keeps_absorb (kept : Keeps s v keys m l o) (fresh : Disjoint keys group) (m' : ℝ)
    {alpha : ℝ} (rescales : alpha * l = Real.exp (m - m') * l) :
    let l' := alpha * l + mass s m' group
    Keeps s v (keys ∪ group) m' l'
      ((if l' > 0 then l * alpha / l' else 0) * o +
        (if l' > 0 then 1 / l' else 0) * weighted s v m' group) := by
  intro l'
  have total : l' = mass s m' (keys ∪ group) := by
    change alpha * l + mass s m' group = _
    rw [rescales, kept.mass, mass_shift, mass, mass, mass, Finset.sum_union fresh]
  refine ⟨total, ?_⟩
  have sums : l * alpha * o + weighted s v m' group = weighted s v m' (keys ∪ group) := by
    calc l * alpha * o + weighted s v m' group
        = alpha * l * o + weighted s v m' group := by rw [mul_comm l alpha]
      _ = Real.exp (m - m') * (l * o) + weighted s v m' group := by rw [rescales, mul_assoc]
      _ = weighted s v m' keys + weighted s v m' group := by
          rw [keeps_product kept, weighted_shift]
      _ = weighted s v m' (keys ∪ group) := by
          rw [weighted, weighted, weighted, Finset.sum_union fresh]
  by_cases positive : l' > 0
  · rw [if_pos positive, if_pos positive, ← sums]
    ring
  · have zero : l' = 0 := le_antisymm (not_lt.mp positive) (total ▸ mass_nonneg s m' _)
    rw [if_neg positive, if_neg positive, zero, zero_mul, zero_mul, add_zero, div_zero]

end Absorb

/-- The average is the softmax average, whatever the shift. -/
theorem keeps_softmax (kept : Keeps s v keys m l o) :
    o = (∑ key ∈ keys, Real.exp (s key) * v key) / ∑ key ∈ keys, Real.exp (s key) := by
  have masses := mass_shift s m 0 keys
  have weights := weighted_shift s v m 0 keys
  have scale : Real.exp (m - 0) ≠ 0 := (Real.exp_pos _).ne'
  rw [kept.average, kept.mass, ← mul_div_mul_left _ _ scale, masses, weights]
  simp only [mass, weighted, sub_zero]

theorem keeps_log_sum_exp (kept : Keeps s v keys m l o) (nonempty : keys.Nonempty) :
    m + Real.log l = Real.log (∑ key ∈ keys, Real.exp (s key)) := by
  have masses := mass_shift s m 0 keys
  have positive := mass_pos s m nonempty
  have whole : ∑ key ∈ keys, Real.exp (s key) = Real.exp m * mass s m keys := by
    rw [sub_zero] at masses
    rw [masses]
    simp only [mass, sub_zero]
  rw [whole, Real.log_mul (Real.exp_pos m).ne' positive.ne', Real.log_exp, kept.mass]

end AmpFormal.OnlineSoftmax
