import AmpFormal.HalvingTermination
import Mathlib.Algebra.BigOperators.Intervals
import Mathlib.Algebra.Order.BigOperators.Group.Finset
import Mathlib.Data.Nat.Log

/-!
# The budget of successive halving

With a growth factor of 2 the list halves, rounding down, while the repetitions
double up to their limit. The number of rounds fixes both, so a round costs at
most as much as the first one, and there are as many rounds as halvings.
-/

namespace AmpFormal.HalvingBudget

open AmpFormal.ExactFloats AmpFormal.HalvingModel AmpFormal.HalvingRuns
open AmpFormal.HalvingTermination

set_option autoImplicit false

def repsAt (minReps maxReps : ℤ) : ℕ → ℤ
  | 0 => minReps
  | r + 1 => min maxReps (repsAt minReps maxReps r * 2)

/-- The repetitions measured in the first `rounds` rounds over `N` candidates. -/
def roundEvals (N : ℕ) (minReps maxReps : ℤ) (rounds : ℕ) : ℤ :=
  ∑ r ∈ Finset.range rounds, (N / 2 ^ r : ℕ) * repsAt minReps maxReps r

section Schedule

variable {N r rounds : ℕ} {minReps maxReps : ℤ}

theorem reps_positive (minPositive : 1 ≤ minReps) (maxPositive : 1 ≤ maxReps) (r : ℕ) :
    1 ≤ repsAt minReps maxReps r := by
  induction r with
  | zero => exact minPositive
  | succ r ih => exact le_min maxPositive (by omega)

theorem reps_at_most_doubled (r : ℕ) : repsAt minReps maxReps r ≤ minReps * 2 ^ r := by
  induction r with
  | zero => simp [repsAt]
  | succ r ih =>
      have doubled : minReps * 2 ^ (r + 1) = minReps * 2 ^ r * 2 := by ring
      exact (min_le_right _ _).trans (by omega)

/-- Halving the list makes up for doubling the repetitions. -/
theorem round_cost_le (minPositive : 1 ≤ minReps) (r : ℕ) :
    ((N / 2 ^ r : ℕ) : ℤ) * repsAt minReps maxReps r ≤ N * minReps := by
  have halved : ((N / 2 ^ r : ℕ) : ℤ) * 2 ^ r ≤ N := by
    exact_mod_cast Nat.div_mul_le_self N (2 ^ r)
  calc ((N / 2 ^ r : ℕ) : ℤ) * repsAt minReps maxReps r
      ≤ (N / 2 ^ r : ℕ) * (minReps * 2 ^ r) :=
        mul_le_mul_of_nonneg_left (reps_at_most_doubled r) (Int.natCast_nonneg _)
    _ = (N / 2 ^ r : ℕ) * 2 ^ r * minReps := by ring
    _ ≤ N * minReps := mul_le_mul_of_nonneg_right halved (by omega)

theorem round_evals_le (minPositive : 1 ≤ minReps) (rounds : ℕ) :
    roundEvals N minReps maxReps rounds ≤ N * minReps * rounds := by
  have each : ∀ r ∈ Finset.range rounds,
      ((N / 2 ^ r : ℕ) : ℤ) * repsAt minReps maxReps r ≤ N * minReps :=
    fun r _ => round_cost_le minPositive r
  have bounded := Finset.sum_le_card_nsmul (Finset.range rounds) _ _ each
  rw [Finset.card_range, nsmul_eq_mul, mul_comm] at bounded
  exact bounded

theorem round_cost_le_evals (minPositive : 1 ≤ minReps) (maxPositive : 1 ≤ maxReps)
    (earlier : r < rounds) :
    ((N / 2 ^ r : ℕ) : ℤ) * repsAt minReps maxReps r ≤ roundEvals N minReps maxReps rounds := by
  unfold roundEvals
  apply Finset.single_le_sum (f := fun r => ((N / 2 ^ r : ℕ) : ℤ) * repsAt minReps maxReps r)
  · intro other _
    have positive := reps_positive minPositive maxPositive other
    exact mul_nonneg (Int.natCast_nonneg _) (by omega)
  · exact Finset.mem_range.mpr earlier

theorem several_iff (nonempty : N ≠ 0) : 1 < N / 2 ^ r ↔ r < Nat.log 2 N := by
  have power : 0 < 2 ^ r := Nat.two_pow_pos r
  have doubled : 2 ^ (r + 1) = 2 * 2 ^ r := by ring
  rw [Nat.lt_iff_add_one_le, Nat.le_div_iff_mul_le power, ← doubled,
    ← Nat.le_log_iff_pow_le Nat.one_lt_two nonempty]
  exact Iff.rfl

end Schedule

/-! ## Runs -/

variable {Cfg Score : Type*} {tuner : Tuner Cfg Score}
  {minReps maxReps : ℤ} {N : ℕ} {before after : Halving Cfg Score}

/-- The number of rounds determines the length of the list and the repetitions. -/
structure Scheduled (N : ℕ) (minReps maxReps : ℤ) (state : Halving Cfg Score) : Prop where
  within : state.rounds ≤ Nat.log 2 N
  length : state.alive.length = N / 2 ^ state.rounds
  reps : state.reps = repsAt minReps maxReps state.rounds
  totalEvals : state.totalEvals = roundEvals N minReps maxReps state.rounds
  measured : state.measured.sum = state.totalEvals

theorem divisor_two (converts : Converts tuner.toSize tuner.growReps) :
    tuner.toSize (.finite 2) = 2 := by
  rw [converts.truncates 2 (by norm_num) (by norm_num), Int.floor_ofNat]
  rfl

theorem scheduled_rounds {state : Halving Cfg Score} (nonempty : N ≠ 0)
    (scheduled : Scheduled N minReps maxReps state) (single : state.alive.length ≤ 1) :
    state.rounds = Nat.log 2 N := by
  have last : ¬state.rounds < Nat.log 2 N := by
    rw [← several_iff nonempty, ← scheduled.length]
    omega
  exact Nat.le_antisymm scheduled.within (Nat.le_of_not_lt last)

theorem start_scheduled [Zero Score] (candidates : List Cfg) :
    Scheduled candidates.length minReps maxReps
      (startHalving candidates minReps : Halving Cfg Score) where
  within := Nat.zero_le _
  length := by
    rw [start_length]
    exact (Nat.div_one _).symm
  reps := rfl
  totalEvals := rfl
  measured := rfl

variable [LinearOrder Score]

theorem halve_scheduled (sorts : Sorts tuner.sort)
    (converts : Converts tuner.toSize tuner.growReps) (nonempty : N ≠ 0)
    (minPositive : 1 ≤ minReps) (maxPositive : 1 ≤ maxReps)
    (sums : roundEvals N minReps maxReps (Nat.log 2 N) < 2 ^ 31)
    (several : 1 < before.alive.length) (scheduled : Scheduled N minReps maxReps before)
    (moved : halve tuner maxReps (.finite 2) before = some after) :
    Scheduled N minReps maxReps after := by
  have effect := halve_effect sorts moved
  have divisor := divisor_two converts
  have length := effect.length sorts several
  have left : before.rounds < Nat.log 2 N := by
    rw [← several_iff nonempty, ← scheduled.length]
    exact several
  have positive := reps_positive minPositive maxPositive before.rounds
  -- at least two items are measured, so doubling the repetitions stays within the sum
  have doubled : repsAt minReps maxReps before.rounds * 2 < 2 ^ 31 := by
    have cost := round_cost_le_evals (N := N) minPositive maxPositive left
    rw [← scheduled.length] at cost
    have two : (2 : ℤ) ≤ before.alive.length := by exact_mod_cast several
    nlinarith
  have grown : tuner.growReps before.reps (.finite 2) =
      repsAt minReps maxReps before.rounds * 2 := by
    rw [scheduled.reps]
    exact converts.multiplies _ 2 (by omega) doubled
  constructor
  · rw [effect.rounds]
    exact left
  · rw [length, divisor, scheduled.length, effect.rounds, pow_succ, ← Nat.div_div_eq_div_mul]
    rw [scheduled.length] at several
    omega
  · rw [effect.reps, grown, effect.rounds]
    rfl
  · unfold roundEvals
    rw [effect.totalEvals, effect.rounds, Finset.sum_range_succ, scheduled.totalEvals,
      scheduled.length, scheduled.reps]
    rfl
  · rw [effect.measured, effect.totalEvals, List.sum_append, scheduled.measured,
      List.sum_replicate, nsmul_eq_mul]

/-- The loop halves as often as it can, and what it measures stays within the budget. -/
theorem halving_budget [Zero Score] (sorts : Sorts tuner.sort)
    (converts : Converts tuner.toSize tuner.growReps) {candidates : List Cfg}
    (nonempty : candidates ≠ []) (minPositive : 1 ≤ minReps) (maxPositive : 1 ≤ maxReps)
    (sums : roundEvals candidates.length minReps maxReps (Nat.log 2 candidates.length) + maxReps <
      2 ^ 31) :
    ∃ fuel final result,
      halvingLoop tuner maxReps (.finite 2) fuel (startHalving candidates minReps) =
        .returned final ∧ final.rounds = Nat.log 2 candidates.length ∧
      successiveHalving tuner fuel candidates minReps maxReps (.finite 2) = .returned result ∧
      result.totalEvals = (final.measured ++ [maxReps]).sum ∧
      result.totalEvals = roundEvals candidates.length minReps maxReps
        (Nat.log 2 candidates.length) + maxReps ∧
      result.totalEvals ≤
        candidates.length * minReps * Nat.log 2 candidates.length + maxReps := by
  have positive : candidates.length ≠ 0 := (List.length_pos_of_ne_nil nonempty).ne'
  have within : roundEvals candidates.length minReps maxReps (Nat.log 2 candidates.length) <
      2 ^ 31 := by omega
  obtain ⟨final, survivor, ended, -, returned⟩ :=
    halving_returns sorts nonempty (divisor_two converts).ge minReps maxReps
  obtain ⟨scheduled, single⟩ := loop_invariant
    (fun before after several prior moved =>
      halve_scheduled sorts converts positive minPositive maxPositive within several prior moved)
    (start_scheduled candidates) ended
  have rounds := scheduled_rounds positive scheduled single
  have budget : roundEvals candidates.length minReps maxReps final.rounds ≤
      candidates.length * minReps * final.rounds := round_evals_le minPositive final.rounds
  have total := scheduled.totalEvals
  rw [rounds] at budget total
  refine ⟨_, final, _, ended, rounds, returned, ?_, ?_, ?_⟩
  · rw [List.sum_append, scheduled.measured, List.sum_singleton]
  · exact congrArg (· + maxReps) total
  · rw [← total] at budget
    exact Int.add_le_add_right budget maxReps

/-- Seven candidates, and a limit that the repetitions pass in the first round. -/
theorem halving_budget_seven :
    ∃ fuel final result,
      halvingLoop (numberedTuner fun c => c) 2 (.finite 2) fuel
        (startHalving [6, 5, 4, 3, 2, 1, 0] 3) = .returned final ∧ final.rounds = 2 ∧
      successiveHalving (numberedTuner fun c => c) fuel [6, 5, 4, 3, 2, 1, 0] 3 2 (.finite 2) =
        .returned result ∧ result.totalEvals = (final.measured ++ [2]).sum ∧
      result.totalEvals = 29 ∧ result.totalEvals ≤ 44 :=
  halving_budget (numbered_sorts _) (numbered_converts _) (by decide) (by decide) (by decide)
    (by decide +kernel)

end AmpFormal.HalvingBudget
