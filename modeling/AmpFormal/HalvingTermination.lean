import AmpFormal.HalvingRuns
import Mathlib.Algebra.Order.Ring.Rat
import Mathlib.Tactic.NormNum

/-!
# When successive halving ends

One candidate needs no round. With more, the list shrinks in every round if the
growth factor converts to a divisor of at least 2, and stays as it is if it
converts to 1, as every factor between 1 and 2 does.
-/

namespace AmpFormal.HalvingTermination

open AmpFormal.ExactFloats AmpFormal.HalvingModel AmpFormal.HalvingRuns

set_option autoImplicit false

section Calls

variable {Cfg Score : Type*} [Zero Score]

/-- The call returns after finitely many rounds and divides by zero in none. -/
structure Terminates (tuner : Tuner Cfg Score) (candidates : List Cfg) (minReps maxReps : ℤ)
    (eta : IeeeValue ℚ) : Prop where
  returns : ∃ fuel result,
    successiveHalving tuner fuel candidates minReps maxReps eta = .returned result
  divides : ∀ fuel, successiveHalving tuner fuel candidates minReps maxReps eta ≠ .dividedByZero

variable {tuner : Tuner Cfg Score} {candidates : List Cfg} {minReps maxReps : ℤ}
  {eta : IeeeValue ℚ} {fuel : ℕ} {final : Halving Cfg Score}

theorem start_length (candidates : List Cfg) (minReps : ℤ) :
    (startHalving candidates minReps : Halving Cfg Score).alive.length = candidates.length :=
  List.length_map _

theorem halving_of_nonempty (nonempty : candidates ≠ []) :
    successiveHalving tuner fuel candidates minReps maxReps eta =
      finishHalving tuner maxReps
        (halvingLoop tuner maxReps eta fuel (startHalving candidates minReps)) := by
  unfold successiveHalving
  rw [if_neg (by rwa [List.isEmpty_iff])]

omit [Zero Score] in
theorem finish_returns (tuner : Tuner Cfg Score) (maxReps : ℤ) (left : 1 ≤ final.alive.length) :
    ∃ survivor rest, final.alive = survivor :: rest ∧
      finishHalving tuner maxReps (.returned final) =
        .returned
          { best := survivor.cfg
            bestScore := tuner.measure final.measured.length survivor.cfg maxReps
            totalEvals := final.totalEvals + maxReps } := by
  cases survivors : final.alive with
  | nil =>
      rw [survivors, List.length_nil] at left
      omega
  | cons survivor rest =>
      refine ⟨survivor, rest, rfl, ?_⟩
      unfold finishHalving
      dsimp only
      rw [survivors]

omit [Zero Score] in
theorem finish_divided {outcome : Outcome (Halving Cfg Score)}
    (divided : finishHalving tuner maxReps outcome = .dividedByZero) :
    outcome = .dividedByZero := by
  cases outcome with
  | returned state =>
      unfold finishHalving at divided
      dsimp only at divided
      split at divided <;> cases divided
  | dividedByZero => rfl
  | _ => cases divided

theorem single_terminates {candidate : Cfg} :
    Terminates tuner [candidate] minReps maxReps eta := by
  have nonempty : [candidate] ≠ [] := List.cons_ne_nil _ _
  have ended (fuel : ℕ) : halvingLoop tuner maxReps eta (fuel + 1)
      (startHalving [candidate] minReps) = .returned (startHalving [candidate] minReps) := rfl
  constructor
  · have left : 1 ≤ (startHalving [candidate] minReps : Halving Cfg Score).alive.length := le_refl 1
    obtain ⟨survivor, rest, -, finished⟩ := finish_returns tuner maxReps left
    rw [← ended 0, ← halving_of_nonempty nonempty] at finished
    exact ⟨1, _, finished⟩
  · intro fuel divided
    rw [halving_of_nonempty nonempty] at divided
    cases fuel with
    | zero => cases divided
    | succ fuel =>
        rw [ended] at divided
        cases divided

variable [LinearOrder Score]

theorem halving_returns (sorts : Sorts tuner.sort) (nonempty : candidates ≠ [])
    (divisor : 2 ≤ tuner.toSize eta) (minReps maxReps : ℤ) :
    ∃ final survivor,
      halvingLoop tuner maxReps eta candidates.length (startHalving candidates minReps) =
        .returned final ∧ final.alive = [survivor] ∧
      successiveHalving tuner candidates.length candidates minReps maxReps eta =
        .returned
          { best := survivor.cfg
            bestScore := tuner.measure final.measured.length survivor.cfg maxReps
            totalEvals := final.totalEvals + maxReps } := by
  have positive : 1 ≤ candidates.length := List.length_pos_of_ne_nil nonempty
  have length : (startHalving candidates minReps : Halving Cfg Score).alive.length =
      candidates.length := start_length candidates minReps
  have nonemptyStart : 1 ≤ (startHalving candidates minReps : Halving Cfg Score).alive.length := by
    rw [length]
    exact positive
  obtain ⟨final, ended, left⟩ := loop_returns sorts divisor maxReps length.le nonemptyStart
  obtain ⟨-, single⟩ := loop_invariant (motive := fun _ => True)
    (fun _ _ _ _ _ => trivial) trivial ended
  obtain ⟨survivor, rest, survivors, finished⟩ := finish_returns tuner maxReps left
  have alone : rest = [] := by
    rw [survivors, List.length_cons] at single
    exact List.length_eq_zero_iff.mp (by omega)
  rw [alone] at survivors
  refine ⟨final, survivor, ended, survivors, ?_⟩
  rw [halving_of_nonempty nonempty, ended, finished]

end Calls

/-! ## A tuner of numbered configurations -/

/-- Conversions that truncate, with the values x86-64 gives out of range. -/
def numberedTuner (score : ℕ → ℚ) : Tuner ℕ ℚ where
  measure := fun _ c _ => score c
  sort := fun items => items.mergeSort fun a b => decide (a.score ≤ b.score)
  toSize := fun
    | .finite q => if q < 2 ^ 64 then ⌊q⌋.toNat else 0
    | _ => 0
  growReps := fun reps eta =>
    match eta with
    | .finite q =>
        if -2 ^ 31 ≤ reps * q ∧ reps * q < 2 ^ 31 then
          if 0 ≤ reps * q then ⌊reps * q⌋ else ⌈reps * q⌉
        else -2 ^ 31
    | _ => -2 ^ 31

theorem numbered_sorts (score : ℕ → ℚ) : Sorts (numberedTuner score).sort where
  perm := fun items => List.mergeSort_perm items _
  sorted := by
    intro items
    have transitive (a b c : Item ℕ ℚ) (first : decide (a.score ≤ b.score) = true)
        (second : decide (b.score ≤ c.score) = true) : decide (a.score ≤ c.score) = true :=
      decide_eq_true ((of_decide_eq_true first).trans (of_decide_eq_true second))
    have total (a b : Item ℕ ℚ) :
        (decide (a.score ≤ b.score) || decide (b.score ≤ a.score)) = true := by
      simpa using le_total a.score b.score
    exact (List.pairwise_mergeSort transitive total items).imp of_decide_eq_true

theorem numbered_converts (score : ℕ → ℚ) :
    Converts (numberedTuner score).toSize (numberedTuner score).growReps where
  truncates := fun q _ below => if_pos below
  multiplies := by
    intro reps n lower upper
    have product : (reps : ℚ) * (n : ℚ) = ((reps * n : ℤ) : ℚ) := by push_cast; rfl
    have within : -2 ^ 31 ≤ (reps : ℚ) * (n : ℚ) ∧ (reps : ℚ) * (n : ℚ) < 2 ^ 31 := by
      rw [product]
      exact_mod_cast And.intro lower upper
    refine (if_pos within).trans ?_
    rw [product, Int.floor_intCast, Int.ceil_intCast, ite_self]

/-! ## Termination -/

section Termination

variable {Cfg Score : Type*} {tuner : Tuner Cfg Score} {candidates : List Cfg}

/-- In range the divisor is at least 2 exactly if the growth factor is. -/
theorem two_le_divisor_iff (converts : Converts tuner.toSize tuner.growReps) {q : ℚ}
    (nonneg : 0 ≤ q) (range : q < 2 ^ 64) : 2 ≤ tuner.toSize (.finite q) ↔ 2 ≤ q := by
  have floor : 2 ≤ q ↔ 2 ≤ ⌊q⌋ := by
    rw [Int.le_floor]
    norm_cast
  rw [converts.truncates q nonneg range, floor]
  omega

variable [Zero Score] [LinearOrder Score]

/-- The call returns exactly for one candidate or a divisor of at least 2; below 2^64
the divisor is at least 2 exactly if the growth factor is. -/
theorem halving_terminates_iff (sorts : Sorts tuner.sort)
    (converts : Converts tuner.toSize tuner.growReps) (nonempty : candidates ≠ [])
    (minReps maxReps : ℤ) (eta : IeeeValue ℚ) :
    (Terminates tuner candidates minReps maxReps eta ↔
      candidates.length = 1 ∨ 2 ≤ tuner.toSize eta) ∧
    ∀ q : ℚ, eta = .finite q → 1 < q → q < 2 ^ 64 → (2 ≤ tuner.toSize eta ↔ 2 ≤ q) := by
  have positive : 1 ≤ candidates.length := List.length_pos_of_ne_nil nonempty
  have length : (startHalving candidates minReps : Halving Cfg Score).alive.length =
      candidates.length := start_length candidates minReps
  refine ⟨⟨fun terminates => ?_, fun condition => ?_⟩, fun q factor above below => ?_⟩
  · by_contra failing
    obtain ⟨several, small⟩ := not_or.mp failing
    have more : 1 < (startHalving candidates minReps : Halving Cfg Score).alive.length := by omega
    obtain ⟨fuel, result, returned⟩ := terminates.returns
    rcases Nat.eq_zero_or_pos (tuner.toSize eta) with zero | nonzero
    · have divided := terminates.divides 1
      rw [halving_of_nonempty nonempty, loop_divides_by_zero zero more] at divided
      exact divided rfl
    · have one : tuner.toSize eta = 1 := by omega
      rw [halving_of_nonempty nonempty, loop_runs_on sorts one more] at returned
      cases returned
  · rcases condition with single | divisor
    · obtain ⟨candidate, rfl⟩ := List.length_eq_one_iff.mp single
      exact single_terminates
    · obtain ⟨final, survivor, -, -, returned⟩ :=
        halving_returns sorts nonempty divisor minReps maxReps
      refine ⟨⟨_, _, returned⟩, fun fuel divided => ?_⟩
      have nonzero : tuner.toSize eta ≠ 0 := by omega
      rw [halving_of_nonempty nonempty] at divided
      exact loop_never_divides nonzero fuel (finish_divided divided)
  · rw [factor]
    exact two_le_divisor_iff converts (by linarith) below

end Termination

theorem halving_terminates_iff_three :
    Terminates (numberedTuner fun c => c) [4, 7, 5] 1 32 (.finite 2) :=
  (halving_terminates_iff (numbered_sorts _) (numbered_converts _) (by decide) 1 32 _).1.mpr
    (.inr (by decide +kernel))

/-- Two candidates and the factor 3/2: every round keeps both. -/
theorem small_factor_never_ends :
    ¬Terminates (numberedTuner fun _ => 0) [0, 1] 1 32 (.finite (3 / 2)) := by
  intro terminates
  obtain ⟨fuel, result, returned⟩ := terminates.returns
  have divisor : (numberedTuner fun _ => 0).toSize (.finite (3 / 2)) = 1 := by decide +kernel
  rw [halving_of_nonempty (by decide), loop_runs_on (numbered_sorts _) divisor (by decide)]
    at returned
  cases returned

end AmpFormal.HalvingTermination
