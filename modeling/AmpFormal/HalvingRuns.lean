import AmpFormal.HalvingModel

/-!
# Runs of the halving loop

What one round does to the variables, and from it what holds when the loop ends.
A divisor of at least 2 shrinks the list in every round; a divisor of 1 never does,
and a divisor of 0 ends the program.
-/

namespace AmpFormal.HalvingRuns

open AmpFormal.ExactFloats AmpFormal.HalvingModel

set_option autoImplicit false

variable {Cfg Score : Type*} {tuner : Tuner Cfg Score} {maxReps reps : ℤ} {eta : IeeeValue ℚ}

/-! ## One round -/

theorem measure_alive_effect (tuner : Tuner Cfg Score) (reps : ℤ) (alive : List (Item Cfg Score))
    (totalEvals : ℤ) (measured : List ℤ) :
    (measureAlive tuner reps alive totalEvals measured).1.map Item.cfg = alive.map Item.cfg ∧
    (measureAlive tuner reps alive totalEvals measured).2.1 = totalEvals + alive.length * reps ∧
    (measureAlive tuner reps alive totalEvals measured).2.2 =
      measured ++ List.replicate alive.length reps := by
  induction alive generalizing totalEvals measured with
  | nil => simp [measureAlive]
  | cons it rest ih =>
      obtain ⟨configurations, evals, calls⟩ := ih (totalEvals + reps) (measured ++ [reps])
      unfold measureAlive
      refine ⟨?_, ?_, ?_⟩
      · rw [List.map_cons, List.map_cons, configurations]
      · dsimp only
        rw [evals, List.length_cons]
        push_cast
        ring
      · dsimp only
        rw [calls, List.length_cons, List.replicate_succ, List.append_assoc]
        rfl

theorem measure_alive_length (tuner : Tuner Cfg Score) (reps : ℤ)
    (alive : List (Item Cfg Score)) (totalEvals : ℤ) (measured : List ℤ) :
    (measureAlive tuner reps alive totalEvals measured).1.length = alive.length := by
  have configurations := (measure_alive_effect tuner reps alive totalEvals measured).1
  have lengths := congrArg List.length configurations
  rwa [List.length_map, List.length_map] at lengths

structure RoundEffect (tuner : Tuner Cfg Score) (maxReps : ℤ) (eta : IeeeValue ℚ)
    (before after : Halving Cfg Score) : Prop where
  alive : after.alive = (tuner.sort (measureAlive tuner before.reps before.alive
    before.totalEvals before.measured).1).take (max 1 (before.alive.length / tuner.toSize eta))
  totalEvals : after.totalEvals = before.totalEvals + before.alive.length * before.reps
  reps : after.reps = min maxReps (tuner.growReps before.reps eta)
  measured : after.measured = before.measured ++ List.replicate before.alive.length before.reps
  rounds : after.rounds = before.rounds + 1

variable {before after state : Halving Cfg Score}

theorem halve_divides (divisor : tuner.toSize eta ≠ 0) (maxReps : ℤ)
    (before : Halving Cfg Score) : ∃ after, halve tuner maxReps eta before = some after := by
  unfold halve
  dsimp only
  rw [if_neg divisor]
  exact ⟨_, rfl⟩

/-! ## The loop -/

/-- What rounds preserve holds when the loop ends, and then one item is left at most. -/
theorem loop_invariant {motive : Halving Cfg Score → Prop}
    (preserved : ∀ before after, 1 < before.alive.length → motive before →
      halve tuner maxReps eta before = some after → motive after)
    {fuel : ℕ} {final : Halving Cfg Score} (initial : motive state)
    (ended : halvingLoop tuner maxReps eta fuel state = .returned final) :
    motive final ∧ final.alive.length ≤ 1 := by
  induction fuel generalizing state with
  | zero => cases ended
  | succ fuel ih =>
      unfold halvingLoop at ended
      split at ended
      case isTrue several =>
        cases moved : halve tuner maxReps eta state with
        | none =>
            rw [moved] at ended
            cases ended
        | some next =>
            have kept := preserved state next several initial moved
            rw [moved] at ended
            dsimp only at ended
            split at ended
            case isTrue last =>
              cases ended
              exact ⟨kept, last.2.le⟩
            case isFalse => exact ih kept ended
      case isFalse single =>
        cases ended
        exact ⟨initial, Nat.le_of_not_lt single⟩

theorem loop_divides_by_zero (divisor : tuner.toSize eta = 0) (several : 1 < state.alive.length)
    (fuel : ℕ) : halvingLoop tuner maxReps eta (fuel + 1) state = .dividedByZero := by
  have stuck : halve tuner maxReps eta state = none := by
    unfold halve
    dsimp only
    rw [if_pos divisor]
  unfold halvingLoop
  rw [if_pos several, stuck]

theorem loop_never_divides (divisor : tuner.toSize eta ≠ 0) (fuel : ℕ) :
    halvingLoop tuner maxReps eta fuel state ≠ .dividedByZero := by
  intro divided
  induction fuel generalizing state with
  | zero => cases divided
  | succ fuel ih =>
      obtain ⟨next, moved⟩ := halve_divides divisor maxReps state
      unfold halvingLoop at divided
      rw [moved] at divided
      dsimp only at divided
      split at divided
      · split at divided
        · cases divided
        · exact ih divided
      · cases divided

/-! ## The survivors -/

variable [LinearOrder Score]

theorem sort_length (sorts : Sorts tuner.sort) (state : Halving Cfg Score) :
    (tuner.sort (measureAlive tuner state.reps state.alive state.totalEvals
      state.measured).1).length = state.alive.length := by
  rw [(sorts.perm _).length_eq, measure_alive_length]

theorem halve_effect (sorts : Sorts tuner.sort)
    (moved : halve tuner maxReps eta before = some after) :
    RoundEffect tuner maxReps eta before after := by
  obtain ⟨-, evals, calls⟩ := measure_alive_effect tuner before.reps before.alive
    before.totalEvals before.measured
  unfold halve at moved
  dsimp only at moved
  split at moved
  case isTrue => cases moved
  case isFalse =>
    cases moved
    rw [sort_length sorts]
    exact ⟨rfl, evals, rfl, calls, rfl⟩

theorem RoundEffect.length (sorts : Sorts tuner.sort)
    (effect : RoundEffect tuner maxReps eta before after) (several : 1 < before.alive.length) :
    after.alive.length = max 1 (before.alive.length / tuner.toSize eta) := by
  have bound : before.alive.length / tuner.toSize eta ≤ before.alive.length := Nat.div_le_self _ _
  rw [effect.alive, List.length_take, sort_length sorts]
  omega

/-- A round leaves at least one item, and fewer than before when the divisor is 2
or more. -/
theorem halve_shrinks (sorts : Sorts tuner.sort) (divisor : 2 ≤ tuner.toSize eta)
    (several : 1 < state.alive.length) (moved : halve tuner maxReps eta state = some after) :
    1 ≤ after.alive.length ∧ after.alive.length < state.alive.length := by
  have length := (halve_effect sorts moved).length sorts several
  have smaller : state.alive.length / tuner.toSize eta < state.alive.length :=
    Nat.div_lt_self (by omega) divisor
  omega

theorem loop_returns (sorts : Sorts tuner.sort) (divisor : 2 ≤ tuner.toSize eta) (maxReps : ℤ)
    {fuel : ℕ} (enough : state.alive.length ≤ fuel) (nonempty : 1 ≤ state.alive.length) :
    ∃ final, halvingLoop tuner maxReps eta fuel state = .returned final ∧
      1 ≤ final.alive.length := by
  induction fuel generalizing state with
  | zero => omega
  | succ fuel ih =>
      unfold halvingLoop
      split
      case isTrue several =>
        have nonzero : tuner.toSize eta ≠ 0 := by omega
        obtain ⟨next, moved⟩ := halve_divides nonzero maxReps state
        obtain ⟨some_left, fewer⟩ := halve_shrinks sorts divisor several moved
        rw [moved]
        dsimp only
        split
        case isTrue => exact ⟨next, rfl, some_left⟩
        case isFalse => exact ih (by omega) some_left
      case isFalse => exact ⟨state, rfl, nonempty⟩

/-- With a divisor of 1 the list stays as long as it is. -/
theorem loop_runs_on (sorts : Sorts tuner.sort) (divisor : tuner.toSize eta = 1)
    (several : 1 < state.alive.length) (fuel : ℕ) :
    halvingLoop tuner maxReps eta fuel state = .running := by
  induction fuel generalizing state with
  | zero => rfl
  | succ fuel ih =>
      have nonzero : tuner.toSize eta ≠ 0 := by omega
      obtain ⟨next, moved⟩ := halve_divides nonzero maxReps state
      have length := (halve_effect sorts moved).length sorts several
      rw [divisor, Nat.div_one] at length
      unfold halvingLoop
      rw [if_pos several, moved]
      dsimp only
      rw [if_neg (by omega)]
      exact ih (by omega)

end AmpFormal.HalvingRuns
