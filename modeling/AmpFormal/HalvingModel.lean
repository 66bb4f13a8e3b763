import AmpFormal.ExactFloats
import Mathlib.Data.Rat.Floor

/-!
# The successive halving autotuner

A transcription of `autotune_sh.hpp`. Scores are the elements of a linear order, so
no score is NaN; the n-th call of `measure` may answer anything. `std::sort`, the
conversion of `eta` to `size_t` and that of `reps * eta` to `int` are parameters,
the last two since a value out of range converts to no particular one. The number
of rounds and the repetitions passed to `measure` so far are recorded beside the
variables of the source; their sum is not reduced to the range of `int`.
-/

namespace AmpFormal.HalvingModel

open AmpFormal.ExactFloats

set_option autoImplicit false

variable {Cfg Score : Type*}

structure SHResult (Cfg Score : Type*) where
  best : Cfg
  bestScore : Score
  totalEvals : ℤ
  deriving DecidableEq, Repr

structure Item (Cfg Score : Type*) where
  cfg : Cfg
  score : Score
  deriving DecidableEq, Repr

structure Tuner (Cfg Score : Type*) where
  measure : ℕ → Cfg → ℤ → Score
  sort : List (Item Cfg Score) → List (Item Cfg Score)
  toSize : IeeeValue ℚ → ℕ
  growReps : ℤ → IeeeValue ℚ → ℤ

/-- The variables of `successive_halving`, with the calls of `measure` so far. -/
structure Halving (Cfg Score : Type*) where
  alive : List (Item Cfg Score)
  totalEvals : ℤ
  reps : ℤ
  measured : List ℤ
  rounds : ℕ
  deriving DecidableEq, Repr

inductive Outcome (Value : Type*) where
  | returned (value : Value)
  | threw
  | dividedByZero
  | outOfRange
  | running
  deriving DecidableEq, Repr

def measureAlive (tuner : Tuner Cfg Score) (reps : ℤ) :
    List (Item Cfg Score) → ℤ → List ℤ → List (Item Cfg Score) × ℤ × List ℤ
  | [], totalEvals, measured => ([], totalEvals, measured)
  | it :: rest, totalEvals, measured =>
      let score := tuner.measure measured.length it.cfg reps
      let (rest, totalEvals, measured) :=
        measureAlive tuner reps rest (totalEvals + reps) (measured ++ [reps])
      ({ it with score := score } :: rest, totalEvals, measured)

def halve (tuner : Tuner Cfg Score) (maxReps : ℤ) (eta : IeeeValue ℚ)
    (state : Halving Cfg Score) : Option (Halving Cfg Score) :=
  let (alive, totalEvals, measured) :=
    measureAlive tuner state.reps state.alive state.totalEvals state.measured
  let alive := tuner.sort alive
  if tuner.toSize eta = 0 then none
  else
    let keep := max 1 (alive.length / tuner.toSize eta)
    some
      { alive := alive.take keep
        totalEvals := totalEvals
        reps := min maxReps (tuner.growReps state.reps eta)
        measured := measured
        rounds := state.rounds + 1 }

/-- The `while` loop, for at most `fuel` evaluations of its condition. -/
def halvingLoop (tuner : Tuner Cfg Score) (maxReps : ℤ) (eta : IeeeValue ℚ) :
    ℕ → Halving Cfg Score → Outcome (Halving Cfg Score)
  | 0, _ => .running
  | fuel + 1, state =>
      if 1 < state.alive.length then
        match halve tuner maxReps eta state with
        | none => .dividedByZero
        | some next =>
            if maxReps ≤ next.reps ∧ next.alive.length = 1 then .returned next
            else halvingLoop tuner maxReps eta fuel next
      else .returned state

def startHalving [Zero Score] (candidates : List Cfg) (minReps : ℤ) : Halving Cfg Score :=
  { alive := candidates.map fun c => { cfg := c, score := 0 }
    totalEvals := 0
    reps := minReps
    measured := []
    rounds := 0 }

def finishHalving (tuner : Tuner Cfg Score) (maxReps : ℤ) :
    Outcome (Halving Cfg Score) → Outcome (SHResult Cfg Score)
  | .returned state =>
      match state.alive with
      | [] => .outOfRange
      | survivor :: _ =>
          .returned
            { best := survivor.cfg
              bestScore := tuner.measure state.measured.length survivor.cfg maxReps
              totalEvals := state.totalEvals + maxReps }
  | .threw => .threw
  | .dividedByZero => .dividedByZero
  | .outOfRange => .outOfRange
  | .running => .running

def successiveHalving [Zero Score] (tuner : Tuner Cfg Score) (fuel : ℕ) (candidates : List Cfg)
    (minReps : ℤ := 1) (maxReps : ℤ := 32) (eta : IeeeValue ℚ := .finite 2) :
    Outcome (SHResult Cfg Score) :=
  if candidates.isEmpty then .threw
  else
    finishHalving tuner maxReps
      (halvingLoop tuner maxReps eta fuel (startHalving candidates minReps))

/-- The loop of `grid_search` over the remaining candidates, `calls` being made. -/
def gridLoop [LinearOrder Score] (measure : ℕ → Cfg → ℤ → Score) (reps : ℤ) :
    ℕ → SHResult Cfg Score → List Cfg → SHResult Cfg Score
  | _, result, [] => result
  | calls, result, c :: rest =>
      let s := measure calls c reps
      let result := { result with totalEvals := result.totalEvals + reps }
      gridLoop measure reps (calls + 1)
        (if s < result.bestScore then { result with best := c, bestScore := s } else result) rest

/-- `grid_search`; `bound` is its initial best score 1e18. -/
def gridSearch [LinearOrder Score] [Inhabited Cfg] (measure : ℕ → Cfg → ℤ → Score) (bound : Score)
    (candidates : List Cfg) (reps : ℤ := 32) : SHResult Cfg Score :=
  gridLoop measure reps 0 { best := default, bestScore := bound, totalEvals := 0 } candidates

/-! ## What the parameters are relied on for -/

/-- The documented behaviour of `std::sort` with the comparison of scores. -/
structure Sorts [LinearOrder Score] (sort : List (Item Cfg Score) → List (Item Cfg Score)) :
    Prop where
  perm : ∀ items, (sort items).Perm items
  sorted : ∀ items, (sort items).Pairwise fun a b => a.score ≤ b.score

/-- The conversions of values in range, and an exact product. -/
structure Converts (toSize : IeeeValue ℚ → ℕ) (growReps : ℤ → IeeeValue ℚ → ℤ) : Prop where
  truncates : ∀ q : ℚ, 0 ≤ q → q < 2 ^ 64 → toSize (.finite q) = ⌊q⌋.toNat
  multiplies : ∀ reps n : ℤ, -2 ^ 31 ≤ reps * n → reps * n < 2 ^ 31 →
    growReps reps (.finite n) = reps * n

end AmpFormal.HalvingModel
