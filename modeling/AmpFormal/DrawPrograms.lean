import Mathlib.MeasureTheory.Integral.IntervalIntegral.Basic
import Mathlib.MeasureTheory.Measure.Lebesgue.Basic

/-!
# Programs that draw random numbers

A program draws real numbers, uniform between 0 and 1, indices, uniform below a
bound, and picks, weighted by a list; each draw may decide what is drawn next. Run
on given sequences of draws it has a result; over all draws it has an expectation.
Picks are counted apart from the other draws, as another generator may make them.
-/

namespace AmpFormal.DrawPrograms

open MeasureTheory Set

set_option autoImplicit false

variable {R : Type*} {α β : Type}

inductive Draw (R : Type*) (α : Type) where
  | done (value : α)
  | real (next : R → Draw R α)
  | index (bound : Nat) (next : Nat → Draw R α)
  | pick (weights : List R) (next : Nat → Draw R α)

structure Tape (R : Type*) where
  real : Nat → R
  index : Nat → Nat → Nat
  pick : Nat → List R → Nat

structure Position where
  drawn : Nat := 0
  picked : Nat := 0
  deriving DecidableEq, Repr

def Position.draw (here : Position) : Position := { here with drawn := here.drawn + 1 }

def Position.pick (here : Position) : Position := { here with picked := here.picked + 1 }

namespace Draw

def run (tape : Tape R) : Position → Draw R α → α × Position
  | here, .done value => (value, here)
  | here, .real next => run tape here.draw (next (tape.real here.drawn))
  | here, .index bound next => run tape here.draw (next (tape.index here.drawn bound))
  | here, .pick weights next => run tape here.pick (next (tape.pick here.picked weights))

def bind (g : α → Draw R β) : Draw R α → Draw R β
  | .done value => g value
  | .real next => .real fun u => bind g (next u)
  | .index bound next => .index bound fun i => bind g (next i)
  | .pick weights next => .pick weights fun x => bind g (next x)

def map (f : α → β) (program : Draw R α) : Draw R β := program.bind fun value => .done (f value)

theorem run_bind (tape : Tape R) (g : α → Draw R β) (program : Draw R α) (here : Position) :
    (program.bind g).run tape here =
      (g (program.run tape here).1).run tape (program.run tape here).2 := by
  induction program generalizing here with
  | done value => rfl
  | real next ih => exact ih _ _
  | index bound next ih => exact ih _ _
  | pick weights next ih => exact ih _ _

theorem run_map (tape : Tape R) (f : α → β) (program : Draw R α) (here : Position) :
    (program.map f).run tape here =
      (f (program.run tape here).1, (program.run tape here).2) :=
  run_bind tape _ program here

/-- The expectation of a function of the result. -/
noncomputable def expect : Draw ℝ α → (α → ℝ) → ℝ
  | .done value, F => F value
  | .real next, F => ∫ u in (0 : ℝ)..1, (next u).expect F
  | .index bound next, F => (∑ i ∈ Finset.range bound, (next i).expect F) / bound
  | .pick weights next, F =>
      ∑ x ∈ Finset.range weights.length, weights.getD x 0 * (next x).expect F

theorem expect_bind (g : α → Draw ℝ β) (program : Draw ℝ α) (F : β → ℝ) :
    (program.bind g).expect F = program.expect fun value => (g value).expect F := by
  induction program with
  | done value => rfl
  | real next ih => simp only [bind, expect, ih]
  | index bound next ih => simp only [bind, expect, ih]
  | pick weights next ih => simp only [bind, expect, ih]

theorem expect_map (f : α → β) (program : Draw ℝ α) (F : β → ℝ) :
    (program.map f).expect F = program.expect fun value => F (f value) :=
  expect_bind _ program F

end Draw

/-! ## Draws against thresholds -/

theorem interval_piece {lower upper value : ℝ} {f : ℝ → ℝ} (ordered : lower ≤ upper)
    (here : ∀ u, lower < u → u ≤ upper → f u = value) :
    IntervalIntegrable f volume lower upper ∧
      ∫ u in lower..upper, f u = (upper - lower) * value := by
  have same : EqOn (fun _ => value) f (uIoc lower upper) := by
    intro u member
    rw [uIoc_of_le ordered] at member
    exact (here u member.1 member.2).symm
  constructor
  · exact (intervalIntegrable_congr same).mp intervalIntegrable_const
  · rw [← intervalIntegral.integral_congr_ae (Filter.Eventually.of_forall fun u member =>
      same member), intervalIntegral.integral_const, smul_eq_mul]

theorem interval_split {lower middle upper value : ℝ} {f g : ℝ → ℝ} (below : lower ≤ middle)
    (above : middle ≤ upper) (first : ∀ u, lower < u → u ≤ middle → f u = value)
    (second : ∀ u, middle < u → u ≤ upper → f u = g u)
    (integrable : IntervalIntegrable g volume middle upper) :
    IntervalIntegrable f volume lower upper ∧
      ∫ u in lower..upper, f u = (middle - lower) * value + ∫ u in middle..upper, g u := by
  obtain ⟨start, startValue⟩ := interval_piece below first
  have same : EqOn g f (uIoc middle upper) := by
    intro u member
    rw [uIoc_of_le above] at member
    exact (second u member.1 member.2).symm
  have rest := (intervalIntegrable_congr same).mp integrable
  constructor
  · exact start.trans rest
  · rw [← intervalIntegral.integral_add_adjacent_intervals start rest, startValue,
      intervalIntegral.integral_congr_ae (Filter.Eventually.of_forall fun u member =>
        same member)]

/-- A draw that decides between two programs. -/
theorem Draw.expect_threshold {a : ℝ} (nonneg : 0 ≤ a) (small : a ≤ 1) (yes no : Draw ℝ α)
    (F : α → ℝ) : (Draw.real fun u => if u ≤ a then yes else no).expect F =
      a * yes.expect F + (1 - a) * no.expect F := by
  have rest : IntervalIntegrable (fun _ => no.expect F) volume a 1 := intervalIntegrable_const
  have split := interval_split nonneg small
    (fun u _ below => show (if u ≤ a then yes else no).expect F = yes.expect F by
      rw [if_pos below])
    (fun u above _ => by rw [if_neg (not_le.mpr above)]) rest
  rw [intervalIntegral.integral_const, smul_eq_mul, sub_zero] at split
  exact split.2

end AmpFormal.DrawPrograms
