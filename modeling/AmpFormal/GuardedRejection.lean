import Mathlib.Algebra.BigOperators.Field
import Mathlib.Algebra.BigOperators.Ring.Finset
import Mathlib.Algebra.Order.BigOperators.Group.Finset
import Mathlib.Algebra.Order.Field.Basic
import Mathlib.Tactic.FieldSimp
import Mathlib.Tactic.Linarith
import Mathlib.Tactic.Ring

/-!
# Rejection sampling with a guarded ratio

A proposal `x` drawn from the law `q` is accepted with the probability
`min 1 (p x / (q x + ε))`, and a rejected proposal is replaced by a draw from a
fallback law. Without the guard `ε` and with the normalised residual
`max 0 (p x - q x)` as the fallback, the outcome follows `p`. The guard takes at
most `ε` from the accepted mass of each point and hands it to the fallback.
-/

namespace AmpFormal.GuardedRejection

open Finset

set_option autoImplicit false

variable {ι R : Type*} [Field R] [LinearOrder R]

structure IsLaw (points : Finset ι) (p : ι → R) : Prop where
  nonneg : ∀ x ∈ points, 0 ≤ p x
  total : ∑ x ∈ points, p x = 1

def acceptance (ε : R) (p q : ι → R) (x : ι) : R := min 1 (p x / (q x + ε))

def residual (p q : ι → R) (x : ι) : R := max 0 (p x - q x)

def loss (ε : R) (p q : ι → R) (x : ι) : R := min (p x) (q x) - q x * acceptance ε p q x

def outcome [DecidableEq ι] (points : Finset ι) (ε : R) (p q fallback : ι → R) (y : ι) : R :=
  ∑ x ∈ points, q x *
    ((if x = y then acceptance ε p q x else 0) + (1 - acceptance ε p q x) * fallback y)

variable {points : Finset ι} {ε : R} {p q : ι → R}

theorem acceptance_le_one (x : ι) : acceptance ε p q x ≤ 1 := min_le_left _ _

theorem residual_nonneg (x : ι) : 0 ≤ residual p q x := le_max_left _ _

variable [IsStrictOrderedRing R]

theorem acceptance_nonneg {x : ι} (guard : 0 < ε) (target : 0 ≤ p x) (proposal : 0 ≤ q x) :
    0 ≤ acceptance ε p q x :=
  le_min zero_le_one (div_nonneg target (by linarith))

theorem min_add_residual (x : ι) : min (p x) (q x) + residual p q x = p x := by
  unfold residual
  rcases le_total (p x) (q x) with below | above
  · rw [min_eq_left below, max_eq_left (by linarith), add_zero]
  · rw [min_eq_right above, max_eq_right (by linarith), add_sub_cancel]

theorem loss_nonneg {x : ι} (guard : 0 < ε) (target : 0 ≤ p x) (proposal : 0 ≤ q x) :
    0 ≤ loss ε p q x := by
  have denominator : 0 < q x + ε := by linarith
  have ratio : q x / (q x + ε) ≤ 1 := (div_le_one denominator).mpr (by linarith)
  unfold loss
  refine sub_nonneg.mpr (le_min ?_ ?_)
  · calc q x * acceptance ε p q x
        ≤ q x * (p x / (q x + ε)) := mul_le_mul_of_nonneg_left (min_le_right _ _) proposal
      _ = p x * (q x / (q x + ε)) := by ring
      _ ≤ p x := mul_le_of_le_one_right target ratio
  · exact mul_le_of_le_one_right proposal (acceptance_le_one x)

theorem loss_le {x : ι} (guard : 0 < ε) (proposal : 0 ≤ q x) :
    loss ε p q x ≤ ε := by
  have denominator : 0 < q x + ε := by linarith
  unfold loss acceptance
  rcases le_total 1 (p x / (q x + ε)) with certain | possible
  · rw [min_eq_left certain, mul_one]
    have := min_le_right (p x) (q x)
    linarith
  · rw [min_eq_right possible]
    calc min (p x) (q x) - q x * (p x / (q x + ε))
        ≤ p x - q x * (p x / (q x + ε)) := sub_le_sub_right (min_le_left _ _) _
      _ = ε * (p x / (q x + ε)) := by
          field_simp
          ring
      _ ≤ ε := mul_le_of_le_one_right guard.le possible

def totalLoss (points : Finset ι) (ε : R) (p q : ι → R) : R := ∑ x ∈ points, loss ε p q x

theorem total_loss_nonneg (guard : 0 < ε) (target : IsLaw points p) (proposal : IsLaw points q) :
    0 ≤ totalLoss points ε p q :=
  sum_nonneg fun x member => loss_nonneg guard (target.nonneg x member) (proposal.nonneg x member)

theorem total_loss_le (guard : 0 < ε) (proposal : IsLaw points q) :
    totalLoss points ε p q ≤ points.card * ε := by
  calc totalLoss points ε p q
      ≤ ∑ _x ∈ points, ε := sum_le_sum fun x member => loss_le guard (proposal.nonneg x member)
    _ = points.card * ε := by rw [sum_const, nsmul_eq_mul]

/-- The rejected mass is the residual mass and what the guard takes away. -/
theorem rejected_mass (target : IsLaw points p) (proposal : IsLaw points q) :
    ∑ x ∈ points, q x * (1 - acceptance ε p q x) =
      ∑ x ∈ points, residual p q x + totalLoss points ε p q := by
  have split : ∀ x ∈ points, q x * (1 - acceptance ε p q x) =
      residual p q x + loss ε p q x + (q x - p x) := by
    intro x _
    have := min_add_residual (p := p) (q := q) x
    unfold loss
    linarith
  rw [sum_congr rfl split, sum_add_distrib, sum_add_distrib, sum_sub_distrib, proposal.total,
    target.total, sub_self, add_zero]
  rfl

variable [DecidableEq ι] {fallback : ι → R} {y : ι}

theorem outcome_eq (target : IsLaw points p) (proposal : IsLaw points q) (member : y ∈ points) :
    outcome points ε p q fallback y = p y - residual p q y - loss ε p q y +
      (∑ x ∈ points, residual p q x + totalLoss points ε p q) * fallback y := by
  have accepted : ∑ x ∈ points, q x * (if x = y then acceptance ε p q x else 0) =
      q y * acceptance ε p q y := by
    rw [sum_eq_single_of_mem y member]
    · rw [if_pos rfl]
    · intro x _ other
      rw [if_neg other, mul_zero]
  have here := min_add_residual (p := p) (q := q) y
  unfold outcome
  simp only [mul_add, ← mul_assoc]
  rw [sum_add_distrib, accepted, ← sum_mul, rejected_mass target proposal]
  unfold loss
  linarith

theorem outcome_of_residual (guard : 0 < ε) (target : IsLaw points p) (proposal : IsLaw points q)
    (member : y ∈ points) (mass : 0 < ∑ x ∈ points, residual p q x)
    (law : fallback y = residual p q y / ∑ x ∈ points, residual p q x) :
    |outcome points ε p q fallback y - p y| ≤ (points.card + 1) * ε := by
  have small : fallback y ≤ 1 := by
    rw [law, div_le_one mass]
    exact single_le_sum (f := residual p q) (fun x _ => residual_nonneg x) member
  have nonneg : 0 ≤ fallback y := by
    rw [law]
    exact div_nonneg (residual_nonneg y) mass.le
  have cancelled : (∑ x ∈ points, residual p q x) * fallback y = residual p q y := by
    rw [law, mul_div_cancel₀ _ mass.ne']
  have lost := total_loss_nonneg guard target proposal
  have bounded := total_loss_le (p := p) guard proposal
  have moved : totalLoss points ε p q * fallback y ≤ totalLoss points ε p q :=
    mul_le_of_le_one_right lost small
  have gained := mul_nonneg lost nonneg
  have taken := loss_nonneg guard (target.nonneg y member) (proposal.nonneg y member)
  have atMost := loss_le (p := p) guard (proposal.nonneg y member)
  have count : 0 ≤ (points.card : R) * ε := mul_nonneg (Nat.cast_nonneg _) guard.le
  rw [outcome_eq target proposal member, add_mul, cancelled, abs_le]
  constructor <;> linarith

theorem outcome_of_uniform (guard : 0 < ε) (target : IsLaw points p) (proposal : IsLaw points q)
    (member : y ∈ points) (mass : ∑ x ∈ points, residual p q x ≤ ε)
    (law : fallback y = 1 / points.card) :
    |outcome points ε p q fallback y - p y| ≤ (points.card + 1) * ε := by
  have counted : 1 ≤ (points.card : R) := by
    exact_mod_cast card_pos.mpr ⟨y, member⟩
  have nonempty : 0 < (points.card : R) := by linarith
  have scaled : ε ≤ points.card * ε := le_mul_of_one_le_left guard.le counted
  have lost := total_loss_nonneg guard target proposal
  have bounded := total_loss_le (p := p) guard proposal
  have remaining : 0 ≤ ∑ x ∈ points, residual p q x := sum_nonneg fun x _ => residual_nonneg x
  have point : residual p q y ≤ ∑ x ∈ points, residual p q x :=
    single_le_sum (f := residual p q) (fun x _ => residual_nonneg x) member
  have spread : (∑ x ∈ points, residual p q x + totalLoss points ε p q) * fallback y ≤ 2 * ε := by
    rw [law, mul_one_div, div_le_iff₀ nonempty]
    linarith
  have shared : 0 ≤ (∑ x ∈ points, residual p q x + totalLoss points ε p q) * fallback y := by
    rw [law]
    exact mul_nonneg (by linarith) (by positivity)
  have taken := loss_nonneg guard (target.nonneg y member) (proposal.nonneg y member)
  have atMost := loss_le (p := p) guard (proposal.nonneg y member)
  have here := residual_nonneg (p := p) (q := q) y
  rw [outcome_eq target proposal member, abs_le]
  constructor <;> linarith

/-! ## All points together -/

omit [IsStrictOrderedRing R] in
theorem outcome_total (proposal : IsLaw points q) (law : IsLaw points fallback) :
    ∑ y ∈ points, outcome points ε p q fallback y = 1 := by
  unfold outcome
  rw [sum_comm]
  refine (sum_congr rfl fun x member => ?_).trans proposal.total
  rw [← mul_sum, sum_add_distrib, sum_ite_eq, if_pos member, ← mul_sum, law.total]
  ring

/-- Twice the lost mass, and what the fallback puts where the residual is not. -/
theorem outcome_distance (guard : 0 < ε) (target : IsLaw points p) (proposal : IsLaw points q)
    (law : IsLaw points fallback) :
    ∑ y ∈ points, |outcome points ε p q fallback y - p y| ≤
      ∑ y ∈ points, |(∑ x ∈ points, residual p q x) * fallback y - residual p q y| +
        2 * totalLoss points ε p q := by
  have lost := total_loss_nonneg guard target proposal
  have each : ∀ y ∈ points, |outcome points ε p q fallback y - p y| ≤
      |(∑ x ∈ points, residual p q x) * fallback y - residual p q y| +
        (loss ε p q y + totalLoss points ε p q * fallback y) := by
    intro y member
    have taken := loss_nonneg guard (target.nonneg y member) (proposal.nonneg y member)
    have gained := mul_nonneg lost (law.nonneg y member)
    have split : outcome points ε p q fallback y - p y =
        ((∑ x ∈ points, residual p q x) * fallback y - residual p q y) +
          (totalLoss points ε p q * fallback y - loss ε p q y) := by
      rw [outcome_eq target proposal member]
      ring
    rw [split]
    refine (abs_add_le _ _).trans (add_le_add_right ?_ _)
    rw [abs_le]
    constructor <;> linarith
  calc ∑ y ∈ points, |outcome points ε p q fallback y - p y|
      ≤ ∑ y ∈ points, (|(∑ x ∈ points, residual p q x) * fallback y - residual p q y| +
          (loss ε p q y + totalLoss points ε p q * fallback y)) := sum_le_sum each
    _ = ∑ y ∈ points, |(∑ x ∈ points, residual p q x) * fallback y - residual p q y| +
          2 * totalLoss points ε p q := by
        rw [sum_add_distrib, sum_add_distrib, ← mul_sum, law.total, mul_one, two_mul]
        rfl

theorem outcome_distance_le (guard : 0 < ε) (target : IsLaw points p)
    (proposal : IsLaw points q) (law : IsLaw points fallback)
    (close : (∀ y ∈ points, (∑ x ∈ points, residual p q x) * fallback y = residual p q y) ∨
      ∑ x ∈ points, residual p q x ≤ ε) :
    ∑ y ∈ points, |outcome points ε p q fallback y - p y| ≤ 2 * ((points.card + 1) * ε) := by
  have misplaced : ∑ y ∈ points,
      |(∑ x ∈ points, residual p q x) * fallback y - residual p q y| ≤ 2 * ε := by
    rcases close with equal | small
    · rw [sum_eq_zero fun y member => by rw [equal y member, sub_self, abs_zero]]
      linarith
    · have remaining : 0 ≤ ∑ x ∈ points, residual p q x :=
        sum_nonneg fun x _ => residual_nonneg x
      calc ∑ y ∈ points, |(∑ x ∈ points, residual p q x) * fallback y - residual p q y|
          ≤ ∑ y ∈ points, ((∑ x ∈ points, residual p q x) * fallback y + residual p q y) := by
            refine sum_le_sum fun y member => ?_
            have spread := mul_nonneg remaining (law.nonneg y member)
            have here := residual_nonneg (p := p) (q := q) y
            rw [abs_le]
            constructor <;> linarith
        _ = 2 * ∑ x ∈ points, residual p q x := by
            rw [sum_add_distrib, ← mul_sum, law.total, mul_one, two_mul]
        _ ≤ 2 * ε := by linarith
  have distance := outcome_distance guard target proposal law
  have bounded := total_loss_le (p := p) guard proposal
  linarith

/-! ## Averages over a law -/

omit [DecidableEq ι] in
theorem average_close {w A B : ι → R} {e : R} (law : IsLaw points w)
    (close : ∀ x ∈ points, |A x - B x| ≤ e) :
    |∑ x ∈ points, w x * A x - ∑ x ∈ points, w x * B x| ≤ e := by
  rw [← sum_sub_distrib]
  calc |∑ x ∈ points, (w x * A x - w x * B x)|
      ≤ ∑ x ∈ points, |w x * A x - w x * B x| := abs_sum_le_sum_abs _ _
    _ ≤ ∑ x ∈ points, w x * e := by
        refine sum_le_sum fun x member => ?_
        rw [← mul_sub, abs_mul, abs_of_nonneg (law.nonneg x member)]
        exact mul_le_mul_of_nonneg_left (close x member) (law.nonneg x member)
    _ = e := by rw [← sum_mul, law.total, one_mul]

omit [DecidableEq ι] in
theorem average_bounded {w A : ι → R} {e : R} (law : IsLaw points w)
    (bounded : ∀ x ∈ points, |A x| ≤ e) : |∑ x ∈ points, w x * A x| ≤ e := by
  have close := average_close (B := fun _ => 0) law fun x member =>
    (sub_zero (A x)).symm ▸ bounded x member
  simpa using close

omit [DecidableEq ι] in
/-- Two laws tell bounded functions apart by at most their distance. -/
theorem average_distance {w w' A : ι → R} (bounded : ∀ x ∈ points, |A x| ≤ 1) :
    |∑ x ∈ points, w x * A x - ∑ x ∈ points, w' x * A x| ≤ ∑ x ∈ points, |w x - w' x| := by
  rw [← sum_sub_distrib]
  refine (abs_sum_le_sum_abs _ _).trans (sum_le_sum fun x member => ?_)
  rw [← sub_mul, abs_mul]
  exact mul_le_of_le_one_right (abs_nonneg _) (bounded x member)

theorem mixture_close {a A A' B B' e : R} (nonneg : 0 ≤ a) (small : a ≤ 1)
    (first : |A - A'| ≤ e) (second : |B - B'| ≤ e) :
    |(a * A + (1 - a) * B) - (a * A' + (1 - a) * B')| ≤ e := by
  have split : (a * A + (1 - a) * B) - (a * A' + (1 - a) * B') =
      a * (A - A') + (1 - a) * (B - B') := by ring
  rw [split]
  calc |a * (A - A') + (1 - a) * (B - B')|
      ≤ |a * (A - A')| + |(1 - a) * (B - B')| := abs_add_le _ _
    _ = a * |A - A'| + (1 - a) * |B - B'| := by
        rw [abs_mul, abs_mul, abs_of_nonneg nonneg, abs_of_nonneg (sub_nonneg.mpr small)]
    _ ≤ a * e + (1 - a) * e :=
        add_le_add (mul_le_mul_of_nonneg_left first nonneg)
          (mul_le_mul_of_nonneg_left second (sub_nonneg.mpr small))
    _ = e := by ring

end AmpFormal.GuardedRejection
