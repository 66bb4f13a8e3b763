import Mathlib.Algebra.Order.Field.Basic

/-!
# Exact IEEE values and running maxima

A value is an exact number, an infinity or NaN; there is no rounding and no sign
of zero. A comparison with NaN is false, so `keepMax`, which replaces the first
argument by a strictly greater second one, never adopts a NaN and never gives
one up. A running maximum therefore ignores every NaN but its start.
-/

namespace AmpFormal.ExactFloats

set_option autoImplicit false

inductive IeeeValue (K : Type*) where
  | nan
  | negInf
  | finite (q : K)
  | posInf
  deriving DecidableEq

namespace IeeeValue

variable {K : Type*} [Field K] [LinearOrder K]

def isFinite {K : Type*} : IeeeValue K → Bool
  | .finite _ => true
  | _ => false

def less : IeeeValue K → IeeeValue K → Bool
  | .finite a, .finite b => decide (a < b)
  | .negInf, .finite _ | .negInf, .posInf | .finite _, .posInf => true
  | _, _ => false

def sub : IeeeValue K → IeeeValue K → IeeeValue K
  | .finite a, .finite b => .finite (a - b)
  | .finite _, .posInf | .negInf, .finite _ | .negInf, .posInf => .negInf
  | .finite _, .negInf | .posInf, .finite _ | .posInf, .negInf => .posInf
  | _, _ => .nan

def neg : IeeeValue K → IeeeValue K
  | .finite a => .finite (-a)
  | .negInf => .posInf
  | .posInf => .negInf
  | .nan => .nan

def abs : IeeeValue K → IeeeValue K
  | .finite a => .finite |a|
  | .negInf | .posInf => .posInf
  | .nan => .nan

/-- A zero divisor counts as the positive zero. -/
def div : IeeeValue K → IeeeValue K → IeeeValue K
  | .finite a, .finite b =>
      if b = 0 then
        if a = 0 then .nan else if 0 < a then .posInf else .negInf
      else .finite (a / b)
  | .finite _, .posInf | .finite _, .negInf => .finite 0
  | .posInf, .finite b => if b < 0 then .negInf else .posInf
  | .negInf, .finite b => if b < 0 then .posInf else .negInf
  | _, _ => .nan

/-- `std::max`, and one step of a maximum that keeps the first of equal
elements. -/
def keepMax (a b : IeeeValue K) : IeeeValue K := if less a b then b else a

/-! ## Order -/

omit [Field K]

@[simp] theorem less_nan_left (a : IeeeValue K) : less .nan a = false := by
  cases a <;> rfl

@[simp] theorem less_nan_right (a : IeeeValue K) : less a .nan = false := by
  cases a <;> rfl

theorem less_trans {a b c : IeeeValue K} (first : less a b = true) (second : less b c = true) :
    less a c = true := by
  cases a <;> cases b <;> cases c <;> simp only [less, decide_eq_true_eq, Bool.false_eq_true]
    at first second ⊢
  exact first.trans second

theorem less_of_not_less {a b t : IeeeValue K} (number : b ≠ .nan) (upper : less a b = false)
    (bound : less a t = true) : less b t = true := by
  cases a <;> cases b <;> cases t <;>
    simp only [less, decide_eq_true_eq, decide_eq_false_iff_not, Bool.false_eq_true,
      Bool.true_eq_false, ne_eq, not_true_eq_false] at number upper bound ⊢
  exact (not_lt.mp upper).trans_lt bound

/-! ## Running maxima -/

theorem keep_max_finite (a b : K) :
    keepMax (.finite a) (.finite b) = (.finite (max a b) : IeeeValue K) := by
  unfold keepMax less
  by_cases greater : a < b
  · simp [greater, max_eq_right greater.le]
  · simp [greater, max_eq_left (not_lt.mp greater)]

theorem keep_max_less_iff (a b t : IeeeValue K) :
    less (keepMax a b) t = true ↔ less a t = true ∧ (b = .nan ∨ less b t = true) := by
  unfold keepMax
  split
  case isTrue greater =>
    constructor
    · intro bound
      exact ⟨less_trans greater bound, Or.inr bound⟩
    · intro bounds
      rcases bounds.2 with isNan | bound
      · rw [isNan, less_nan_right] at greater
        cases greater
      · exact bound
  case isFalse upper =>
    rw [Bool.not_eq_true] at upper
    constructor
    · intro bound
      refine ⟨bound, ?_⟩
      by_cases isNan : b = .nan
      · exact Or.inl isNan
      · exact Or.inr (less_of_not_less isNan upper bound)
    · exact And.left

/-- A running maximum is below a bound when its start is and every later element
is too or is NaN. -/
theorem fold_max_less_iff (start t : IeeeValue K) (values : List (IeeeValue K)) :
    less (values.foldl keepMax start) t = true ↔
      less start t = true ∧ ∀ value ∈ values, value = .nan ∨ less value t = true := by
  induction values generalizing start with
  | nil => simp
  | cons value rest ih =>
      rw [List.foldl_cons, ih, keep_max_less_iff, List.forall_mem_cons, and_assoc]

end IeeeValue

end AmpFormal.ExactFloats
