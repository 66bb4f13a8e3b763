import AmpFormal.ExactFloats
import Mathlib.Data.Rat.Cast.Order

/-!
# The error folds behind a PASS

`amp_validate_kernel` compares a plugin's output with a CPU reference, and
`parity_check.py` one vendor's output with the other's. Both reduce the element
errors to a running maximum and test only that. The C++ loop starts at 0 and
Python's `max` at the first element; neither sees a NaN that comes later.
-/

namespace AmpFormal.ErrorFolds

open AmpFormal.ExactFloats AmpFormal.ExactFloats.IeeeValue

set_option autoImplicit false

abbrev Value := IeeeValue ℚ

/-- `1e-3f`, and `REL_ERR_THRESHOLD`. -/
def relErrThreshold : Value := .finite (1 / 1000)

def absErr (x y : Value) : Value := (x.sub y).abs

def relErr (x y : Value) : Value := (absErr x y).div (keepMax (.finite 1) y.abs)

/-! ## `amp_validate_kernel` -/

structure ErrorFold where
  maxAbsErr : Value
  maxRelErr : Value
  deriving DecidableEq

def errorStep (acc : ErrorFold) (pair : Value × Value) : ErrorFold where
  maxAbsErr := keepMax acc.maxAbsErr (absErr pair.1 pair.2)
  maxRelErr := keepMax acc.maxRelErr (relErr pair.1 pair.2)

def errorFold (c ref : List Value) : ErrorFold :=
  (c.zip ref).foldl errorStep { maxAbsErr := .finite 0, maxRelErr := .finite 0 }

def reportsPass (c ref : List Value) : Bool := less (errorFold c ref).maxRelErr relErrThreshold

/-- The exit code once the plugin has returned `rc` and the output `c`. -/
def validateExit (rc : Int) (c ref : List Value) : Nat :=
  if rc ≠ 0 then 1 else if reportsPass c ref then 0 else 1

theorem validate_exit_zero_iff (rc : Int) (c ref : List Value) :
    validateExit rc c ref = 0 ↔ rc = 0 ∧ reportsPass c ref = true := by
  by_cases ran : rc = 0
  · cases pass : reportsPass c ref with
    | true => simp [validateExit, ran, pass]
    | false => simp [validateExit, ran, pass]
  · simp [validateExit, ran]

/-! ## `parity_check.py` -/

/-- Python's `max`, which raises `ValueError` on nothing. -/
def pyMax : List Value → Option Value
  | [] => none
  | first :: rest => some (rest.foldl keepMax first)

def maxAbsErr (outA outB : List Value) : Option Value :=
  pyMax ((outA.zip outB).map fun pair => absErr pair.1 pair.2)

def maxRelErr (outA outB : List Value) : Option Value :=
  pyMax ((outA.zip outB).map fun pair => relErr pair.1 pair.2)

/-! ## Element errors -/

theorem rel_err_finite (p q : ℚ) :
    relErr (.finite p) (.finite q) = .finite (|p - q| / max 1 |q|) := by
  have positive : max 1 |q| ≠ 0 := (lt_max_of_lt_left one_pos).ne'
  change (IeeeValue.finite |p - q|).div (keepMax (.finite 1) (.finite |q|)) = _
  rw [keep_max_finite]
  exact if_neg positive

/-- The error is indeterminate when the output is NaN or the reference is NaN or
infinite. -/
theorem rel_err_nan_iff (x y : Value) : relErr x y = .nan ↔ x = .nan ∨ y.isFinite = false := by
  cases y with
  | finite q =>
      have positive : ¬max 1 |q| < 0 := not_lt.mpr (zero_le_one.trans (le_max_left _ _))
      cases x with
      | finite p => simp [rel_err_finite, isFinite]
      | nan => simp [relErr, absErr, sub, IeeeValue.abs, div]
      | negInf =>
          simp [relErr, absErr, sub, IeeeValue.abs, keep_max_finite, div, positive, isFinite]
      | posInf =>
          simp [relErr, absErr, sub, IeeeValue.abs, keep_max_finite, div, positive, isFinite]
  | nan => cases x <;> simp [relErr, absErr, sub, IeeeValue.abs, div, isFinite]
  | negInf => cases x <;> simp [relErr, absErr, sub, IeeeValue.abs, keepMax, less, div, isFinite]
  | posInf => cases x <;> simp [relErr, absErr, sub, IeeeValue.abs, keepMax, less, div, isFinite]

/-! ## What the folds see -/

theorem error_fold_rel (pairs : List (Value × Value)) (acc : ErrorFold) :
    (pairs.foldl errorStep acc).maxRelErr =
      (pairs.map fun pair => relErr pair.1 pair.2).foldl keepMax acc.maxRelErr := by
  induction pairs generalizing acc with
  | nil => rfl
  | cons pair rest ih =>
      rw [List.foldl_cons, ih, List.map_cons, List.foldl_cons]
      rfl

theorem reports_pass_iff (c ref : List Value) :
    reportsPass c ref = true ↔ ∀ pair ∈ c.zip ref,
      relErr pair.1 pair.2 = .nan ∨ less (relErr pair.1 pair.2) relErrThreshold = true := by
  have start : less (.finite 0) relErrThreshold = true := by decide +kernel
  unfold reportsPass errorFold
  rw [error_fold_rel, fold_max_less_iff, List.forall_mem_map]
  exact and_iff_right start

theorem max_rel_err_less_iff (outA outB : List Value) :
    (∃ worst, maxRelErr outA outB = some worst ∧ less worst relErrThreshold = true) ↔
      ∃ first rest, outA.zip outB = first :: rest ∧
        less (relErr first.1 first.2) relErrThreshold = true ∧
        ∀ pair ∈ rest, relErr pair.1 pair.2 = .nan ∨
          less (relErr pair.1 pair.2) relErrThreshold = true := by
  unfold maxRelErr
  cases outA.zip outB with
  | nil => simp [pyMax]
  | cons first rest =>
      simp only [List.map_cons, pyMax, Option.some.injEq, exists_eq_left', List.cons.injEq]
      rw [fold_max_less_iff, List.forall_mem_map]
      constructor
      · intro small
        exact ⟨first, rest, ⟨rfl, rfl⟩, small⟩
      · intro found
        rcases found with ⟨_, _, ⟨rfl, rfl⟩, small⟩
        exact small

/-! ## Soundness of a PASS -/

def AllClose (out ref : List Value) : Prop :=
  ∀ pair ∈ out.zip ref, less (relErr pair.1 pair.2) relErrThreshold = true

/-- A PASS of either tool means that every element is close, and so no output is
NaN. -/
def PassSound (out ref : List Value) : Prop :=
  (reportsPass out ref = true ∨
    ∃ worst, maxRelErr out ref = some worst ∧ less worst relErrThreshold = true) →
  AllClose out ref ∧ ∀ x ∈ out, x ≠ .nan

/-- No output is NaN and every reference is a number of finite size. -/
def Determinate (out ref : List Value) : Prop :=
  (∀ x ∈ out, x ≠ .nan) ∧ ∀ y ∈ ref, y.isFinite = true

/-- Some output that is a number is far from its finite reference. -/
def KnownFar (out ref : List Value) : Prop :=
  ∃ pair ∈ out.zip ref, pair.1 ≠ .nan ∧ pair.2.isFinite = true ∧
    less (relErr pair.1 pair.2) relErrThreshold = false

theorem pass_sees_numbers {out ref : List Value}
    (pass : reportsPass out ref = true ∨
      ∃ worst, maxRelErr out ref = some worst ∧ less worst relErrThreshold = true) :
    ∀ pair ∈ out.zip ref,
      relErr pair.1 pair.2 = .nan ∨ less (relErr pair.1 pair.2) relErrThreshold = true := by
  rcases pass with validated | parity
  · exact (reports_pass_iff out ref).mp validated
  · rcases (max_rel_err_less_iff out ref).mp parity with ⟨first, rest, shape, small, later⟩
    rw [shape]
    exact List.forall_mem_cons.mpr ⟨Or.inr small, later⟩

theorem determinate_close {out ref : List Value} (determinate : Determinate out ref)
    (seen : ∀ pair ∈ out.zip ref,
      relErr pair.1 pair.2 = .nan ∨ less (relErr pair.1 pair.2) relErrThreshold = true) :
    AllClose out ref := by
  intro pair member
  refine (seen pair member).resolve_left ?_
  rw [rel_err_nan_iff, not_or, Bool.not_eq_false]
  exact ⟨determinate.1 pair.1 (List.of_mem_zip member).1,
    determinate.2 pair.2 (List.of_mem_zip member).2⟩

/-- Without NaN the maximum of `parity_check.py` decides closeness. -/
theorem max_small_iff_close {out ref : List Value} (determinate : Determinate out ref)
    {worst : Value} (computed : maxRelErr out ref = some worst) :
    less worst relErrThreshold = true ↔ AllClose out ref := by
  constructor
  · intro small
    exact determinate_close determinate (pass_sees_numbers (Or.inr ⟨worst, computed, small⟩))
  · intro close
    cases shape : out.zip ref with
    | nil =>
        rw [maxRelErr, shape] at computed
        cases computed
    | cons first rest =>
        unfold AllClose at close
        rw [shape, List.forall_mem_cons] at close
        rcases (max_rel_err_less_iff out ref).mpr
          ⟨first, rest, shape, close.1, fun pair later => Or.inr (close.2 pair later)⟩ with
          ⟨found, same, small⟩
        rw [computed, Option.some.injEq] at same
        rwa [same]

theorem all_close_numbers {out ref : List Value} (sameLength : out.length = ref.length)
    (close : AllClose out ref) : Determinate out ref := by
  have determinate : ∀ pair ∈ out.zip ref, pair.1 ≠ .nan ∧ pair.2.isFinite = true := by
    intro pair member
    have small := close pair member
    have number : relErr pair.1 pair.2 ≠ .nan := by
      intro isNan
      rw [isNan, less_nan_left] at small
      cases small
    rw [ne_eq, rel_err_nan_iff, not_or, Bool.not_eq_false] at number
    exact number
  constructor
  · intro x member
    rw [← List.map_fst_zip sameLength.le] at member
    rcases List.mem_map.mp member with ⟨pair, inside, rfl⟩
    exact (determinate pair inside).1
  · intro y member
    rw [← List.map_snd_zip sameLength.ge] at member
    rcases List.mem_map.mp member with ⟨pair, inside, rfl⟩
    exact (determinate pair inside).2

/-- A PASS is sound exactly on determinate inputs and on those that fail for a
number anyway. -/
theorem pass_sound_iff {out ref : List Value} (sameLength : out.length = ref.length) :
    PassSound out ref ↔ Determinate out ref ∨ KnownFar out ref := by
  constructor
  · intro sound
    by_cases far : KnownFar out ref
    · exact Or.inr far
    · left
      have pass : reportsPass out ref = true := by
        rw [reports_pass_iff]
        intro pair member
        by_cases isNan : relErr pair.1 pair.2 = .nan
        · exact Or.inl isNan
        · right
          rw [rel_err_nan_iff, not_or, Bool.not_eq_false] at isNan
          rw [← Bool.not_eq_false]
          intro large
          exact far ⟨pair, member, isNan.1, isNan.2, large⟩
      exact all_close_numbers sameLength (sound (Or.inl pass)).1
  · intro condition pass
    have seen := pass_sees_numbers pass
    rcases condition with determinate | far
    · exact ⟨determinate_close determinate seen, determinate.1⟩
    · rcases far with ⟨pair, member, number, finite, large⟩
      rcases seen pair member with isNan | small
      · rw [rel_err_nan_iff] at isNan
        rcases isNan with isNan | infinite
        · exact absurd isNan number
        · rw [finite] at infinite
          cases infinite
      · rw [large] at small
        cases small

theorem pass_sound_iff_two_elements :
    PassSound [.finite 1, .nan] [.finite 3, .finite 2] ↔
      Determinate [.finite 1, .nan] [.finite 3, .finite 2] ∨
        KnownFar [.finite 1, .nan] [.finite 3, .finite 2] :=
  pass_sound_iff rfl

/-- A NaN after a correct element passes. -/
theorem nan_output_passes :
    ¬∀ out ref : List Value, out ≠ [] → out.length = ref.length → PassSound out ref := by
  intro always
  have sound := always [.finite 0, .nan] [.finite 0, .finite 0] (by decide) rfl
  have pass : reportsPass [.finite 0, .nan] [.finite 0, .finite 0] = true := by decide +kernel
  exact (sound (Or.inl pass)).2 .nan (by decide) rfl

end AmpFormal.ErrorFolds
