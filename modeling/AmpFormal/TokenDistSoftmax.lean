import AmpFormal.RejectionSampling

/-!
# The probabilities of a token distribution

A transcription of `TokenDist::probs`, which computes a softmax of the logits at its
first call and keeps it: the temperature of a later call is not looked at. A `float`
is an element of an ordered field with a function for `exp`, and a real number where
the values of `exp` matter.
-/

namespace AmpFormal.TokenDistSoftmax

open AmpFormal.FirstMaximum AmpFormal.SpeculativeModel AmpFormal.SpeculativeVerification
open AmpFormal.RejectionSampling

set_option autoImplicit false

/-! ## The model -/

section Model

variable {R : Type*}

/-- `TokenDist` with the fields that `probs()` writes. -/
structure LazyTokenDist (R : Type*) where
  logits : List R
  probs : List R := []
  probsComputed : Bool := false

variable [Field R] [LinearOrder R]

/-- `std::max(temperature, 1e-6f)`. -/
def clampTemperature (temperature : R) : R := max temperature (1 / 1000000)

def weights (exp : R → R) (logits : List R) (temperature : R) : List R :=
  logits.map fun l =>
    exp ((l - logits.getD (maxElement logits) 0) / clampTemperature temperature)

/-- The body of `probs()`; without a logit it dereferences the end of the vector. -/
def softmax (exp : R → R) (logits : List R) (temperature : R) : Option (List R) :=
  if logits = [] then none
  else some ((weights exp logits temperature).map (· / (weights exp logits temperature).sum))

def LazyTokenDist.probsCall (exp : R → R) (dist : LazyTokenDist R) (temperature : R) :
    Option (LazyTokenDist R × List R) :=
  if dist.probsComputed then some (dist, dist.probs)
  else do
    let probs ← softmax exp dist.logits temperature
    some ({ dist with probs, probsComputed := true }, probs)

/-- What a sequence of calls on one object returns. -/
def LazyTokenDist.probsCalls (exp : R → R) : LazyTokenDist R → List R → Option (List (List R))
  | _, [] => some []
  | dist, temperature :: later => do
      let (dist, probs) ← dist.probsCall exp temperature
      let others ← probsCalls exp dist later
      some (probs :: others)

theorem computed_calls (exp : R → R) {dist : LazyTokenDist R} (computed : dist.probsComputed = true)
    (later : List R) :
    dist.probsCalls exp later = some (List.replicate later.length dist.probs) := by
  induction later with
  | nil => rfl
  | cons temperature later ih =>
      unfold LazyTokenDist.probsCalls LazyTokenDist.probsCall
      rw [if_pos computed]
      simp only [Option.bind_eq_bind, Option.bind_some, ih]
      rfl

/-- The first call decides what all calls return. -/
theorem first_call_decides (exp : R → R) (logits : List R) (first : R) (later : List R) :
    ({ logits } : LazyTokenDist R).probsCalls exp (first :: later) =
      (softmax exp logits first).map (List.replicate (later.length + 1)) := by
  unfold LazyTokenDist.probsCalls LazyTokenDist.probsCall
  cases softmax exp logits first with
  | none => rfl
  | some probs =>
      have kept : (⟨logits, probs, true⟩ : LazyTokenDist R).probsCalls exp later =
          some (List.replicate later.length probs) := computed_calls exp rfl later
      simp only [Bool.false_eq_true, if_false, Option.bind_eq_bind, Option.bind_some, kept]
      rfl

end Model

/-! ## The vector over the real numbers -/

section Softmax

variable {logits : List ℝ} {temperature : ℝ}

theorem clamp_temperature_pos (temperature : ℝ) : 0 < clampTemperature temperature :=
  lt_max_of_lt_right (by norm_num)

theorem weights_getD {i : Nat} (inside : i < logits.length) :
    (weights Real.exp logits temperature).getD i 0 = Real.exp
      ((logits.getD i 0 - logits.getD (maxElement logits) 0) / clampTemperature temperature) := by
  unfold weights
  rw [List.getD_eq_getElem _ _ (by rwa [List.length_map]), List.getElem_map,
    List.getD_eq_getElem logits 0 inside]

theorem weights_pos : ∀ w ∈ weights Real.exp logits temperature, 0 < w := by
  intro w member
  obtain ⟨l, _, rfl⟩ := List.mem_map.mp member
  exact Real.exp_pos _

theorem weights_sum_pos (nonempty : logits ≠ []) :
    0 < (weights Real.exp logits temperature).sum := by
  apply List.sum_pos _ weights_pos
  exact List.map_eq_nil_iff.not.mpr nonempty

theorem softmax_getD (nonempty : logits ≠ []) {p : List ℝ}
    (computed : softmax Real.exp logits temperature = some p) {i : Nat}
    (inside : i < logits.length) :
    p.getD i 0 = (weights Real.exp logits temperature).getD i 0 /
      (weights Real.exp logits temperature).sum := by
  unfold softmax at computed
  rw [if_neg nonempty, Option.some.injEq] at computed
  have within : i < (weights Real.exp logits temperature).length := by
    rwa [weights, List.length_map]
  rw [← computed, List.getD_eq_getElem _ _ (by rwa [List.length_map]), List.getElem_map,
    List.getD_eq_getElem _ _ within]

theorem softmax_distribution (nonempty : logits ≠ []) {p : List ℝ}
    (computed : softmax Real.exp logits temperature = some p) :
    IsDistribution logits.length p := by
  have total : 0 < (weights Real.exp logits temperature).sum := weights_sum_pos nonempty
  unfold softmax at computed
  rw [if_neg nonempty, Option.some.injEq] at computed
  rw [← computed]
  refine ⟨by rw [List.length_map, weights, List.length_map], ?_, ?_⟩
  · intro q member
    obtain ⟨w, inside, rfl⟩ := List.mem_map.mp member
    exact div_nonneg (weights_pos w inside).le total.le
  · simp only [div_eq_mul_inv]
    rw [List.sum_map_mul_right, List.map_id', mul_inv_cancel₀ total.ne']

theorem softmax_ratio (nonempty : logits ≠ []) {p : List ℝ}
    (computed : softmax Real.exp logits temperature = some p) {i j : Nat}
    (insideI : i < logits.length) (insideJ : j < logits.length) :
    p.getD j 0 = p.getD i 0 * Real.exp
      ((logits.getD j 0 - logits.getD i 0) / clampTemperature temperature) := by
  rw [softmax_getD nonempty computed insideI, softmax_getD nonempty computed insideJ,
    weights_getD insideI, weights_getD insideJ, div_mul_eq_mul_div, ← Real.exp_add, ← add_div]
  congr 3
  ring

theorem softmax_pos (nonempty : logits ≠ []) {p : List ℝ}
    (computed : softmax Real.exp logits temperature = some p) {i : Nat}
    (inside : i < logits.length) : 0 < p.getD i 0 := by
  rw [softmax_getD nonempty computed inside, weights_getD inside]
  exact div_pos (Real.exp_pos _) (weights_sum_pos nonempty)

theorem softmax_lt_iff (nonempty : logits ≠ []) {p : List ℝ}
    (computed : softmax Real.exp logits temperature = some p) {i j : Nat}
    (insideI : i < logits.length) (insideJ : j < logits.length) :
    p.getD i 0 < p.getD j 0 ↔ logits.getD i 0 < logits.getD j 0 := by
  rw [softmax_ratio nonempty computed insideI insideJ,
    lt_mul_iff_one_lt_right (softmax_pos nonempty computed insideI), Real.one_lt_exp_iff,
    lt_div_iff₀ (clamp_temperature_pos temperature), zero_mul, sub_pos]

theorem softmax_max_element (nonempty : logits ≠ []) {p : List ℝ}
    (computed : softmax Real.exp logits temperature = some p) :
    maxElement p = maxElement logits := by
  have length : p.length = logits.length := (softmax_distribution nonempty computed).length
  have filled : p ≠ [] := by
    rw [← List.length_pos_iff, length]
    exact List.length_pos_iff.mpr nonempty
  obtain ⟨best, here, greatest, strict⟩ := max_element_first nonempty
  obtain ⟨inside, value⟩ := List.getElem?_eq_some_iff.mp here
  have bestValue : logits.getD (maxElement logits) 0 = best := by
    rw [List.getD_eq_getElem _ _ inside, value]
  rw [max_element_eq_argmax filled]
  apply argmax_eq_of_first
  refine ⟨p.getD (maxElement logits) 0, ?_, ?_, ?_⟩
  · rw [List.getD_eq_getElem _ _ (length ▸ inside)]
    exact List.getElem?_eq_getElem _
  · intro q member
    obtain ⟨j, insideJ, rfl⟩ := List.mem_iff_getElem.mp member
    have within : j < logits.length := length ▸ insideJ
    rw [← List.getD_eq_getElem _ 0 insideJ, ← not_lt,
      softmax_lt_iff nonempty computed inside within, bestValue,
      List.getD_eq_getElem _ _ within]
    exact not_lt.mpr (greatest _ (List.getElem_mem _))
  · intro earlier before q found
    obtain ⟨insideJ, rfl⟩ := List.getElem?_eq_some_iff.mp found
    have within : earlier < logits.length := length ▸ insideJ
    rw [← List.getD_eq_getElem _ 0 insideJ, softmax_lt_iff nonempty computed within inside,
      bestValue, List.getD_eq_getElem _ _ within]
    exact strict earlier before _ (List.getElem?_eq_getElem within)

/-- Tokens that are at least `gap` below the greatest logit are rare at a low
temperature. -/
theorem softmax_concentrates (nonempty : logits ≠ []) {p : List ℝ}
    (computed : softmax Real.exp logits temperature = some p) (gap : ℝ) :
    ∑ i ∈ (Finset.range logits.length).filter (fun i =>
        logits.getD i 0 + gap ≤ logits.getD (maxElement logits) 0), p.getD i 0 ≤
      logits.length * Real.exp (-gap / clampTemperature temperature) := by
  have distribution := softmax_distribution nonempty computed
  have best := max_element_lt nonempty
  have small : ∀ i ∈ (Finset.range logits.length).filter (fun i =>
      logits.getD i 0 + gap ≤ logits.getD (maxElement logits) 0),
      p.getD i 0 ≤ Real.exp (-gap / clampTemperature temperature) := by
    intro i member
    obtain ⟨inRange, below⟩ := Finset.mem_filter.mp member
    have atMost : p.getD (maxElement logits) 0 ≤ 1 := by
      rw [← distribution.total, List.getD_eq_getElem _ _ (distribution.length ▸ best)]
      exact List.single_le_sum distribution.nonneg _ (List.getElem_mem _)
    rw [softmax_ratio nonempty computed best (Finset.mem_range.mp inRange)]
    apply (mul_le_of_le_one_left (Real.exp_pos _).le atMost).trans
    apply Real.exp_le_exp.mpr
    apply div_le_div_of_nonneg_right _ (clamp_temperature_pos temperature).le
    linarith
  apply (Finset.sum_le_card_nsmul _ _ _ small).trans
  rw [nsmul_eq_mul]
  apply mul_le_mul_of_nonneg_right _ (Real.exp_pos _).le
  exact_mod_cast (Finset.card_filter_le _ _).trans (Finset.card_range _).le

end Softmax

/-! ## The calls on one object -/

/-- All calls return one vector, the softmax at the temperature of the first: it is a
distribution in which the logits decide every ratio, its greatest entry is where the
greatest logit is, and the rest vanishes with the temperature. -/
theorem probs_calls_are_softmax {logits : List ℝ} (nonempty : logits ≠ []) (first : ℝ)
    (later : List ℝ) :
    ∃ p, ({ logits } : LazyTokenDist ℝ).probsCalls Real.exp (first :: later) =
        some (List.replicate (later.length + 1) p) ∧
      IsDistribution logits.length p ∧
      (∀ i < logits.length, ∀ j < logits.length, p.getD j 0 = p.getD i 0 * Real.exp
        ((logits.getD j 0 - logits.getD i 0) / clampTemperature first)) ∧
      maxElement p = maxElement logits ∧
      ∀ gap, ∑ i ∈ (Finset.range logits.length).filter (fun i =>
          logits.getD i 0 + gap ≤ logits.getD (maxElement logits) 0), p.getD i 0 ≤
        logits.length * Real.exp (-gap / clampTemperature first) := by
  have computed : softmax Real.exp logits first = some _ := if_neg nonempty
  refine ⟨_, ?_, softmax_distribution nonempty computed, ?_, softmax_max_element nonempty computed,
    softmax_concentrates nonempty computed⟩
  · rw [first_call_decides, computed]
    rfl
  · intro i insideI j insideJ
    exact softmax_ratio nonempty computed insideI insideJ

/-- Called at 1 and then at 0. -/
theorem probs_calls_are_softmax_two_tokens :
    ∃ p, ({ logits := [0, 5] } : LazyTokenDist ℝ).probsCalls Real.exp [1, 0] =
        some (List.replicate 2 p) ∧
      IsDistribution 2 p ∧
      (∀ i < 2, ∀ j < 2, p.getD j 0 = p.getD i 0 * Real.exp
        (([0, 5].getD j 0 - [0, 5].getD i 0) / clampTemperature 1)) ∧
      maxElement p = maxElement [(0 : ℝ), 5] ∧
      ∀ gap, ∑ i ∈ (Finset.range 2).filter (fun i =>
          [0, 5].getD i 0 + gap ≤ [(0 : ℝ), 5].getD (maxElement [(0 : ℝ), 5]) 0), p.getD i 0 ≤
        (2 : Nat) * Real.exp (-gap / clampTemperature 1) :=
  probs_calls_are_softmax (List.cons_ne_nil 0 [5]) 1 [0]

end AmpFormal.TokenDistSoftmax
