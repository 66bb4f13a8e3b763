import AmpFormal.GuardedRejection
import AmpFormal.SpeculativeVerification
import Mathlib.MeasureTheory.Measure.Lebesgue.Basic
import Mathlib.MeasureTheory.Measure.Prod
import Mathlib.MeasureTheory.Measure.Real

/-!
# The law of a verified position

At a position that `verify` reaches, the accept draw and the bonus draw are
uniform on [0, 1) and the index of the degenerate branch is uniform over the
vocabulary; the draft is distributed as its own distribution. Every other draft
and draw is fixed and arbitrary. The law of the emitted token is then the outcome
of a guarded rejection.
-/

namespace AmpFormal.RejectionSampling

open AmpFormal.GuardedRejection AmpFormal.SpeculativeModel
open AmpFormal.SpeculativeVerification hiding residual
open MeasureTheory Set

set_option autoImplicit false

/-! ## The measure of the samplers -/

/-- The range of `uniform_real_distribution(0, 1)`. -/
abbrev unitDraws : Set ℝ := Ico 0 1

theorem unit_draws_interval {lower upper : ℝ} {event : ℝ → Prop} (nonneg : 0 ≤ lower)
    (ordered : lower ≤ upper) (small : upper ≤ 1)
    (interval : ∀ u, 0 < u → u < 1 → (event u ↔ lower < u ∧ u ≤ upper)) :
    volume.real {u | u ∈ unitDraws ∧ event u} = upper - lower := by
  have same : {u | u ∈ unitDraws ∧ event u} =ᵐ[volume] Ioc lower upper := by
    filter_upwards [compl_mem_ae_iff.mpr (measure_singleton (0 : ℝ)),
      compl_mem_ae_iff.mpr (measure_singleton (1 : ℝ))] with u notZero notOne
    refine propext ⟨?_, ?_⟩
    · intro member
      have positive : 0 < u := lt_of_le_of_ne member.1.1 (Ne.symm notZero)
      exact (interval u positive member.1.2).mp member.2
    · intro member
      have below : u < 1 := lt_of_le_of_ne (member.2.trans small) notOne
      have positive : 0 < u := nonneg.trans_lt member.1
      exact ⟨⟨positive.le, below⟩, (interval u positive below).mpr member⟩
  rw [measureReal_congr same, Real.volume_real_Ioc_of_le ordered]

theorem partial_sum_mono {weights : List ℝ} (nonneg : ∀ w ∈ weights, 0 ≤ w) {i j : Nat}
    (ordered : i ≤ j) : (weights.take i).sum ≤ (weights.take j).sum := by
  have tail : 0 ≤ ((weights.take j).drop i).sum :=
    List.sum_nonneg fun w member => nonneg w (List.mem_of_mem_take (List.mem_of_mem_drop member))
  have whole := List.sum_take_add_sum_drop (weights.take j) i
  rw [List.take_take, Nat.min_eq_left ordered] at whole
  linarith

/-- A uniform draw finds each token with its probability. -/
theorem sampled_law {V : Nat} {probs : List ℝ} (distribution : IsDistribution V probs) {y : Nat}
    (inside : y < V) :
    volume.real {r | r ∈ unitDraws ∧ cdfScan r ((probs.length : Int) - 1) 0 0 probs = y} =
      probs.getD y 0 := by
  have within : y < probs.length := by rw [distribution.length]; exact inside
  have step := List.sum_take_succ probs y within
  have mono := fun {i j} => partial_sum_mono distribution.nonneg (i := i) (j := j)
  have all : ∀ i, (probs.take i).sum ≤ 1 := by
    intro i
    have := mono (Nat.le_max_left i probs.length)
    rw [List.take_of_length_le (Nat.le_max_right i probs.length), distribution.total] at this
    exact this
  have interval : ∀ r, 0 < r → r < 1 →
      (cdfScan r ((probs.length : Int) - 1) 0 0 probs = y ↔
        (probs.take y).sum < r ∧ r ≤ (probs.take (y + 1)).sum) := by
    intro r positive below
    obtain ⟨j, -, found, lower, upper⟩ :=
      sampled_interval ⟨fun _ => r, fun _ _ => 0⟩ 0 distribution positive below
    change cdfScan r ((probs.length : Int) - 1) 0 0 probs = j at found
    change (probs.take j).sum < r at lower
    change r ≤ (probs.take (j + 1)).sum at upper
    rw [found]
    constructor
    · intro same
      have : j = y := by exact_mod_cast same
      subst this
      exact ⟨lower, upper⟩
    · intro both
      rcases Nat.lt_trichotomy j y with before | same | after
      · exact absurd (upper.trans (mono before)) (not_le.mpr both.1)
      · rw [same]
      · exact absurd (both.2.trans (mono after)) (not_le.mpr lower)
  have start : 0 ≤ (probs.take y).sum := by
    have := mono (Nat.zero_le y)
    rwa [List.take_zero, List.sum_nil] at this
  rw [unit_draws_interval start (mono (Nat.le_succ y)) (all (y + 1)) interval, step,
    add_sub_cancel_left, List.getD_eq_getElem _ _ within]

theorem unit_square_finite {event : Set (ℝ × ℝ)} (inside : event ⊆ unitDraws ×ˢ unitDraws) :
    volume event ≠ ⊤ := by
  have square : volume (unitDraws ×ˢ unitDraws) = 1 := by
    rw [Measure.volume_eq_prod, Measure.prod_prod, Real.volume_Ico, sub_zero, ENNReal.ofReal_one,
      one_mul]
  exact ne_top_of_le_ne_top (square ▸ ENNReal.one_ne_top) (measure_mono inside)

/-- Two independent draws: the first accepts up to `a`, else the second decides. -/
theorem two_draws_law {a : ℝ} {same : Prop} [Decidable same] {event : ℝ → Prop} (nonneg : 0 ≤ a)
    (small : a ≤ 1) :
    volume.real {ur : ℝ × ℝ | ur ∈ unitDraws ×ˢ unitDraws ∧
      ((ur.1 ≤ a ∧ same) ∨ (a < ur.1 ∧ event ur.2))} =
    (if same then a else 0) + (1 - a) * volume.real {r | r ∈ unitDraws ∧ event r} := by
  have accepted : volume.real {u | u ∈ unitDraws ∧ (u ≤ a ∧ same)} = if same then a else 0 := by
    split
    case isTrue holds =>
      rw [unit_draws_interval (le_refl 0) nonneg small
        (fun u positive _ => by simp [holds, positive]), sub_zero]
    case isFalse fails => simp [fails]
  have rejected : volume.real {u | u ∈ unitDraws ∧ a < u} = 1 - a :=
    unit_draws_interval nonneg small (le_refl 1) (fun u _ below => by simp [below.le])
  have whole : volume.real {r | r ∈ unitDraws ∧ True} = 1 - 0 :=
    unit_draws_interval (le_refl 0) zero_le_one (le_refl 1)
      (fun u positive below => by simp [positive, below.le])
  have measurable : MeasurableSet ({u | u ∈ unitDraws ∧ (u ≤ a ∧ same)} ×ˢ
      {r | r ∈ unitDraws ∧ True}) :=
    (measurableSet_Ico.inter (measurableSet_Iic.inter (MeasurableSet.const same))).prod
      (measurableSet_Ico.inter (MeasurableSet.const True))
  have union : {ur : ℝ × ℝ | ur ∈ unitDraws ×ˢ unitDraws ∧
      ((ur.1 ≤ a ∧ same) ∨ (a < ur.1 ∧ event ur.2))} =
      {u | u ∈ unitDraws ∧ (u ≤ a ∧ same)} ×ˢ {r | r ∈ unitDraws ∧ True} ∪
        {u | u ∈ unitDraws ∧ a < u} ×ˢ {r | r ∈ unitDraws ∧ event r} := by
    ext ⟨u, r⟩
    simp only [mem_ofPred_eq, mem_union, mem_prod]
    tauto
  have disjoint : Disjoint ({u | u ∈ unitDraws ∧ (u ≤ a ∧ same)} ×ˢ {r | r ∈ unitDraws ∧ True})
      ({u | u ∈ unitDraws ∧ a < u} ×ˢ {r | r ∈ unitDraws ∧ event r}) := by
    rw [Set.disjoint_left]
    intro ur first second
    exact absurd first.1.2.1 (not_le.mpr second.1.2)
  rw [union, measureReal_union' disjoint measurable
      (unit_square_finite fun ur member => ⟨member.1.1, member.2.1⟩)
      (unit_square_finite fun ur member => ⟨member.1.1, member.2.1⟩),
    Measure.volume_eq_prod, measureReal_prod_prod, measureReal_prod_prod, accepted, rejected,
    whole, sub_zero, mul_one]

/-! ## The position -/

/-- The draws with the accept draw `u` as the `n`-th and the bonus draws after it. -/
def withDraws (draws : Draws ℝ) (n : Nat) (u r : ℝ) (index : Nat) : Draws ℝ :=
  { real := Function.update (Function.update draws.real n u) (n + 1) r
    index := Function.update draws.index (n + 1) fun _ => index }

def Emits (draws : Draws ℝ) (engine : SpecDecodeEngine) (drafts : List Int)
    (draftDists targetDists : List (TokenDist ℝ)) (i : Nat) (token : Int) : Prop :=
  ∃ final result, verify draws engine drafts draftDists targetDists = some (final, result) ∧
    result.produced[i]? = some token

noncomputable def fallback (r : ℝ) (index : Nat) (pTarget pDraft : List ℝ) : Int :=
  if Degenerate pTarget pDraft then index
  else cdfScan r ((pTarget.length : Int) - 1) 0 0 (SpeculativeVerification.residual pTarget pDraft)

section Position

variable {draws : Draws ℝ} {drafts : List Int} {draftDists targetDists : List (TokenDist ℝ)}
  {start i x index : Nat} {u r : ℝ}

theorem accepts_before {j : Nat} (before : j < i) :
    acceptsAt (withDraws draws (start + i) u r index) (drafts.set i x) draftDists targetDists
      start j = acceptsAt draws drafts draftDists targetDists start j := by
  have draw : (withDraws draws (start + i) u r index).real (start + j) =
      draws.real (start + j) := by
    unfold withDraws
    dsimp only
    rw [Function.update_of_ne (by omega), Function.update_of_ne (by omega)]
  unfold acceptsAt
  rw [draw, List.getElem?_set_ne (by omega)]

theorem accepts_here (draws : Draws ℝ) (start index : Nat) (u r : ℝ) {draft target : TokenDist ℝ}
    (inside : i < drafts.length)
    (draftRead : draftDists[i]? = some draft) (read : targetDists[i]? = some target)
    (inTarget : x < target.probs.length) (inDraft : x < draft.probs.length) :
    acceptsAt (withDraws draws (start + i) u r index) (drafts.set i x) draftDists targetDists
      start i =
    some (decide (u ≤ acceptProb (target.probs.getD x 0) (draft.probs.getD x 0))) := by
  have draw : (withDraws draws (start + i) u r index).real (start + i) = u := by
    unfold withDraws
    dsimp only
    rw [Function.update_of_ne (by omega), Function.update_self]
  unfold acceptsAt probAt
  rw [draw, List.getElem?_set_self inside, draftRead, read]
  simp [inTarget, inDraft]

theorem residual_sampled_here (pTarget pDraft : List ℝ) :
    residualSampled (withDraws draws (start + i) u r index) (start + i + 1) pTarget pDraft =
      fallback r index pTarget pDraft := by
  unfold residualSampled fallback sampled withDraws
  simp only [Function.update_self, residual_length]

theorem emits_iff {engine : SpecDecodeEngine} {draft target : TokenDist ℝ} {y : Nat}
    (tokens : ∀ x ∈ drafts, 0 ≤ x) (draftLength : drafts.length = draftDists.length)
    (targetLength : targetDists.length = drafts.length + 1)
    (reached : ∀ j < i, acceptsAt draws drafts draftDists targetDists engine.drawn j = some true)
    (inside : i < drafts.length) (draftRead : draftDists[i]? = some draft)
    (read : targetDists[i]? = some target) (inTarget : x < target.probs.length)
    (inDraft : x < draft.probs.length) :
    Emits (withDraws draws (engine.drawn + i) u r index) engine (drafts.set i x) draftDists
      targetDists i y ↔
    (u ≤ acceptProb (target.probs.getD x 0) (draft.probs.getD x 0) ∧ x = y) ∨
      (acceptProb (target.probs.getD x 0) (draft.probs.getD x 0) < u ∧
        fallback r index target.probs draft.probs = y) := by
  have setTokens : ∀ token ∈ drafts.set i (x : Int), 0 ≤ token := by
    intro token member
    rcases List.mem_or_eq_of_mem_set member with old | rfl
    · exact tokens token old
    · exact Int.natCast_nonneg x
  have setLength : (drafts.set i (x : Int)).length = drafts.length := List.length_set
  obtain ⟨final, result, executed⟩ := verify_executes
    (withDraws draws (engine.drawn + i) u r index) setTokens (setLength.trans draftLength)
    (setLength.symm ▸ targetLength) engine
  obtain ⟨m, effect⟩ := verify_effect executed
  have decision := accepts_here draws engine.drawn index u r inside draftRead read inTarget inDraft
  have outcome := produced_at effect rfl (setLength.symm ▸ inside)
    fun j before => (accepts_before before).trans (reached j before)
  rw [decision, List.getElem?_set_self inside] at outcome
  have emits : Emits (withDraws draws (engine.drawn + i) u r index) engine (drafts.set i x)
      draftDists targetDists i y ↔ result.produced[i]? = some (y : Int) := by
    constructor
    · rintro ⟨otherFinal, other, otherExecuted, produced⟩
      cases executed.symm.trans otherExecuted
      exact produced
    · exact fun produced => ⟨final, result, executed, produced⟩
  rw [emits]
  obtain ⟨accepts, produced⟩ | ⟨rejects, draftDist, targetDist, draftFound, found, produced⟩ :=
    outcome
  · have below := of_decide_eq_true (Option.some.inj accepts)
    rw [produced, and_iff_right below, or_iff_left fun rejected => not_lt.mpr below rejected.1,
      Option.some_inj, Nat.cast_inj]
  · have above := not_le.mp (of_decide_eq_false (Option.some.inj rejects))
    cases draftFound.symm.trans draftRead
    cases found.symm.trans read
    rw [produced, residual_sampled_here, and_iff_right above,
      or_iff_right fun accepted => not_le.mpr above accepted.1, Option.some_inj]

end Position

/-! ## The law -/

/-- The probability that `y` is emitted for the position `i`: the draft follows
`pDraft`, the two draws and the index are uniform, the rest is as given. -/
noncomputable def emitProb (draws : Draws ℝ) (engine : SpecDecodeEngine) (drafts : List Int)
    (draftDists targetDists : List (TokenDist ℝ)) (i V : Nat) (pDraft : List ℝ) (y : Nat) : ℝ :=
  ∑ x ∈ Finset.range V, pDraft.getD x 0 * ((∑ index ∈ Finset.range V,
    volume.real {ur : ℝ × ℝ | ur ∈ unitDraws ×ˢ unitDraws ∧
      Emits (withDraws draws (engine.drawn + i) ur.1 ur.2 index) engine (drafts.set i x)
        draftDists targetDists i y}) / V)

theorem sum_get (weights : List ℝ) :
    ∑ x ∈ Finset.range weights.length, weights.getD x 0 = weights.sum := by
  induction weights with
  | nil => rfl
  | cons w rest ih =>
      rw [List.length_cons, Finset.sum_range_succ', List.sum_cons, ← ih, add_comm]
      rfl

theorem distribution_is_law {V : Nat} {p : List ℝ} (distribution : IsDistribution V p) :
    IsLaw (Finset.range V) fun x => p.getD x 0 := by
  refine ⟨?_, ?_⟩
  · intro x _
    have := token_prob_nonneg distribution x
    rwa [token_prob_cast] at this
  · rw [← distribution.length, sum_get, distribution.total]

noncomputable def fallbackLaw (V : Nat) (pTarget pDraft : List ℝ) (y : Nat) : ℝ :=
  (∑ index ∈ Finset.range V,
    volume.real {r | r ∈ unitDraws ∧ fallback r index pTarget pDraft = y}) / V

section Law

variable {V : Nat} {pTarget pDraft : List ℝ}

theorem residual_mass (target : IsDistribution V pTarget) (pDraft : List ℝ) : ∑ x ∈ Finset.range V,
    residual (fun x => pTarget.getD x 0) (fun x => pDraft.getD x 0) x =
      (adjusted pTarget pDraft).sum := by
  rw [← sum_get, adjusted_length, target.length]
  refine Finset.sum_congr rfl fun x member => ?_
  rw [adjusted_get (by rw [target.length]; exact Finset.mem_range.mp member)]
  rfl

theorem fallback_law_degenerate (degenerate : Degenerate pTarget pDraft) {y : Nat}
    (inside : y < V) :
    fallbackLaw V pTarget pDraft y = 1 / V := by
  have each : ∀ index ∈ Finset.range V,
      volume.real {r | r ∈ unitDraws ∧ fallback r index pTarget pDraft = y} =
        if index = y then 1 else 0 := by
    intro index _
    have found : ∀ r, fallback r index pTarget pDraft = y ↔ index = y := by
      intro r
      rw [fallback, if_pos degenerate, Nat.cast_inj]
    split
    case isTrue same =>
      rw [unit_draws_interval (le_refl 0) zero_le_one (le_refl 1)
        (fun r positive below => by
          rw [found]
          simp [same, positive, below.le]), sub_zero]
    case isFalse other => simp [found, other]
  unfold fallbackLaw
  rw [Finset.sum_congr rfl each, Finset.sum_ite_eq', if_pos (Finset.mem_range.mpr inside)]

theorem fallback_law_proper (target : IsDistribution V pTarget)
    (proper : ¬Degenerate pTarget pDraft) {y : Nat} (inside : y < V) :
    fallbackLaw V pTarget pDraft y =
      residual (fun x => pTarget.getD x 0) (fun x => pDraft.getD x 0) y /
        (adjusted pTarget pDraft).sum := by
  have distribution := residual_distribution target.length proper
  have each : ∀ index ∈ Finset.range V,
      volume.real {r | r ∈ unitDraws ∧ fallback r index pTarget pDraft = y} =
        (SpeculativeVerification.residual pTarget pDraft).getD y 0 := by
    intro index _
    rw [← sampled_law distribution inside]
    simp only [fallback, if_neg proper, residual_length]
  have nonempty : (V : ℝ) ≠ 0 := by
    exact_mod_cast (Nat.zero_lt_of_lt inside).ne'
  unfold fallbackLaw
  rw [Finset.sum_congr rfl each, Finset.sum_const, Finset.card_range, nsmul_eq_mul,
    mul_div_cancel_left₀ _ nonempty, residual_get,
    adjusted_get (by rw [target.length]; exact inside)]
  rfl

end Law

/-- The law of a position is the outcome of a guarded rejection. -/
theorem emit_prob_eq_outcome {V : Nat} {draws : Draws ℝ} {engine : SpecDecodeEngine}
    {drafts : List Int} {draftDists targetDists : List (TokenDist ℝ)} {i y : Nat}
    {draft target : TokenDist ℝ}
    (tokens : ∀ x ∈ drafts, 0 ≤ x) (draftLength : drafts.length = draftDists.length)
    (targetLength : targetDists.length = drafts.length + 1)
    (reached : ∀ j < i, acceptsAt draws drafts draftDists targetDists engine.drawn j = some true)
    (inside : i < drafts.length) (draftRead : draftDists[i]? = some draft)
    (read : targetDists[i]? = some target) (draftOver : IsDistribution V draft.probs)
    (targetOver : IsDistribution V target.probs) (nonempty : 0 < V) :
    emitProb draws engine drafts draftDists targetDists i V draft.probs y =
      outcome (Finset.range V) guardTerm (fun x => target.probs.getD x 0)
        (fun x => draft.probs.getD x 0) (fallbackLaw V target.probs draft.probs) y := by
  have targetLaw := distribution_is_law targetOver
  have draftLaw := distribution_is_law draftOver
  have size : (V : ℝ) ≠ 0 := by exact_mod_cast nonempty.ne'
  refine Finset.sum_congr rfl fun x member => ?_
  have small := Finset.mem_range.mp member
  have each : ∀ index ∈ Finset.range V,
      volume.real {ur : ℝ × ℝ | ur ∈ unitDraws ×ˢ unitDraws ∧
        Emits (withDraws draws (engine.drawn + i) ur.1 ur.2 index) engine (drafts.set i x)
          draftDists targetDists i y} =
      (if x = y then acceptProb (target.probs.getD x 0) (draft.probs.getD x 0) else 0) +
        (1 - acceptProb (target.probs.getD x 0) (draft.probs.getD x 0)) *
          volume.real {r | r ∈ unitDraws ∧ fallback r index target.probs draft.probs = y} := by
    intro index _
    have nonneg : 0 ≤ acceptProb (target.probs.getD x 0) (draft.probs.getD x 0) :=
      acceptance_nonneg (p := fun x => target.probs.getD x 0) (q := fun x => draft.probs.getD x 0)
        guard_term_pos (targetLaw.nonneg x member) (draftLaw.nonneg x member)
    rw [← two_draws_law nonneg (min_le_left _ _)]
    congr 1
    ext ur
    simp only [mem_ofPred_eq, emits_iff tokens draftLength targetLength reached inside draftRead
      read (targetOver.length.symm ▸ small) (draftOver.length.symm ▸ small)]
  rw [Finset.sum_congr rfl each, Finset.sum_add_distrib, Finset.sum_const, Finset.card_range,
    nsmul_eq_mul, ← Finset.mul_sum, add_div, mul_div_cancel_left₀ _ size, mul_div_assoc]
  rfl

/-- Whatever the drafts, the draws and the distributions at the other positions,
the token emitted for a position that is reached is distributed as the target of
the position, up to `(V + 1) * 1e-9`. -/
theorem rejection_sampling_preserves_target {V : Nat} {draws : Draws ℝ}
    {engine final : SpecDecodeEngine} {result : SpecStepResult ℝ} {drafts : List Int}
    {draftDists targetDists : List (TokenDist ℝ)} {i y : Nat} {draft target : TokenDist ℝ}
    (tokens : ∀ x ∈ drafts, 0 ≤ x)
    (executed : verify draws engine drafts draftDists targetDists = some (final, result))
    (reached : i ≤ result.nAccepted) (inside : i < drafts.length)
    (draftRead : draftDists[i]? = some draft) (read : targetDists[i]? = some target)
    (draftOver : IsDistribution V draft.probs) (targetOver : IsDistribution V target.probs)
    (token : y < V) :
    |emitProb draws engine drafts draftDists targetDists i V draft.probs y -
      target.probs.getD y 0| ≤ (V + 1) * guardTerm := by
  obtain ⟨draftLength, targetLength⟩ := verify_lengths executed
  obtain ⟨m, effect⟩ := verify_effect executed
  have counted : result.nAccepted = m := effect.counted.trans (Nat.zero_add m)
  have earlier : ∀ j < i,
      acceptsAt draws drafts draftDists targetDists engine.drawn j = some true :=
    fun j before => effect.decisions j (by omega)
  have member := Finset.mem_range.mpr token
  rw [emit_prob_eq_outcome tokens draftLength targetLength earlier inside draftRead read draftOver
    targetOver (Nat.zero_lt_of_lt token)]
  have mass := residual_mass targetOver draft.probs
  have size : ((V : ℝ) + 1) = ((Finset.range V).card : ℝ) + 1 := by rw [Finset.card_range]
  rw [size]
  by_cases degenerate : Degenerate target.probs draft.probs
  · refine outcome_of_uniform guard_term_pos (distribution_is_law targetOver)
      (distribution_is_law draftOver) member ?_ ?_
    · rw [mass]
      exact degenerate.le
    · rw [fallback_law_degenerate degenerate token, Finset.card_range]
  · refine outcome_of_residual guard_term_pos (distribution_is_law targetOver)
      (distribution_is_law draftOver) member ?_ ?_
    · rw [mass]
      exact guard_term_pos.trans_le (not_lt.mp degenerate)
    · rw [fallback_law_proper targetOver degenerate token, mass]

/-- The second token at the first position, drafted with 1/2 and due with 3/4. -/
theorem rejection_sampling_two_tokens :
    |emitProb ⟨fun _ => 0, fun _ _ => 0⟩ {} [0] [⟨[], [1 / 2, 1 / 2]⟩]
      [⟨[], [1 / 4, 3 / 4]⟩, ⟨[], [1, 0]⟩] 0 2 [1 / 2, 1 / 2] 1 - 3 / 4| ≤ (2 + 1) * guardTerm := by
  have tokens : ∀ x ∈ [(0 : Int)], 0 ≤ x := by simp
  have draftOver : IsDistribution (R := ℝ) 2 [1 / 2, 1 / 2] :=
    ⟨rfl, by norm_num, by norm_num⟩
  have targetOver : IsDistribution (R := ℝ) 2 [1 / 4, 3 / 4] :=
    ⟨rfl, by norm_num, by norm_num⟩
  obtain ⟨final, result, executed⟩ : ∃ final result, verify (R := ℝ)
      ⟨fun _ => 0, fun _ _ => 0⟩ {} [0] [⟨[], [1 / 2, 1 / 2]⟩]
      [⟨[], [1 / 4, 3 / 4]⟩, ⟨[], [1, 0]⟩] = some (final, result) :=
    verify_executes _ tokens rfl rfl {}
  have bound := rejection_sampling_preserves_target tokens executed (Nat.zero_le _) (by simp)
    rfl rfl draftOver targetOver (y := 1) (by norm_num)
  exact_mod_cast bound

end AmpFormal.RejectionSampling
