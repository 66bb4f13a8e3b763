import AmpFormal.RejectionSampling
import AmpFormal.SpeculativeDraws

/-!
# The law of a whole generation

Speculative decoding with a draft model is compared with sampling one token after
the other from the target model. At every position the token is the outcome of a
guarded rejection, whatever comes after it; the distances of the positions add up,
and positions after the last token that counts add nothing.
-/

namespace AmpFormal.SpeculativeGeneration

open AmpFormal.DrawPrograms AmpFormal.GuardedRejection AmpFormal.SpeculativeModel
open AmpFormal.RejectionSampling AmpFormal.SpeculativeDraws
open AmpFormal.SpeculativeVerification hiding residual
open MeasureTheory

set_option autoImplicit false

/-! ## The expectations of the samplers -/

theorem scan_expectation (F : Int → ℝ) (last : Int) {probs : List ℝ} {cum : ℝ} (start : Nat)
    (nonneg : ∀ w ∈ probs, 0 ≤ w) (whole : cum + probs.sum = 1) :
    IntervalIntegrable (fun r => F (cdfScan r last cum start probs)) volume cum 1 ∧
      ∫ r in cum..1, F (cdfScan r last cum start probs) =
        ∑ y ∈ Finset.range probs.length, probs.getD y 0 * F ((start + y : Nat) : Int) := by
  induction probs generalizing cum start with
  | nil =>
      rw [List.sum_nil, add_zero] at whole
      subst whole
      exact ⟨IntervalIntegrable.refl, intervalIntegral.integral_same⟩
  | cons p rest ih =>
      obtain ⟨here, later⟩ := List.forall_mem_cons.mp nonneg
      rw [List.sum_cons, ← add_assoc] at whole
      have remaining := List.sum_nonneg later
      obtain ⟨integrable, value⟩ := ih (start + 1) later whole
      have found : ∀ r, cum < r → r ≤ cum + p →
          F (cdfScan r last cum start (p :: rest)) = F (start : Nat) := by
        intro r _ below
        unfold cdfScan
        rw [if_pos below]
      have passed : ∀ r, cum + p < r → r ≤ 1 → F (cdfScan r last cum start (p :: rest)) =
          F (cdfScan r last (cum + p) (start + 1) rest) := by
        intro r above _
        conv_lhs => unfold cdfScan
        rw [if_neg (not_le.mpr above)]
      have split := interval_split (by linarith) (by linarith) found passed integrable
      refine ⟨split.1, split.2.trans ?_⟩
      rw [value, add_sub_cancel_left, List.length_cons, Finset.sum_range_succ', add_comm]
      congr 1
      refine Finset.sum_congr rfl fun y _ => ?_
      rw [List.getD_cons_succ, Nat.add_right_comm, Nat.add_assoc]

section Samplers

variable {V : Nat} {pTarget pDraft : List ℝ}

theorem expect_sample_draw (distribution : IsDistribution V pTarget) (F : Int → ℝ) :
    (sampleDraw pTarget).expect F =
      ∑ y ∈ Finset.range V, pTarget.getD y 0 * F ((y : Nat) : Int) := by
  have whole : 0 + pTarget.sum = 1 := by rw [distribution.total, zero_add]
  have value := (scan_expectation F ((pTarget.length : Int) - 1) 0 distribution.nonneg whole).2
  simp only [Nat.zero_add] at value
  rw [distribution.length] at value
  unfold sampleDraw Draw.expect
  simp only [Draw.expect]
  rw [distribution.length]
  exact value

noncomputable def fallbackProb (V : Nat) (pTarget pDraft : List ℝ) (y : Nat) : ℝ :=
  if Degenerate pTarget pDraft then 1 / V
  else (SpeculativeVerification.residual pTarget pDraft).getD y 0

theorem expect_residual_draw (target : IsDistribution V pTarget) (F : Int → ℝ) :
    (residualDraw pTarget pDraft).expect F =
      ∑ y ∈ Finset.range V, fallbackProb V pTarget pDraft y * F ((y : Nat) : Int) := by
  unfold residualDraw fallbackProb
  by_cases degenerate : Degenerate pTarget pDraft
  · simp only [if_pos degenerate, Draw.expect]
    rw [target.length, ← Finset.mul_sum, one_div_mul_eq_div]
  · simp only [if_neg degenerate]
    exact expect_sample_draw (residual_distribution target.length degenerate) F

theorem fallback_is_law (target : IsDistribution V pTarget) (pDraft : List ℝ)
    (nonempty : 0 < V) :
    IsLaw (Finset.range V) (fallbackProb V pTarget pDraft) := by
  by_cases degenerate : Degenerate pTarget pDraft
  · have uniform : fallbackProb V pTarget pDraft = fun _ => 1 / (V : ℝ) :=
      funext fun y => if_pos degenerate
    rw [uniform]
    have size : (V : ℝ) ≠ 0 := by exact_mod_cast nonempty.ne'
    refine ⟨fun _ _ => by positivity, ?_⟩
    rw [Finset.sum_const, Finset.card_range, nsmul_eq_mul, mul_one_div_cancel size]
  · have proper : fallbackProb V pTarget pDraft =
        fun y => (SpeculativeVerification.residual pTarget pDraft).getD y 0 :=
      funext fun y => if_neg degenerate
    rw [proper]
    exact distribution_is_law (residual_distribution target.length degenerate)

theorem fallback_close (target : IsDistribution V pTarget) (pDraft : List ℝ) :
    (∀ y ∈ Finset.range V, (∑ x ∈ Finset.range V,
        residual (fun x => pTarget.getD x 0) (fun x => pDraft.getD x 0) x) *
          fallbackProb V pTarget pDraft y =
        residual (fun x => pTarget.getD x 0) (fun x => pDraft.getD x 0) y) ∨
      ∑ x ∈ Finset.range V,
        residual (fun x => pTarget.getD x 0) (fun x => pDraft.getD x 0) x ≤ guardTerm := by
  rw [residual_mass target pDraft]
  by_cases degenerate : Degenerate pTarget pDraft
  · exact .inr degenerate.le
  · left
    intro y member
    have mass := guard_term_pos.trans_le (not_lt.mp degenerate)
    have proper : fallbackProb V pTarget pDraft y =
        (SpeculativeVerification.residual pTarget pDraft).getD y 0 := if_neg degenerate
    rw [proper, residual_get,
      adjusted_get (by rw [target.length]; exact Finset.mem_range.mp member),
      mul_div_cancel₀ _ mass.ne']
    rfl

end Samplers

/-! ## One position -/

noncomputable def acceptedProb (pTarget pDraft : List ℝ) (x : Nat) : ℝ :=
  acceptProb (pTarget.getD x 0) (pDraft.getD x 0)

noncomputable def positionLaw (V : Nat) (pTarget pDraft : List ℝ) : Nat → ℝ :=
  outcome (Finset.range V) guardTerm (fun x => pTarget.getD x 0) (fun x => pDraft.getD x 0)
    (fallbackProb V pTarget pDraft)

/-- How far a position may be from the target, in the sum over all tokens. -/
noncomputable def positionError (V : Nat) : ℝ := (2 * (V + 1) : Nat) * guardTerm

theorem position_error_eq (V : Nat) : positionError V = 2 * ((V + 1) * guardTerm) := by
  unfold positionError
  push_cast
  ring

theorem position_error_nonneg (V : Nat) : 0 ≤ positionError V := by
  have := guard_term_pos (R := ℝ)
  unfold positionError
  positivity

section Position

variable {V : Nat} {draft target : TokenDist ℝ}

theorem position_close (draftOver : IsDistribution V draft.probs)
    (targetOver : IsDistribution V target.probs) (nonempty : 0 < V) :
    ∑ y ∈ Finset.range V, |positionLaw V target.probs draft.probs y - target.probs.getD y 0| ≤
      positionError V := by
  have distance := outcome_distance_le guard_term_pos (distribution_is_law targetOver)
    (distribution_is_law draftOver) (fallback_is_law targetOver draft.probs nonempty)
    (fallback_close targetOver draft.probs)
  rw [Finset.card_range] at distance
  rw [position_error_eq]
  exact distance

theorem prob_at_token (p : List ℝ) {x : Nat} (inside : x < p.length) (missing : ℝ) :
    (probAt p x missing).getD 0 = p.getD x 0 := by
  unfold probAt
  rw [if_pos (by exact_mod_cast inside), if_pos (Int.natCast_nonneg x), Int.toNat_natCast]
  exact List.getD_eq_getElem?_getD.symm

theorem accepted_prob_nonneg (draftOver : IsDistribution V draft.probs)
    (targetOver : IsDistribution V target.probs) {x : Nat} (inside : x < V) :
    0 ≤ acceptedProb target.probs draft.probs x :=
  acceptance_nonneg (p := fun x => target.probs.getD x 0) (q := fun x => draft.probs.getD x 0)
    guard_term_pos ((distribution_is_law targetOver).nonneg x (Finset.mem_range.mpr inside))
    ((distribution_is_law draftOver).nonneg x (Finset.mem_range.mpr inside))

theorem expect_verify_draw (draftOver : IsDistribution V draft.probs)
    (targetOver : IsDistribution V target.probs) {x : Nat} (inside : x < V) (drafts : List Int)
    (draftDists targetDists : List (TokenDist ℝ)) (F : List Int → ℝ) :
    (verifyDraw (x :: drafts) (draft :: draftDists) (target :: targetDists)).expect F =
      acceptedProb target.probs draft.probs x *
          (verifyDraw drafts draftDists targetDists).expect (fun tokens => F (x :: tokens)) +
        (1 - acceptedProb target.probs draft.probs x) *
          ∑ y ∈ Finset.range V, fallbackProb V target.probs draft.probs y * F [(y : Int)] := by
  conv_lhs => unfold verifyDraw
  rw [prob_at_token _ (targetOver.length.symm ▸ inside),
    prob_at_token _ (draftOver.length.symm ▸ inside)]
  refine (Draw.expect_threshold (accepted_prob_nonneg draftOver targetOver inside)
    (min_le_left _ _) _ _ F).trans ?_
  rw [Draw.expect_map, Draw.expect_map, expect_residual_draw targetOver]

end Position

/-! ## One round -/

section Round

variable {V : Nat} (draft target : LanguageModel ℝ V)

noncomputable def roundExpect (k : Nat) (context : List Int) (G : List Int → ℝ) : ℝ :=
  (decodeDraw draft k context).expect fun drafts =>
    (verifyDraw drafts (draftDists draft context drafts)
      (targetDists target context drafts)).expect G

theorem expect_decode_affine (k : Nat) (context : List Int) (a c : ℝ) (F : List Int → ℝ) :
    (decodeDraw draft k context).expect (fun tokens => a * F tokens + c) =
      a * (decodeDraw draft k context).expect F + c := by
  induction k generalizing context F with
  | zero => rfl
  | succ k ih =>
      have distribution := draft.distribution context
      have total := (distribution_is_law distribution).total
      unfold decodeDraw Draw.expect
      simp only [Draw.expect_map, ih]
      rw [distribution.length, Finset.mul_sum]
      calc ∑ x ∈ Finset.range V, (draft.dist context).probs.getD x 0 *
            (a * (decodeDraw draft k (context ++ [(x : Int)])).expect
              (fun tokens => F (x :: tokens)) + c)
          = ∑ x ∈ Finset.range V, (a * ((draft.dist context).probs.getD x 0 *
              (decodeDraw draft k (context ++ [(x : Int)])).expect
                (fun tokens => F (x :: tokens))) +
              (draft.dist context).probs.getD x 0 * c) := by
            refine Finset.sum_congr rfl fun x _ => ?_
            ring
        _ = _ := by rw [Finset.sum_add_distrib, ← Finset.sum_mul, total, one_mul]

theorem round_expect_zero (context : List Int) (G : List Int → ℝ) :
    roundExpect draft target 0 context G =
      ∑ y ∈ Finset.range V, (target.dist context).probs.getD y 0 * G [(y : Int)] := by
  change (verifyDraw [] [] [target.dist (context ++ [])]).expect G = _
  rw [List.append_nil]
  unfold verifyDraw
  rw [Draw.expect_map, expect_sample_draw (target.distribution context)]

theorem round_expect_succ (k : Nat) (context : List Int) (G : List Int → ℝ) :
    roundExpect draft target (k + 1) context G =
      ∑ x ∈ Finset.range V, (draft.dist context).probs.getD x 0 *
        (acceptedProb (target.dist context).probs (draft.dist context).probs x *
            roundExpect draft target k (context ++ [(x : Int)]) (fun tokens => G (x :: tokens)) +
          (1 - acceptedProb (target.dist context).probs (draft.dist context).probs x) *
            ∑ y ∈ Finset.range V,
              fallbackProb V (target.dist context).probs (draft.dist context).probs y *
                G [(y : Int)]) := by
  conv_lhs => unfold roundExpect decodeDraw Draw.expect
  rw [(draft.distribution context).length]
  refine Finset.sum_congr rfl fun x member => ?_
  congr 1
  rw [Draw.expect_map, roundExpect, ← expect_decode_affine]
  congr 1
  funext drafts
  rw [target_dists_cons]
  exact expect_verify_draw (draft.distribution context) (target.distribution context)
    (Finset.mem_range.mp member) drafts _ _ G

/-- A position by the law of its token: with what follows an accepted draft and
what follows a rejection exchanged for one value, only the law remains. -/
theorem position_law_sum (context : List Int) (value : Nat → ℝ) :
    ∑ x ∈ Finset.range V, (draft.dist context).probs.getD x 0 *
        (acceptedProb (target.dist context).probs (draft.dist context).probs x * value x +
          (1 - acceptedProb (target.dist context).probs (draft.dist context).probs x) *
            ∑ y ∈ Finset.range V,
              fallbackProb V (target.dist context).probs (draft.dist context).probs y *
                value y) =
      ∑ y ∈ Finset.range V,
        positionLaw V (target.dist context).probs (draft.dist context).probs y * value y := by
  unfold positionLaw outcome
  simp only [Finset.sum_mul]
  rw [Finset.sum_comm]
  refine Finset.sum_congr rfl fun x member => ?_
  have accepted : ∑ y ∈ Finset.range V, (draft.dist context).probs.getD x 0 *
      (if x = y then acceptedProb (target.dist context).probs (draft.dist context).probs x
        else 0) * value y = (draft.dist context).probs.getD x 0 *
      (acceptedProb (target.dist context).probs (draft.dist context).probs x * value x) := by
    rw [Finset.sum_eq_single_of_mem x member]
    · rw [if_pos rfl, mul_assoc]
    · intro y _ other
      rw [if_neg other.symm, mul_zero, zero_mul]
  have rejected : ∑ y ∈ Finset.range V, (draft.dist context).probs.getD x 0 *
      ((1 - acceptedProb (target.dist context).probs (draft.dist context).probs x) *
        fallbackProb V (target.dist context).probs (draft.dist context).probs y) * value y =
      (draft.dist context).probs.getD x 0 *
      ((1 - acceptedProb (target.dist context).probs (draft.dist context).probs x) *
        ∑ y ∈ Finset.range V,
          fallbackProb V (target.dist context).probs (draft.dist context).probs y * value y) := by
    rw [Finset.mul_sum, Finset.mul_sum]
    refine Finset.sum_congr rfl fun y _ => ?_
    ring
  rw [mul_add, ← accepted, ← rejected, ← Finset.sum_add_distrib]
  refine Finset.sum_congr rfl fun y _ => ?_
  unfold acceptedProb acceptProb acceptance
  ring

theorem round_expect_const (nonempty : 0 < V) (k : Nat) (context : List Int) {c : ℝ}
    {G : List Int → ℝ} (constant : ∀ x tokens, G (x :: tokens) = c) :
    roundExpect draft target k context G = c := by
  induction k generalizing context G with
  | zero =>
      rw [round_expect_zero]
      simp only [constant]
      rw [← Finset.sum_mul, (distribution_is_law (target.distribution context)).total, one_mul]
  | succ k ih =>
      have accepted : ∀ context, roundExpect draft target k context (fun _ => c) = c :=
        fun context => ih context fun _ _ => rfl
      rw [round_expect_succ]
      simp only [constant, accepted]
      rw [position_law_sum draft target context fun _ => c, ← Finset.sum_mul]
      unfold positionLaw
      rw [outcome_total (distribution_is_law (draft.distribution context))
        (fallback_is_law (target.distribution context) _ nonempty), one_mul]

/-- The expectation of sampling `n` tokens one after the other. -/
noncomputable def plainExpect (n : Nat) (context : List Int) (f : List Int → ℝ) : ℝ :=
  (decodeDraw target n context).expect f

theorem plain_expect_succ (n : Nat) (context : List Int) (f : List Int → ℝ) :
    plainExpect target (n + 1) context f =
      ∑ y ∈ Finset.range V, (target.dist context).probs.getD y 0 *
        plainExpect target n (context ++ [(y : Int)]) fun tokens => f (y :: tokens) := by
  unfold plainExpect
  conv_lhs => unfold decodeDraw Draw.expect
  rw [(target.distribution context).length]
  simp only [Draw.expect_map]

theorem plain_expect_bounded {f : List Int → ℝ} (bounded : ∀ tokens, |f tokens| ≤ 1) (n : Nat)
    (context : List Int) : |plainExpect target n context f| ≤ 1 := by
  induction n generalizing context f with
  | zero => exact bounded []
  | succ n ih =>
      rw [plain_expect_succ]
      exact average_bounded (distribution_is_law (target.distribution context)) fun y _ =>
        ih (fun tokens => bounded (y :: tokens)) (context ++ [(y : Int)])

/-- After a round, `G` is within `n * positionError V` of what the tokens are worth
to the target model, less a `positionError V` for each token there is. -/
def Close (n : Nat) (context : List Int) (f G : List Int → ℝ) : Prop :=
  ∀ x tokens, |G (x :: tokens) -
    plainExpect target (n - (x :: tokens).length) (context ++ x :: tokens)
      (fun more => f ((x :: tokens).take n ++ more))| ≤
    ((n - (x :: tokens).length : Nat) : ℝ) * positionError V

variable {draft target} {n : Nat} {context : List Int} {f G : List Int → ℝ}

theorem Close.single (close : Close target (n + 1) context f G) (y : Nat) :
    |G [(y : Int)] - plainExpect target n (context ++ [(y : Int)]) (fun more => f (y :: more))| ≤
      n * positionError V := by
  have distance := close y []
  simpa using distance

theorem Close.accepted (close : Close target (n + 1) context f G) (x : Int) :
    Close target n (context ++ [x]) (fun more => f (x :: more)) fun tokens => G (x :: tokens) := by
  intro y tokens
  have distance := close x (y :: tokens)
  rw [List.length_cons (a := x), Nat.add_sub_add_right] at distance
  simpa using distance

theorem Close.round_zero (close : Close target 0 context f G) (nonempty : 0 < V) (k : Nat) :
    roundExpect draft target k context G = plainExpect target 0 context f := by
  refine round_expect_const draft target nonempty k context fun x tokens => ?_
  have distance := close x tokens
  rw [Nat.zero_sub, Nat.cast_zero, zero_mul] at distance
  exact sub_eq_zero.mp (abs_nonpos_iff.mp distance)

theorem Close.round (close : Close target n context f G) (nonempty : 0 < V)
    (bounded : ∀ tokens, |f tokens| ≤ 1) (k : Nat) :
    |roundExpect draft target k context G - plainExpect target n context f| ≤
      n * positionError V := by
  have error := position_error_nonneg V
  induction k generalizing n context f G with
  | zero =>
      cases n with
      | zero => rw [close.round_zero nonempty, sub_self, abs_zero, Nat.cast_zero, zero_mul]
      | succ n =>
          rw [round_expect_zero, plain_expect_succ, Nat.cast_succ, add_mul, one_mul]
          have distance := average_close (distribution_is_law (target.distribution context))
            fun y _ => close.single y
          linarith
  | succ k ih =>
      cases n with
      | zero => rw [close.round_zero nonempty, sub_self, abs_zero, Nat.cast_zero, zero_mul]
      | succ n =>
          rw [round_expect_succ, plain_expect_succ, Nat.cast_succ, add_mul, one_mul]
          have follows := average_close (distribution_is_law (draft.distribution context))
            fun x member => mixture_close
              (accepted_prob_nonneg (draft.distribution context) (target.distribution context)
                (Finset.mem_range.mp member)) (min_le_left _ _)
              (ih (close.accepted x) fun tokens => bounded (x :: tokens))
              (average_close (fallback_is_law (target.distribution context)
                (draft.dist context).probs nonempty) fun y _ => close.single y)
          rw [position_law_sum draft target context fun y =>
            plainExpect target n (context ++ [(y : Int)]) fun more => f (y :: more)] at follows
          have valued : ∀ y ∈ Finset.range V, |plainExpect target n (context ++ [(y : Int)])
              (fun more => f (y :: more))| ≤ 1 := fun y _ =>
            plain_expect_bounded target (fun more => bounded (y :: more)) n _
          have spread := position_close (draft.distribution context)
            (target.distribution context) nonempty
          have position := (average_distance valued).trans spread
          have distance := (abs_sub_le _ _ _).trans (add_le_add follows position)
          linarith

end Round

/-! ## The generation -/

theorem vocabulary_nonempty {V : Nat} (model : LanguageModel ℝ V) : 0 < V := by
  have distribution := model.distribution []
  refine Nat.pos_of_ne_zero fun empty => ?_
  subst empty
  have total := distribution.total
  rw [List.length_eq_zero_iff.mp distribution.length, List.sum_nil] at total
  exact zero_ne_one total

theorem expect_speculate_cons {V : Nat} (draft target : LanguageModel ℝ V) (context : List Int)
    (k : Nat) (rounds : List Nat) (F : List Int → ℝ) :
    (speculateDraw draft target context (k :: rounds)).expect F =
      roundExpect draft target k context fun produced =>
        (speculateDraw draft target (context ++ produced) rounds).expect fun tokens =>
          F (produced ++ tokens) := by
  conv_lhs => unfold speculateDraw
  simp only [Draw.expect_bind, Draw.expect_map]
  rfl

theorem speculate_close {V : Nat} (draft target : LanguageModel ℝ V) (context : List Int)
    {rounds : List Nat} {n : Nat} (enough : n ≤ rounds.length) {f : List Int → ℝ}
    (bounded : ∀ tokens, |f tokens| ≤ 1) :
    |(speculateDraw draft target context rounds).expect (fun tokens => f (tokens.take n)) -
      plainExpect target n context f| ≤ n * positionError V := by
  induction rounds generalizing n context f with
  | nil =>
      cases Nat.le_zero.mp enough
      change |f [] - f []| ≤ _
      rw [sub_self, abs_zero, Nat.cast_zero, zero_mul]
  | cons k rounds ih =>
      rw [expect_speculate_cons]
      refine Close.round ?_ (vocabulary_nonempty target) bounded k
      intro x tokens
      have shorter : n - (x :: tokens).length ≤ rounds.length := by
        rw [List.length_cons] at enough ⊢
        omega
      have remaining := ih (context ++ x :: tokens) shorter
        fun more => bounded ((x :: tokens).take n ++ more)
      simpa only [List.take_append] using remaining

/-- Rounds of `verify`, each on as many drafts as the caller likes, give the tokens
of the program of draws; over the draws the first `n` of them are distributed as `n`
tokens sampled from the target model alone, up to `2 (V + 1) 1e-9` for each token. -/
theorem speculative_sampling_is_target_sampling {V : Nat} (draft target : LanguageModel ℝ V)
    (context : List Int) {rounds : List Nat} {n : Nat} (enough : n ≤ rounds.length)
    {f : List Int → ℝ} (bounded : ∀ tokens, |f tokens| ≤ 1) :
    (∀ tape engine picked, ∃ final results,
      speculate draft target tape engine picked context rounds = some (final, results) ∧
        results.flatMap SpecStepResult.produced =
          ((speculateDraw draft target context rounds).run tape ⟨engine.drawn, picked⟩).1) ∧
    |(speculateDraw draft target context rounds).expect (fun tokens => f (tokens.take n)) -
      (decodeDraw target n context).expect f| ≤ n * (2 * ((V + 1) * guardTerm)) := by
  have close := speculate_close draft target context enough bounded
  rw [position_error_eq] at close
  exact ⟨fun tape engine picked => speculate_runs draft target tape engine picked context rounds,
    close⟩

/-- A model that gives the same distribution after every context. -/
def steady {V : Nat} {p : List ℝ} (distribution : IsDistribution V p) : LanguageModel ℝ V :=
  { dist := fun _ => ⟨[], p⟩, distribution := fun _ => distribution }

/-- Two tokens drafted with 1/2 each: the second one twice is due with 9/16. -/
theorem speculative_sampling_two_tokens : ∃ draft target : LanguageModel ℝ 2,
    draft.dist [] = ⟨[], [1 / 2, 1 / 2]⟩ ∧ target.dist [] = ⟨[], [1 / 4, 3 / 4]⟩ ∧
    |(speculateDraw draft target [] [1, 2]).expect
        (fun tokens => if tokens.take 2 = [1, 1] then 1 else 0) - 9 / 16| ≤
      2 * (2 * ((2 + 1) * guardTerm)) := by
  have draftOver : IsDistribution (R := ℝ) 2 [1 / 2, 1 / 2] := ⟨rfl, by norm_num, by norm_num⟩
  have targetOver : IsDistribution (R := ℝ) 2 [1 / 4, 3 / 4] := ⟨rfl, by norm_num, by norm_num⟩
  refine ⟨steady draftOver, steady targetOver, rfl, rfl, ?_⟩
  have enough : 2 ≤ [1, 2].length := le_refl 2
  have close := (speculative_sampling_is_target_sampling (steady draftOver) (steady targetOver) []
    enough (f := fun tokens => if tokens = [1, 1] then 1 else 0)
    fun tokens => by split <;> simp).2
  have due : (decodeDraw (steady targetOver) 2 []).expect
      (fun tokens => if tokens = [1, 1] then (1 : ℝ) else 0) = 9 / 16 := by
    simp [decodeDraw, Draw.map, Draw.bind, Draw.expect, steady, Finset.sum_range_succ]
    norm_num
  rw [due] at close
  exact_mod_cast close

end AmpFormal.SpeculativeGeneration
