import AmpFormal.SpeculativeDraws

/-!
# Verification of Medusa heads

A transcription of `medusa_verify`: the candidates of the heads are accepted in a row
until the first refusal, by a threshold on the target probability or by a draw against
it, and there is no bonus token. The fields of `MedusaConfig` that are not read are
left out; `probs()` is the field of `TokenDist`.
-/

namespace AmpFormal.MedusaVerify

open AmpFormal.DrawPrograms AmpFormal.SpeculativeModel AmpFormal.SpeculativeVerification

set_option autoImplicit false

/-! ## The model -/

structure MedusaConfig (R : Type*) where
  numHeads : Int
  acceptanceThreshold : R

structure MedusaResult where
  acceptedPath : List Int
  totalAccepted : Int
  deriving DecidableEq, Repr

def MedusaResult.accept (result : MedusaResult) (cand : Int) : MedusaResult :=
  { acceptedPath := result.acceptedPath ++ [cand], totalAccepted := result.totalAccepted + 1 }

section Model

variable {R : Type*} [Field R] [LinearOrder R]

/-- The loop over the heads; `drawn` counts the values taken from `rng`. -/
def medusaLoop (threshold : R) (real : Nat → R) :
    Nat → List Int → List (TokenDist R) → Nat → MedusaResult → Option (Nat × MedusaResult)
  | heads + 1, cand :: candidates, target :: targetDists, drawn, result =>
      (probAt target.probs cand 0).bind fun pt =>
        if 0 < threshold then
          if threshold ≤ pt then
            medusaLoop threshold real heads candidates targetDists drawn (result.accept cand)
          else some (drawn, result)
        else if real drawn ≤ pt then
          medusaLoop threshold real heads candidates targetDists (drawn + 1) (result.accept cand)
        else some (drawn + 1, result)
  | _, _, _, drawn, result => some (drawn, result)

def medusaVerify (cfg : MedusaConfig R) (candidates : List Int) (targetDists : List (TokenDist R))
    (real : Nat → R) (drawn : Nat) : Option (Nat × MedusaResult) :=
  medusaLoop cfg.acceptanceThreshold real cfg.numHeads.toNat candidates targetDists drawn
    { acceptedPath := [], totalAccepted := 0 }

/-- The candidates that the loop can look at, with their target probabilities. -/
def chances : Nat → List Int → List (TokenDist R) → List (Int × R)
  | heads + 1, cand :: candidates, target :: targetDists =>
      (cand, (probAt target.probs cand 0).getD 0) :: chances heads candidates targetDists
  | _, _, _ => []

def acceptDraw : List (Int × R) → Draw R (List Int)
  | [] => .done []
  | (cand, pt) :: rest =>
      .real fun u => if u ≤ pt then (acceptDraw rest).map (cand :: ·) else .done []

/-! ## The loop on given draws -/

theorem medusa_loop_threshold {threshold : R} (positive : 0 < threshold) (real : Nat → R)
    {candidates : List Int} (tokens : ∀ x ∈ candidates, 0 ≤ x) (heads : Nat)
    (targetDists : List (TokenDist R)) (drawn : Nat) (result : MedusaResult) :
    medusaLoop threshold real heads candidates targetDists drawn result = some (drawn,
      (((chances heads candidates targetDists).takeWhile fun chance =>
        threshold ≤ chance.2).map Prod.fst).foldl MedusaResult.accept result) := by
  induction heads generalizing candidates targetDists result with
  | zero => rfl
  | succ heads ih =>
      cases candidates with
      | nil => rfl
      | cons cand candidates =>
          obtain ⟨token, tokens⟩ := List.forall_mem_cons.mp tokens
          cases targetDists with
          | nil => rfl
          | cons target targetDists =>
              obtain ⟨pt, read⟩ := prob_at_reads token (0 : R)
              unfold medusaLoop chances
              rw [read, Option.bind_some, Option.getD_some, if_pos positive, List.takeWhile_cons]
              by_cases passes : threshold ≤ pt
              · rw [if_pos passes, ih tokens, if_pos (decide_eq_true passes)]
                rfl
              · rw [if_neg passes, if_neg (decide_eq_true_iff.not.mpr passes)]
                rfl

theorem medusa_loop_draws {threshold : R} (off : ¬0 < threshold) (tape : Tape R)
    {candidates : List Int} (tokens : ∀ x ∈ candidates, 0 ≤ x) (heads : Nat)
    (targetDists : List (TokenDist R)) (here : Position) (result : MedusaResult) :
    medusaLoop threshold tape.real heads candidates targetDists here.drawn result =
      some (((acceptDraw (chances heads candidates targetDists)).run tape here).2.drawn,
        ((acceptDraw (chances heads candidates targetDists)).run tape here).1.foldl
          MedusaResult.accept result) := by
  induction heads generalizing candidates targetDists here result with
  | zero => rfl
  | succ heads ih =>
      cases candidates with
      | nil => rfl
      | cons cand candidates =>
          obtain ⟨token, tokens⟩ := List.forall_mem_cons.mp tokens
          cases targetDists with
          | nil => rfl
          | cons target targetDists =>
              obtain ⟨pt, read⟩ := prob_at_reads token (0 : R)
              unfold medusaLoop chances acceptDraw Draw.run
              rw [read, Option.bind_some, Option.getD_some, if_neg off]
              dsimp only
              by_cases accepts : tape.real here.drawn ≤ pt
              · rw [if_pos accepts, if_pos accepts, Draw.run_map]
                exact ih tokens targetDists here.draw (result.accept cand)
              · rw [if_neg accepts, if_neg accepts]
                rfl

def MedusaResult.ofPath (path : List Int) : MedusaResult :=
  { acceptedPath := path, totalAccepted := path.length }

theorem foldl_accept (path : List Int) (result : MedusaResult) :
    path.foldl MedusaResult.accept result =
      { acceptedPath := result.acceptedPath ++ path
        totalAccepted := result.totalAccepted + path.length } := by
  induction path generalizing result with
  | nil => simp
  | cons cand path ih =>
      rw [List.foldl_cons, ih]
      simp only [MedusaResult.accept, List.append_assoc, List.singleton_append, List.length_cons,
        Nat.cast_add, Nat.cast_one, MedusaResult.mk.injEq, true_and]
      ring

theorem foldl_accept_start (path : List Int) :
    path.foldl MedusaResult.accept { acceptedPath := [], totalAccepted := 0 } = .ofPath path := by
  rw [foldl_accept, List.nil_append, zero_add]
  rfl

end Model

/-! ## The law of the accepted path -/

theorem expect_accept_draw {chances : List (Int × ℝ)}
    (probabilities : ∀ chance ∈ chances, 0 ≤ chance.2 ∧ chance.2 ≤ 1) (F : List Int → ℝ) :
    (acceptDraw chances).expect F =
      ∑ j ∈ Finset.range chances.length, ((chances.take j).map Prod.snd).prod *
        (1 - (chances.getD j (0, 0)).2) * F ((chances.take j).map Prod.fst) +
      (chances.map Prod.snd).prod * F (chances.map Prod.fst) := by
  induction chances generalizing F with
  | nil => simp [acceptDraw, Draw.expect]
  | cons chance rest ih =>
      obtain ⟨cand, pt⟩ := chance
      obtain ⟨⟨nonneg, small⟩, later⟩ := List.forall_mem_cons.mp probabilities
      have decided := Draw.expect_threshold nonneg small ((acceptDraw rest).map (cand :: ·))
        (.done []) F
      rw [acceptDraw, decided, Draw.expect_map, ih later]
      rw [List.length_cons, Finset.sum_range_succ']
      simp only [List.take_succ_cons, List.map_cons, List.prod_cons, List.getD_cons_succ,
        List.take_zero, List.map_nil, List.prod_nil, one_mul, List.getD_cons_zero, Draw.expect]
      rw [mul_add, Finset.mul_sum]
      simp only [mul_assoc]
      ring

theorem token_prob_le_one {V : Nat} {p : List ℝ} (distribution : IsDistribution V p)
    (token : Int) : tokenProb p token ≤ 1 := by
  unfold tokenProb
  split
  case isTrue =>
    rcases Nat.lt_or_ge token.toNat p.length with inside | outside
    · rw [List.getD_eq_getElem _ _ inside, ← distribution.total]
      exact List.single_le_sum distribution.nonneg _ (List.getElem_mem _)
    · rw [List.getD_eq_default _ _ outside]
      exact zero_le_one
  case isFalse => exact zero_le_one

theorem chances_probabilities {V : Nat} {candidates : List Int} (tokens : ∀ x ∈ candidates, 0 ≤ x)
    (heads : Nat) {targetDists : List (TokenDist ℝ)}
    (distributions : ∀ target ∈ targetDists, IsDistribution V target.probs) :
    ∀ chance ∈ chances heads candidates targetDists, 0 ≤ chance.2 ∧ chance.2 ≤ 1 := by
  induction heads generalizing candidates targetDists with
  | zero => exact fun _ member => nomatch member
  | succ heads ih =>
      cases candidates with
      | nil => exact fun _ member => nomatch member
      | cons cand candidates =>
          obtain ⟨token, tokens⟩ := List.forall_mem_cons.mp tokens
          cases targetDists with
          | nil => exact fun _ member => nomatch member
          | cons target targetDists =>
              obtain ⟨distribution, distributions⟩ := List.forall_mem_cons.mp distributions
              obtain ⟨pt, read⟩ := prob_at_reads (p := target.probs) token (0 : ℝ)
              unfold chances
              rw [List.forall_mem_cons]
              refine ⟨?_, ih tokens distributions⟩
              rw [read, Option.getD_some, prob_at_eq_token_prob read]
              exact ⟨token_prob_nonneg distribution cand, token_prob_le_one distribution cand⟩

/-- With a threshold the path ends before the first candidate below it. Without one, and
over independent draws, it ends after `j` candidates with the product of their target
probabilities and of the chance that the next one is refused. -/
theorem medusa_verify_law {V : Nat} (cfg : MedusaConfig ℝ) {candidates : List Int}
    (tokens : ∀ x ∈ candidates, 0 ≤ x) {targetDists : List (TokenDist ℝ)}
    (distributions : ∀ target ∈ targetDists, IsDistribution V target.probs) :
    let steps := chances cfg.numHeads.toNat candidates targetDists
    (0 < cfg.acceptanceThreshold → ∀ real drawn,
      medusaVerify cfg candidates targetDists real drawn = some (drawn, .ofPath
        ((steps.takeWhile fun chance => cfg.acceptanceThreshold ≤ chance.2).map Prod.fst))) ∧
    (¬0 < cfg.acceptanceThreshold →
      (∀ tape here, medusaVerify cfg candidates targetDists tape.real here.drawn =
        some (((acceptDraw steps).run tape here).2.drawn,
          .ofPath ((acceptDraw steps).run tape here).1)) ∧
      ∀ F, (acceptDraw steps).expect F =
        ∑ j ∈ Finset.range steps.length, ((steps.take j).map Prod.snd).prod *
          (1 - (steps.getD j (0, 0)).2) * F ((steps.take j).map Prod.fst) +
        (steps.map Prod.snd).prod * F (steps.map Prod.fst)) := by
  intro steps
  refine ⟨?_, ?_⟩
  · intro positive real drawn
    rw [medusaVerify, medusa_loop_threshold positive real tokens, foldl_accept_start]
  · intro off
    refine ⟨?_, expect_accept_draw (chances_probabilities tokens _ distributions)⟩
    intro tape here
    rw [medusaVerify, medusa_loop_draws off tape tokens, foldl_accept_start]

/-- Two heads, a candidate with 3/4 and one with 1/4. -/
theorem medusa_verify_law_two_heads :
    let cfg : MedusaConfig ℝ := { numHeads := 4, acceptanceThreshold := 0 }
    let dist : TokenDist ℝ := { logits := [], probs := [1 / 4, 3 / 4] }
    let steps := chances cfg.numHeads.toNat [1, 0] [dist, dist]
    (0 < cfg.acceptanceThreshold → ∀ real drawn,
      medusaVerify cfg [1, 0] [dist, dist] real drawn = some (drawn, .ofPath
        ((steps.takeWhile fun chance => cfg.acceptanceThreshold ≤ chance.2).map Prod.fst))) ∧
    (¬0 < cfg.acceptanceThreshold →
      (∀ tape here, medusaVerify cfg [1, 0] [dist, dist] tape.real here.drawn =
        some (((acceptDraw steps).run tape here).2.drawn,
          .ofPath ((acceptDraw steps).run tape here).1)) ∧
      ∀ F, (acceptDraw steps).expect F =
        ∑ j ∈ Finset.range steps.length, ((steps.take j).map Prod.snd).prod *
          (1 - (steps.getD j (0, 0)).2) * F ((steps.take j).map Prod.fst) +
        (steps.map Prod.snd).prod * F (steps.map Prod.fst)) := by
  intro cfg dist
  have distribution : IsDistribution 2 dist.probs := ⟨rfl, by norm_num [dist], by norm_num [dist]⟩
  exact medusa_verify_law cfg (by decide)
    (List.forall_mem_cons.mpr ⟨distribution, List.forall_mem_singleton.mpr distribution⟩)

end AmpFormal.MedusaVerify
