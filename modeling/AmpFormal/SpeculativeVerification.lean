import AmpFormal.SpeculativeModel
import Mathlib.Algebra.Field.Rat
import Mathlib.Algebra.Order.BigOperators.Group.List
import Mathlib.Algebra.BigOperators.Ring.List
import Mathlib.Algebra.Order.Ring.Rat
import Mathlib.Data.List.GetD
import Mathlib.Tactic.Linarith

/-!
# What a verification step emits

The loop of `verify` accepts drafts up to a position, and there it either has no
draft left or rejects one. The effect of the loop names that position, the
decisions before it and the sampler that gave the bonus. A cumulative scan ends
in the interval of the partial sums that holds the draw; an interval is empty
where the weight is 0.
-/

namespace AmpFormal.SpeculativeVerification

open AmpFormal.SpeculativeModel

set_option autoImplicit false

variable {R : Type*}

theorem prob_at_reads {p : List R} {x : Int} (nonneg : 0 ≤ x) (missing : R) :
    ∃ pt, probAt p x missing = some pt := by
  unfold probAt
  split
  case isTrue inside => exact ⟨p[x.toNat], List.getElem?_eq_getElem (by omega)⟩
  case isFalse => exact ⟨missing, rfl⟩

variable [Field R]

/-- The probability of a token, 0 outside the vocabulary. -/
def tokenProb (p : List R) (token : Int) : R :=
  if 0 ≤ token then p.getD token.toNat 0 else 0

theorem token_prob_cast (p : List R) (j : Nat) : tokenProb p j = p.getD j 0 := by
  simp [tokenProb]

theorem prob_at_eq_token_prob {p : List R} {x : Int} {pt : R} (read : probAt p x 0 = some pt) :
    pt = tokenProb p x := by
  unfold probAt at read
  unfold tokenProb
  split at read
  case isTrue inside =>
    split at read
    case isTrue positive =>
      rw [if_pos positive, List.getD_eq_getElem?_getD, read]
      rfl
    case isFalse => cases read
  case isFalse outside =>
    rw [if_pos (by omega), List.getD_eq_default _ _ (by omega)]
    exact (Option.some.inj read).symm

variable [LinearOrder R]

/-- A probability vector over `V` tokens. -/
structure IsDistribution (V : Nat) (p : List R) : Prop where
  length : p.length = V
  nonneg : ∀ w ∈ p, 0 ≤ w
  total : p.sum = 1

instance (V : Nat) (p : List R) : Decidable (IsDistribution V p) :=
  decidable_of_iff (p.length = V ∧ (∀ w ∈ p, 0 ≤ w) ∧ p.sum = 1)
    ⟨fun facts => ⟨facts.1, facts.2.1, facts.2.2⟩,
      fun valid => ⟨valid.length, valid.nonneg, valid.total⟩⟩

theorem token_prob_nonneg {V : Nat} {p : List R} (distribution : IsDistribution V p) (token : Int) :
    0 ≤ tokenProb p token := by
  unfold tokenProb
  split
  case isTrue =>
    rcases Nat.lt_or_ge token.toNat p.length with inside | outside
    · rw [List.getD_eq_getElem _ _ inside]
      exact distribution.nonneg _ (List.getElem_mem _)
    · rw [List.getD_eq_default _ _ outside]
  case isFalse => exact le_refl 0

/-! ## The two samplers by the draw they read -/

def sampled (draws : Draws R) (n : Nat) (probs : List R) : Int :=
  cdfScan (draws.real n) ((probs.length : Int) - 1) 0 0 probs

/-- The residual distribution has less mass than the guard. -/
def Degenerate (pTarget pDraft : List R) : Prop := (adjusted pTarget pDraft).sum < guardTerm

instance (pTarget pDraft : List R) : Decidable (Degenerate pTarget pDraft) :=
  inferInstanceAs (Decidable (_ < _))

def residual (pTarget pDraft : List R) : List R :=
  (adjusted pTarget pDraft).map (· / (adjusted pTarget pDraft).sum)

/-- The index that `sample_from_adjusted` returns with the `n`-th draw. -/
def residualSampled (draws : Draws R) (n : Nat) (pTarget pDraft : List R) : Int :=
  if Degenerate pTarget pDraft then draws.index n pTarget.length
  else sampled draws n (residual pTarget pDraft)

theorem sample_from_adjusted_token (draws : Draws R) (engine : SpecDecodeEngine)
    (pTarget pDraft : List R) :
    (sampleFromAdjusted draws engine pTarget pDraft).2 =
      residualSampled draws engine.drawn pTarget pDraft := by
  unfold sampleFromAdjusted residualSampled
  by_cases degenerate : Degenerate pTarget pDraft
  · rw [if_pos degenerate]
    exact congrArg Prod.snd (if_pos degenerate)
  · rw [if_neg degenerate]
    exact congrArg Prod.snd (if_neg degenerate)

theorem adjusted_length (pTarget pDraft : List R) :
    (adjusted pTarget pDraft).length = pTarget.length := by
  simp [adjusted]

theorem adjusted_get {pTarget pDraft : List R} {j : Nat} (inside : j < pTarget.length) :
    (adjusted pTarget pDraft).getD j 0 = max 0 (pTarget.getD j 0 - pDraft.getD j 0) := by
  rw [List.getD_eq_getElem _ _ (by rw [adjusted_length]; exact inside),
    List.getD_eq_getElem pTarget _ inside]
  simp [adjusted]

theorem adjusted_nonneg (pTarget pDraft : List R) : ∀ w ∈ adjusted pTarget pDraft, 0 ≤ w := by
  intro w member
  obtain ⟨j, inside, rfl⟩ := List.mem_mapIdx.mp member
  exact le_max_left _ _

theorem residual_length (pTarget pDraft : List R) :
    (residual pTarget pDraft).length = pTarget.length := by
  rw [residual, List.length_map, adjusted_length]

theorem residual_get (pTarget pDraft : List R) (j : Nat) :
    (residual pTarget pDraft).getD j 0 =
      (adjusted pTarget pDraft).getD j 0 / (adjusted pTarget pDraft).sum := by
  unfold residual
  simp only [List.getD_eq_getElem?_getD, List.getElem?_map]
  cases (adjusted pTarget pDraft)[j]? with
  | none => simp
  | some w => rfl

/-! ## The effect of the loop -/

/-- The comparison at position `i`; `none` where a read is out of range. -/
def acceptsAt (draws : Draws R) (drafts : List Int) (draftDists targetDists : List (TokenDist R))
    (start i : Nat) : Option Bool :=
  drafts[i]?.bind fun x => draftDists[i]?.bind fun draft => targetDists[i]?.bind fun target =>
    (probAt target.probs x 0).bind fun pt => (probAt draft.probs x guardTerm).map fun pd =>
      decide (draws.real (start + i) ≤ acceptProb pt pd)

/-- Where the bonus of a step that accepts `m` drafts comes from. -/
inductive BonusOrigin (draws : Draws R) (drafts : List Int)
    (draftDists targetDists : List (TokenDist R)) (start m : Nat) (token : Int) : Prop
  | allAccepted (target : TokenDist R) (finished : m = drafts.length)
      (read : targetDists[m]? = some target)
      (found : token = sampled draws (start + m) target.probs)
  | rejected (draft target : TokenDist R)
      (decision : acceptsAt draws drafts draftDists targetDists start m = some false)
      (draftRead : draftDists[m]? = some draft) (read : targetDists[m]? = some target)
      (found : token = residualSampled draws (start + m + 1) target.probs draft.probs)

structure VerifyEffect (draws : Draws R) (drafts : List Int)
    (draftDists targetDists : List (TokenDist R)) (start : Nat)
    (before after : SpecStepResult R) (m : Nat) : Prop where
  within : m ≤ drafts.length
  accepted : after.acceptedTokens = before.acceptedTokens ++ drafts.take m
  counted : after.nAccepted = before.nAccepted + m
  decisions : ∀ i < m, acceptsAt draws drafts draftDists targetDists start i = some true
  origin : BonusOrigin draws drafts draftDists targetDists start m after.bonusToken

theorem accepts_at_zero (draws : Draws R) {x : Int} (drafts : List Int) {draft target : TokenDist R}
    (draftDists targetDists : List (TokenDist R)) (start : Nat) {pt pd : R}
    (targetRead : probAt target.probs x 0 = some pt)
    (draftRead : probAt draft.probs x guardTerm = some pd) :
    acceptsAt draws (x :: drafts) (draft :: draftDists) (target :: targetDists) start 0 =
      some (decide (draws.real start ≤ acceptProb pt pd)) := by
  simp [acceptsAt, targetRead, draftRead]

theorem accepts_at_succ (draws : Draws R) (x : Int) (drafts : List Int) (draft target : TokenDist R)
    (draftDists targetDists : List (TokenDist R)) (start i : Nat) :
    acceptsAt draws (x :: drafts) (draft :: draftDists) (target :: targetDists) start (i + 1) =
      acceptsAt draws drafts draftDists targetDists (start + 1) i := by
  have position : start + (i + 1) = start + 1 + i := by omega
  unfold acceptsAt
  simp only [List.getElem?_cons_succ, position]

theorem BonusOrigin.shift {draws : Draws R} {x : Int} {drafts : List Int}
    {draft target : TokenDist R} {draftDists targetDists : List (TokenDist R)} {start m : Nat}
    {token : Int} (origin : BonusOrigin draws drafts draftDists targetDists (start + 1) m token) :
    BonusOrigin draws (x :: drafts) (draft :: draftDists) (target :: targetDists) start (m + 1)
      token := by
  have position : start + 1 + m = start + (m + 1) := by omega
  cases origin with
  | allAccepted last finished read found =>
      refine .allAccepted last ?_ ?_ ?_
      · rw [finished, List.length_cons]
      · rw [List.getElem?_cons_succ, read]
      · rw [found, position]
  | rejected draftDist targetDist decision draftRead read found =>
      refine .rejected draftDist targetDist ?_ ?_ ?_ ?_
      · rw [accepts_at_succ, decision]
      · rw [List.getElem?_cons_succ, draftRead]
      · rw [List.getElem?_cons_succ, read]
      · rw [found, position]

theorem verify_loop_effect {draws : Draws R} {drafts : List Int}
    {draftDists targetDists : List (TokenDist R)} {engine final : SpecDecodeEngine}
    {before after : SpecStepResult R}
    (executed : verifyLoop draws drafts draftDists targetDists engine before =
      some (final, after)) :
    ∃ m, VerifyEffect draws drafts draftDists targetDists engine.drawn before after m := by
  induction drafts generalizing draftDists targetDists engine before with
  | nil =>
      cases targetDists with
      | nil => cases draftDists <;> simp [verifyLoop] at executed
      | cons target targetDists =>
          simp only [verifyLoop, Option.some.injEq, Prod.mk.injEq] at executed
          obtain ⟨-, rfl⟩ := executed
          refine ⟨0, Nat.le_refl _, ?_, rfl, fun i small => by omega, ?_⟩
          · simp [SpecStepResult.bonus]
          · exact .allAccepted target rfl rfl rfl
  | cons x drafts ih =>
      cases draftDists with
      | nil => cases targetDists <;> simp [verifyLoop] at executed
      | cons draft draftDists =>
      cases targetDists with
      | nil => simp [verifyLoop] at executed
      | cons target targetDists =>
      simp only [verifyLoop, Option.bind_eq_bind, Option.bind_eq_some_iff] at executed
      obtain ⟨pt, targetRead, pd, draftRead, executed⟩ := executed
      have first := accepts_at_zero draws drafts draftDists targetDists engine.drawn targetRead
        draftRead
      split at executed
      case isTrue accepts =>
        obtain ⟨m, effect⟩ := ih executed
        refine ⟨m + 1, ?_, ?_, ?_, ?_, effect.origin.shift⟩
        · rw [List.length_cons]
          exact Nat.succ_le_succ effect.within
        · rw [effect.accepted]
          simp [SpecStepResult.accept]
        · rw [effect.counted]
          simp only [SpecStepResult.accept]
          omega
        · intro i small
          cases i with
          | zero => simp [first, accepts]
          | succ i =>
              rw [accepts_at_succ]
              exact effect.decisions i (by omega)
      case isFalse rejects =>
        simp only [Option.some.injEq, Prod.mk.injEq] at executed
        obtain ⟨-, rfl⟩ := executed
        refine ⟨0, Nat.zero_le _, ?_, rfl, fun i small => by omega, ?_⟩
        · simp [SpecStepResult.bonus]
        · refine .rejected draft target ?_ rfl rfl ?_
          · rw [first, decide_eq_false rejects]
          · exact sample_from_adjusted_token draws _ target.probs draft.probs

theorem verify_effect {draws : Draws R} {drafts : List Int}
    {draftDists targetDists : List (TokenDist R)} {engine final : SpecDecodeEngine}
    {result : SpecStepResult R}
    (executed : verify draws engine drafts draftDists targetDists = some (final, result)) :
    ∃ m, VerifyEffect draws drafts draftDists targetDists engine.drawn .initial result m := by
  unfold verify at executed
  split at executed
  case isTrue =>
    obtain ⟨⟨middle, after⟩, looped, rated⟩ := Option.bind_eq_some_iff.mp executed
    obtain ⟨m, effect⟩ := verify_loop_effect looped
    cases rated
    exact ⟨m, effect.within, effect.accepted, effect.counted, effect.decisions, effect.origin⟩
  case isFalse => cases executed

theorem verify_loop_executes (draws : Draws R) {drafts : List Int}
    {draftDists targetDists : List (TokenDist R)} (tokens : ∀ x ∈ drafts, 0 ≤ x)
    (draftLength : drafts.length = draftDists.length)
    (targetLength : targetDists.length = drafts.length + 1) (engine : SpecDecodeEngine)
    (before : SpecStepResult R) :
    ∃ run, verifyLoop draws drafts draftDists targetDists engine before = some run := by
  induction drafts generalizing draftDists targetDists engine before with
  | nil =>
      obtain ⟨target, rest, rfl⟩ := List.exists_cons_of_length_eq_add_one targetLength
      exact ⟨_, rfl⟩
  | cons x drafts ih =>
      obtain ⟨target, targetDists, rfl⟩ := List.exists_cons_of_length_eq_add_one targetLength
      obtain ⟨draft, draftDists, rfl⟩ := List.exists_cons_of_length_eq_add_one draftLength.symm
      obtain ⟨token, tokens⟩ := List.forall_mem_cons.mp tokens
      obtain ⟨pt, targetRead⟩ := prob_at_reads (p := target.probs) token 0
      obtain ⟨pd, draftRead⟩ := prob_at_reads (p := draft.probs) token guardTerm
      simp only [List.length_cons, Nat.add_right_cancel_iff] at draftLength targetLength
      simp only [verifyLoop, targetRead, draftRead, Option.bind_eq_bind, Option.bind_some]
      split
      case isTrue => exact ih tokens draftLength targetLength _ _
      case isFalse => exact ⟨_, rfl⟩

theorem verify_executes (draws : Draws R) {drafts : List Int}
    {draftDists targetDists : List (TokenDist R)} (tokens : ∀ x ∈ drafts, 0 ≤ x)
    (draftLength : drafts.length = draftDists.length)
    (targetLength : targetDists.length = drafts.length + 1) (engine : SpecDecodeEngine) :
    ∃ final result, verify draws engine drafts draftDists targetDists = some (final, result) := by
  obtain ⟨⟨middle, after⟩, looped⟩ := verify_loop_executes draws tokens draftLength
    targetLength (engine.countStep drafts.length) .initial
  unfold verify
  rw [if_pos ⟨draftLength, targetLength⟩, looped]
  exact ⟨_, _, rfl⟩

theorem verify_lengths {draws : Draws R} {drafts : List Int}
    {draftDists targetDists : List (TokenDist R)} {engine final : SpecDecodeEngine}
    {result : SpecStepResult R}
    (executed : verify draws engine drafts draftDists targetDists = some (final, result)) :
    drafts.length = draftDists.length ∧ targetDists.length = drafts.length + 1 := by
  unfold verify at executed
  split at executed
  case isTrue lengths => exact lengths
  case isFalse => cases executed

/-- A position that is reached is accepted, or it is the one that ends the step. -/
theorem produced_at {draws : Draws R} {drafts : List Int}
    {draftDists targetDists : List (TokenDist R)} {start : Nat} {before after : SpecStepResult R}
    {m i : Nat} (effect : VerifyEffect draws drafts draftDists targetDists start before after m)
    (fresh : before.acceptedTokens = []) (inside : i < drafts.length)
    (reached : ∀ j < i, acceptsAt draws drafts draftDists targetDists start j = some true) :
    (acceptsAt draws drafts draftDists targetDists start i = some true ∧
      after.produced[i]? = drafts[i]?) ∨
    (acceptsAt draws drafts draftDists targetDists start i = some false ∧
      ∃ draft target, draftDists[i]? = some draft ∧ targetDists[i]? = some target ∧
        after.produced[i]? =
          some (residualSampled draws (start + i + 1) target.probs draft.probs)) := by
  have accepted : after.acceptedTokens = drafts.take m := by
    rw [effect.accepted, fresh, List.nil_append]
  have length : after.acceptedTokens.length = m := by
    rw [accepted, List.length_take, Nat.min_eq_left effect.within]
  unfold SpecStepResult.produced
  rcases Nat.lt_or_ge i m with before | stopped
  · refine .inl ⟨effect.decisions i before, ?_⟩
    rw [List.getElem?_append_left (by omega), accepted, List.getElem?_take_of_lt before]
  · cases effect.origin with
    | allAccepted target finished read found => omega
    | rejected draft target decision draftRead read found =>
        have here : i = m := by
          rcases Nat.lt_or_ge m i with earlier | later
          · have := (reached m earlier).symm.trans decision
            cases this
          · omega
        subst here
        refine .inr ⟨decision, draft, target, draftRead, read, ?_⟩
        rw [List.getElem?_append_right (by omega), length, Nat.sub_self, found]
        rfl

/-! ## The scan -/

/-- The scan ends at the weight whose interval of the partial sums holds the draw. -/
theorem cdf_scan_interval {r cum : R} (last : Int) (start : Nat) {weights : List R}
    (above : cum < r) (within : r ≤ cum + weights.sum) :
    ∃ j < weights.length, cdfScan r last cum start weights = (start + j : Nat) ∧
      cum + (weights.take j).sum < r ∧ r ≤ cum + (weights.take (j + 1)).sum := by
  induction weights generalizing cum start with
  | nil =>
      rw [List.sum_nil, add_zero] at within
      exact absurd above (not_lt.mpr within)
  | cons p rest ih =>
      unfold cdfScan
      split
      case isTrue here =>
        exact ⟨0, Nat.zero_lt_succ _, rfl, by simpa using above, by simpa using here⟩
      case isFalse later =>
        rw [List.sum_cons, ← add_assoc] at within
        obtain ⟨j, small, found, lower, upper⟩ := ih (start + 1) (not_le.mp later) within
        refine ⟨j + 1, Nat.succ_lt_succ small, ?_, ?_, ?_⟩
        · rw [found]
          congr 1
          omega
        · rw [List.take_succ_cons, List.sum_cons, ← add_assoc]
          exact lower
        · rw [List.take_succ_cons, List.sum_cons, ← add_assoc]
          exact upper

theorem sampled_interval (draws : Draws R) (n : Nat) {V : Nat} {probs : List R}
    (distribution : IsDistribution V probs) (positive : 0 < draws.real n)
    (below : draws.real n < 1) :
    ∃ j < V, sampled draws n probs = j ∧ (probs.take j).sum < draws.real n ∧
      draws.real n ≤ (probs.take (j + 1)).sum := by
  have within : draws.real n ≤ 0 + probs.sum := by
    rw [distribution.total, zero_add]
    exact below.le
  obtain ⟨j, small, found, lower, upper⟩ :=
    cdf_scan_interval ((probs.length : Int) - 1) 0 positive within
  rw [zero_add] at lower upper
  rw [distribution.length] at small
  rw [Nat.zero_add] at found
  exact ⟨j, small, found, lower, upper⟩

variable [IsStrictOrderedRing R]

theorem sampled_positive {draws : Draws R} {n V : Nat} {probs : List R}
    (distribution : IsDistribution V probs) (positive : 0 < draws.real n)
    (below : draws.real n < 1) : 0 < tokenProb probs (sampled draws n probs) := by
  obtain ⟨j, small, found, lower, upper⟩ := sampled_interval draws n distribution positive below
  have inside : j < probs.length := by rw [distribution.length]; exact small
  have nonempty := lower.trans_le upper
  rw [List.sum_take_succ probs j inside, lt_add_iff_pos_right] at nonempty
  rw [found, token_prob_cast, List.getD_eq_getElem probs 0 inside]
  exact nonempty

/-! ## The residual distribution -/

theorem guard_term_pos : (0 : R) < guardTerm := by
  unfold guardTerm
  positivity

theorem residual_distribution {V : Nat} {pTarget pDraft : List R} (length : pTarget.length = V)
    (proper : ¬Degenerate pTarget pDraft) : IsDistribution V (residual pTarget pDraft) := by
  have mass : 0 < (adjusted pTarget pDraft).sum := guard_term_pos.trans_le (not_lt.mp proper)
  refine ⟨?_, ?_, ?_⟩
  · rw [residual_length, length]
  · intro w member
    obtain ⟨a, inside, rfl⟩ := List.mem_map.mp member
    exact div_nonneg (adjusted_nonneg pTarget pDraft a inside) mass.le
  · unfold residual
    simp only [div_eq_mul_inv]
    rw [List.sum_map_mul_right, List.map_id', mul_inv_cancel₀ mass.ne']

theorem residual_sampled_positive {draws : Draws R} {n V : Nat} {pTarget pDraft : List R}
    (target : IsDistribution V pTarget) (draft : IsDistribution V pDraft)
    (proper : ¬Degenerate pTarget pDraft) (positive : 0 < draws.real n)
    (below : draws.real n < 1) :
    0 < tokenProb pTarget (residualSampled draws n pTarget pDraft) := by
  have distribution := residual_distribution target.length proper
  obtain ⟨j, small, found, -, -⟩ := sampled_interval draws n distribution positive below
  have weight := sampled_positive distribution positive below
  have inside : j < pTarget.length := by rw [target.length]; exact small
  have drafted : 0 ≤ pDraft.getD j 0 := by
    rw [List.getD_eq_getElem _ _ (by rw [draft.length]; exact small)]
    exact draft.nonneg _ (List.getElem_mem _)
  rw [found, token_prob_cast, residual_get, adjusted_get inside] at weight
  unfold residualSampled
  rw [if_neg proper, found, token_prob_cast]
  by_contra forbidden
  rw [max_eq_left (by linarith), zero_div] at weight
  exact lt_irrefl 0 weight

/-! ## Forbidden tokens -/

/-- A comparison with a draw above 0 rejects a token of probability 0. -/
theorem accepts_at_positive {draws : Draws R} {drafts : List Int}
    {draftDists targetDists : List (TokenDist R)} {start i V : Nat}
    (targets : ∀ dist ∈ targetDists, IsDistribution V dist.probs)
    (positive : 0 < draws.real (start + i))
    (accepts : acceptsAt draws drafts draftDists targetDists start i = some true) :
    ∃ token target, drafts[i]? = some token ∧ targetDists[i]? = some target ∧
      0 < tokenProb target.probs token := by
  simp only [acceptsAt, Option.bind_eq_some_iff, Option.map_eq_some_iff, decide_eq_true_eq]
    at accepts
  obtain ⟨x, token, draft, -, target, read, pt, targetRead, pd, -, below⟩ := accepts
  refine ⟨x, target, token, read, ?_⟩
  have nonneg := token_prob_nonneg (targets target (List.mem_of_getElem? read)) x
  rw [← prob_at_eq_token_prob targetRead] at nonneg ⊢
  rcases nonneg.eq_or_lt with zero | nonzero
  · rw [← zero, acceptProb, zero_div, min_eq_right zero_le_one] at below
    exact absurd positive (not_lt.mpr below)
  · exact nonzero

/-- Every accepted token whose draw was not 0 has a positive target probability,
and so has the bonus when its draw was not 0, unless the residual distribution
was degenerate: then the bonus is the index drawn, whatever the target gives it. -/
theorem verify_emits_allowed {V : Nat} {draws : Draws R} {drafts : List Int}
    {draftDists targetDists : List (TokenDist R)} {engine final : SpecDecodeEngine}
    {result : SpecStepResult R}
    (draftsOver : ∀ dist ∈ draftDists, IsDistribution V dist.probs)
    (targetsOver : ∀ dist ∈ targetDists, IsDistribution V dist.probs)
    (unit : ∀ n, 0 ≤ draws.real n ∧ draws.real n < 1)
    (executed : verify draws engine drafts draftDists targetDists = some (final, result)) :
    (∀ i token, result.acceptedTokens[i]? = some token → draws.real (engine.drawn + i) ≠ 0 →
      ∃ target, targetDists[i]? = some target ∧ 0 < tokenProb target.probs token) ∧
    ∃ target, targetDists[result.nAccepted]? = some target ∧
      ((result.nAccepted = drafts.length ∧ (draws.real (engine.drawn + result.nAccepted) ≠ 0 →
          0 < tokenProb target.probs result.bonusToken)) ∨
      ∃ draft, draftDists[result.nAccepted]? = some draft ∧
        if Degenerate target.probs draft.probs then
          result.bonusToken = draws.index (engine.drawn + result.nAccepted + 1) V
        else draws.real (engine.drawn + result.nAccepted + 1) ≠ 0 →
          0 < tokenProb target.probs result.bonusToken) := by
  obtain ⟨m, effect⟩ := verify_effect executed
  have accepted : result.acceptedTokens = drafts.take m := effect.accepted
  have counted : result.nAccepted = m := effect.counted.trans (Nat.zero_add m)
  have above : ∀ n, draws.real n ≠ 0 → 0 < draws.real n :=
    fun n nonzero => lt_of_le_of_ne (unit n).1 (Ne.symm nonzero)
  refine ⟨?_, ?_⟩
  · intro i token emitted nonzero
    rw [accepted, List.getElem?_take] at emitted
    split at emitted
    case isTrue small =>
      obtain ⟨x, target, drafted, read, possible⟩ :=
        accepts_at_positive targetsOver (above _ nonzero) (effect.decisions i small)
      cases drafted.symm.trans emitted
      exact ⟨target, read, possible⟩
    case isFalse => cases emitted
  · rw [counted]
    cases effect.origin with
    | allAccepted target finished read found =>
        refine ⟨target, read, .inl ⟨finished, fun nonzero => ?_⟩⟩
        rw [found]
        exact sampled_positive (targetsOver target (List.mem_of_getElem? read))
          (above _ nonzero) (unit _).2
    | rejected draft target decision draftRead read found =>
        have targetOver := targetsOver target (List.mem_of_getElem? read)
        have draftOver := draftsOver draft (List.mem_of_getElem? draftRead)
        refine ⟨target, read, .inr ⟨draft, draftRead, ?_⟩⟩
        split
        case isTrue degenerate =>
          rw [found, residualSampled, if_pos degenerate, targetOver.length]
        case isFalse proper =>
          intro nonzero
          rw [found]
          exact residual_sampled_positive targetOver draftOver proper (above _ nonzero) (unit _).2

/-- A draft rejected with the draw 3/4; the bonus is drawn from the residual. -/
theorem verify_emits_allowed_rejected_draft : ∃ final result,
    verify (R := ℚ) ⟨fun n => if n = 0 then 3 / 4 else 1 / 2, fun _ _ => 0⟩ {} [0]
      [⟨[], [1, 0]⟩] [⟨[], [1 / 2, 1 / 2]⟩, ⟨[], [1, 0]⟩] = some (final, result) ∧
    result.acceptedTokens = [] ∧ 0 < tokenProb (R := ℚ) [1 / 2, 1 / 2] result.bonusToken := by
  have executed : verify (R := ℚ) ⟨fun n => if n = 0 then 3 / 4 else 1 / 2, fun _ _ => 0⟩ {} [0]
      [⟨[], [1, 0]⟩] [⟨[], [1 / 2, 1 / 2]⟩, ⟨[], [1, 0]⟩] =
      some (⟨⟨1, 1, 0, 1⟩, 2⟩, ⟨[], 1, 0, 0⟩) := by decide +kernel
  refine ⟨_, _, executed, rfl, ?_⟩
  obtain ⟨-, target, read, last | ⟨draft, draftRead, allowed⟩⟩ :=
    verify_emits_allowed (V := 2) (by decide +kernel) (by decide +kernel)
      (fun n => by dsimp only; split <;> norm_num) executed
  · cases last.1
  · cases read
    cases draftRead
    rw [if_neg (by decide +kernel)] at allowed
    exact allowed (by norm_num)

/-- Distributions over two tokens and draws of [0, 1) for which a token of
probability 0 is emitted: by the degenerate branch, by an accept draw of 0 and by
a bonus draw of 0. -/
theorem forbidden_tokens_emitted :
    (∃ final result, verify (R := ℚ) ⟨fun _ => 9999999999 / 10000000000, fun _ _ => 1⟩ {} [0]
        [⟨[], [1, 0]⟩] [⟨[], [1, 0]⟩, ⟨[], [1, 0]⟩] = some (final, result) ∧
      result.nAccepted = 0 ∧ result.bonusToken = 1 ∧ tokenProb (R := ℚ) [1, 0] 1 = 0) ∧
    (∃ final result, verify (R := ℚ) ⟨fun _ => 0, fun _ _ => 0⟩ {} [0]
        [⟨[], [1 / 2, 1 / 2]⟩] [⟨[], [0, 1]⟩, ⟨[], [1, 0]⟩] = some (final, result) ∧
      result.acceptedTokens = [0] ∧ tokenProb (R := ℚ) [0, 1] 0 = 0) ∧
    (∃ final result, verify (R := ℚ) ⟨fun _ => 0, fun _ _ => 0⟩ {} [] [] [⟨[], [0, 1]⟩] =
        some (final, result) ∧
      result.nAccepted = 0 ∧ result.bonusToken = 0 ∧ tokenProb (R := ℚ) [0, 1] 0 = 0) ∧
    IsDistribution (R := ℚ) 2 [1, 0] ∧ IsDistribution (R := ℚ) 2 [0, 1] ∧
    IsDistribution (R := ℚ) 2 [1 / 2, 1 / 2] := by
  refine ⟨⟨⟨⟨1, 1, 0, 1⟩, 2⟩, ⟨[], 1, 0, 0⟩, ?_⟩, ⟨⟨⟨1, 1, 1, 0⟩, 2⟩, ⟨[0], 0, 1, 1⟩, ?_⟩,
    ⟨⟨⟨1, 0, 0, 0⟩, 1⟩, ⟨[], 0, 0, 0⟩, ?_⟩, ?_⟩ <;> decide +kernel

end AmpFormal.SpeculativeVerification
