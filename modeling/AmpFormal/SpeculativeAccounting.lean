import AmpFormal.SpeculativeVerification
import AmpFormal.TransitionRuns

/-!
# What the speculative engine counts

Both verifications accept a prefix of the drafts, reject all that follow it and add
one bonus token. The loops count one token at a time and leave at any position; a
step that accepts `m` of `k` drafts has added `m` to the accepted and `k - m` to the
rejected ones wherever it left, so the totals agree over mixed sessions.
-/

namespace AmpFormal.SpeculativeAccounting

open AmpFormal.FirstMaximum AmpFormal.SpeculativeModel AmpFormal.SpeculativeVerification
open AmpFormal.TransitionRuns

set_option autoImplicit false

variable {R : Type*}

def totalNew (result : SpecStepResult R) : Nat :=
  result.nAccepted + if 0 ≤ result.bonusToken then 1 else 0

/-- A token of a vocabulary of size `V`. -/
def InVocabulary (V : Nat) (token : Int) : Prop := 0 ≤ token ∧ token < V

instance (V : Nat) (token : Int) : Decidable (InVocabulary V token) :=
  inferInstanceAs (Decidable (_ ∧ _))

structure OverVocabulary (V : Nat) (dist : TokenDist R) : Prop where
  logits : dist.logits.length = V
  probs : dist.probs.length = V

instance (V : Nat) (dist : TokenDist R) : Decidable (OverVocabulary V dist) :=
  decidable_of_iff (dist.logits.length = V ∧ dist.probs.length = V)
    ⟨fun lengths => ⟨lengths.1, lengths.2⟩, fun valid => ⟨valid.logits, valid.probs⟩⟩

/-- The counters after a loop that accepted `m` of `k` drafts. -/
def countTokens (stats : SpecStats) (k m : Nat) : SpecStats :=
  { stats with
    acceptedTokens := stats.acceptedTokens + m
    rejectedTokens := stats.rejectedTokens + (k - m) }

/-- A loop over `drafts` that accepted the first `m`, the counters being `counters` before it. -/
structure LoopCounts (V : Nat) (drafts : List Int) (counters : SpecStats)
    (before : SpecStepResult R) (final : SpecDecodeEngine) (after : SpecStepResult R) (m : Nat) :
    Prop where
  within : m ≤ drafts.length
  accepted : after.acceptedTokens = before.acceptedTokens ++ drafts.take m
  counted : after.nAccepted = before.nAccepted + m
  bonus : InVocabulary V after.bonusToken
  stats : final.stats = countTokens counters drafts.length m

section Positions

variable {V : Nat} {drafts : List Int} {counters : SpecStats} {before : SpecStepResult R}

theorem counts_finish {final : SpecDecodeEngine} {token : Int} (bonus : InVocabulary V token)
    (unchanged : final.stats = counters) :
    LoopCounts V [] counters before final (before.bonus token) 0 where
  within := Nat.le_refl _
  accepted := (List.append_nil _).symm
  counted := rfl
  bonus := bonus
  stats := unchanged

theorem counts_reject (engine : SpecDecodeEngine) {final : SpecDecodeEngine} {x token : Int}
    (bonus : InVocabulary V token)
    (rejected : final.stats = (engine.countRejected (drafts.length + 1)).stats) :
    LoopCounts V (x :: drafts) engine.stats before final (before.bonus token) 0 where
  within := Nat.zero_le _
  accepted := (List.append_nil _).symm
  counted := rfl
  bonus := bonus
  stats := rejected

theorem counts_accept (engine : SpecDecodeEngine) {final : SpecDecodeEngine} {x : Int}
    {after : SpecStepResult R} {m : Nat}
    (counts : LoopCounts V drafts engine.countAccepted.stats (before.accept x) final after m) :
    LoopCounts V (x :: drafts) engine.stats before final after (m + 1) where
  within := Nat.succ_le_succ counts.within
  accepted := by
    rw [counts.accepted, List.take_succ_cons]
    exact List.append_assoc _ _ _
  counted := by
    rw [counts.counted]
    exact Nat.succ_add_eq_add_succ _ _
  bonus := counts.bonus
  stats := by
    have accepted : engine.stats.acceptedTokens + 1 + m = engine.stats.acceptedTokens + (m + 1) :=
      Nat.succ_add_eq_add_succ _ _
    have rejected : drafts.length + 1 - (m + 1) = drafts.length - m := Nat.succ_sub_succ _ _
    rw [counts.stats]
    simp only [countTokens, SpecDecodeEngine.countAccepted, List.length_cons, accepted, rejected]

end Positions

/-! ## Greedy verification -/

section Greedy

variable [LinearOrder R] {V : Nat}

theorem max_element_in_vocabulary {dist : TokenDist R} (over_vocabulary : OverVocabulary V dist)
    (someToken : 1 ≤ V) : InVocabulary V (maxElement dist.logits : Nat) := by
  have length := over_vocabulary.logits
  have nonempty : dist.logits ≠ [] := by
    intro empty
    rw [empty, List.length_nil] at length
    omega
  have inside := max_element_lt nonempty
  rw [length] at inside
  exact ⟨Int.natCast_nonneg _, Int.ofNat_lt.mpr inside⟩

theorem verify_greedy_loop_counts (someToken : 1 ≤ V) {drafts : List Int}
    {targetDists : List (TokenDist R)} (length : targetDists.length = drafts.length + 1)
    (targets : ∀ dist ∈ targetDists, OverVocabulary V dist) (engine : SpecDecodeEngine)
    (before : SpecStepResult R) :
    ∃ final after m, verifyGreedyLoop drafts targetDists engine before = some (final, after) ∧
      LoopCounts V drafts engine.stats before final after m := by
  induction drafts generalizing targetDists engine before with
  | nil =>
      obtain ⟨target, rest, rfl⟩ := List.exists_cons_of_length_eq_add_one length
      have bonus := max_element_in_vocabulary (targets target List.mem_cons_self) someToken
      exact ⟨_, _, 0, rfl, counts_finish bonus rfl⟩
  | cons x drafts ih =>
      obtain ⟨target, targetDists, rfl⟩ := List.exists_cons_of_length_eq_add_one length
      obtain ⟨here, targets⟩ := List.forall_mem_cons.mp targets
      have bonus := max_element_in_vocabulary here someToken
      by_cases equal : x = (maxElement target.logits : Nat)
      · obtain ⟨final, after, m, executed, counts⟩ := ih (Nat.succ.inj length) targets
          engine.countAccepted (before.accept x)
        refine ⟨final, after, m + 1, ?_, counts_accept engine counts⟩
        unfold verifyGreedyLoop
        exact (if_pos equal).trans executed
      · refine ⟨_, _, 0, ?_, counts_reject engine bonus rfl⟩
        unfold verifyGreedyLoop
        exact if_neg equal

end Greedy

/-! ## Rejection sampling verification -/

section Sampling

variable [Field R] {V : Nat}

theorem counts_rate {drafts : List Int} {counters stats : SpecStats}
    {before after : SpecStepResult R} {final : SpecDecodeEngine} {m : Nat}
    (counts : LoopCounts V drafts counters before final after m) :
    LoopCounts V drafts counters before final (after.rate stats) m :=
  ⟨counts.within, counts.accepted, counts.counted, counts.bonus, counts.stats⟩

variable [LinearOrder R]

/-- The scan ends at an index of the vector, or falls through to its last one. -/
theorem cdf_scan_in_vocabulary {r : R} {last : Int} (fallback : InVocabulary V last)
    {weights : List R} {cum : R} {start : Nat} (inside : start + weights.length ≤ V) :
    InVocabulary V (cdfScan r last cum start weights) := by
  induction weights generalizing cum start with
  | nil => exact fallback
  | cons p rest ih =>
      rw [List.length_cons] at inside
      unfold cdfScan
      split
      case isTrue => exact ⟨Int.natCast_nonneg _, by omega⟩
      case isFalse => exact ih (by omega)

theorem sampled_in_vocabulary (draws : Draws R) (n : Nat) {probs : List R}
    (length : probs.length = V) (someToken : 1 ≤ V) :
    InVocabulary V (sampled draws n probs) := by
  have last : InVocabulary V ((probs.length : Int) - 1) := ⟨by omega, by omega⟩
  apply cdf_scan_in_vocabulary last
  rw [Nat.zero_add, length]

/-- Every index drawn is one of the vocabulary. -/
def DrawsInRange (draws : Draws R) : Prop := ∀ n V, 1 ≤ V → draws.index n V < V

theorem residual_sampled_in_vocabulary {draws : Draws R} (range : DrawsInRange draws) (n : Nat)
    {pTarget : List R} (pDraft : List R) (length : pTarget.length = V) (someToken : 1 ≤ V) :
    InVocabulary V (residualSampled draws n pTarget pDraft) := by
  unfold residualSampled
  split
  case isTrue =>
    have drawn := range n V someToken
    rw [length]
    exact ⟨Int.natCast_nonneg _, Int.ofNat_lt.mpr drawn⟩
  case isFalse =>
    have normalised : (residual pTarget pDraft).length = V := by rw [residual_length, length]
    exact sampled_in_vocabulary draws n normalised someToken

theorem sample_from_adjusted_stats (draws : Draws R) (engine : SpecDecodeEngine)
    (pTarget pDraft : List R) :
    (sampleFromAdjusted draws engine pTarget pDraft).1.stats = engine.stats := by
  unfold sampleFromAdjusted
  dsimp only
  split <;> rfl

theorem verify_loop_counts {draws : Draws R} (range : DrawsInRange draws) (someToken : 1 ≤ V)
    {drafts : List Int} {draftDists targetDists : List (TokenDist R)}
    (targets : ∀ dist ∈ targetDists, OverVocabulary V dist) {engine final : SpecDecodeEngine}
    {before after : SpecStepResult R}
    (executed : verifyLoop draws drafts draftDists targetDists engine before =
      some (final, after)) :
    ∃ m, LoopCounts V drafts engine.stats before final after m := by
  induction drafts generalizing draftDists targetDists engine before with
  | nil =>
      cases targetDists with
      | nil => cases draftDists <;> simp [verifyLoop] at executed
      | cons target targetDists =>
          have over_vocabulary := targets target List.mem_cons_self
          have bonus := sampled_in_vocabulary draws engine.drawn over_vocabulary.probs someToken
          simp only [verifyLoop, Option.some.injEq, Prod.mk.injEq] at executed
          obtain ⟨rfl, rfl⟩ := executed
          exact ⟨0, counts_finish bonus rfl⟩
  | cons x drafts ih =>
      cases draftDists with
      | nil => cases targetDists <;> simp [verifyLoop] at executed
      | cons draft draftDists =>
      cases targetDists with
      | nil => simp [verifyLoop] at executed
      | cons target targetDists =>
      obtain ⟨here, targets⟩ := List.forall_mem_cons.mp targets
      simp only [verifyLoop, Option.bind_eq_bind, Option.bind_eq_some_iff] at executed
      obtain ⟨pt, -, pd, -, executed⟩ := executed
      split at executed
      case isTrue =>
        obtain ⟨m, counts⟩ := ih targets executed
        exact ⟨m + 1, counts_accept engine.draw counts⟩
      case isFalse =>
        simp only [Option.some.injEq, Prod.mk.injEq] at executed
        obtain ⟨rfl, rfl⟩ := executed
        refine ⟨0, counts_reject engine ?_ ?_⟩
        · rw [sample_from_adjusted_token]
          exact residual_sampled_in_vocabulary range _ draft.probs here.probs someToken
        · exact sample_from_adjusted_stats draws _ target.probs draft.probs

end Sampling

/-! ## Sessions -/

section Sessions

/-- Drafts and the target distributions of their positions, one more than drafts. -/
structure Proposal (V : Nat) (draftTokens : List Int) (targetDists : List (TokenDist R)) : Prop where
  tokens : ∀ x ∈ draftTokens, InVocabulary V x
  targets : ∀ dist ∈ targetDists, OverVocabulary V dist
  length : targetDists.length = draftTokens.length + 1

instance (V : Nat) (draftTokens : List Int) (targetDists : List (TokenDist R)) :
    Decidable (Proposal V draftTokens targetDists) :=
  decidable_of_iff
    ((∀ x ∈ draftTokens, InVocabulary V x) ∧ (∀ dist ∈ targetDists, OverVocabulary V dist) ∧
      targetDists.length = draftTokens.length + 1)
    ⟨fun facts => ⟨facts.1, facts.2.1, facts.2.2⟩,
      fun valid => ⟨valid.tokens, valid.targets, valid.length⟩⟩

/-- A call of one of the two verifications. -/
inductive Call (R : Type*) where
  | verify (draftTokens : List Int) (draftDists targetDists : List (TokenDist R))
  | verifyGreedy (draftTokens : List Int) (targetDists : List (TokenDist R))

def Call.draftTokens : Call R → List Int
  | .verify draftTokens _ _ => draftTokens
  | .verifyGreedy draftTokens _ => draftTokens

/-- What the engine may be called with over a vocabulary of size `V`. -/
def Call.WellFormed (V : Nat) : Call R → Prop
  | .verify draftTokens draftDists targetDists =>
      Proposal V draftTokens targetDists ∧ draftTokens.length = draftDists.length ∧
        ∀ dist ∈ draftDists, OverVocabulary V dist
  | .verifyGreedy draftTokens targetDists => Proposal V draftTokens targetDists

instance (V : Nat) (call : Call R) : Decidable (call.WellFormed V) :=
  match call with
  | .verify draftTokens draftDists targetDists =>
      inferInstanceAs (Decidable (Proposal V draftTokens targetDists ∧
        draftTokens.length = draftDists.length ∧ ∀ dist ∈ draftDists, OverVocabulary V dist))
  | .verifyGreedy draftTokens targetDists =>
      inferInstanceAs (Decidable (Proposal V draftTokens targetDists))

/-- An engine with what it was called with so far. -/
structure Session where
  engine : SpecDecodeEngine := {}
  calls : Nat := 0
  proposed : Nat := 0
  deriving DecidableEq, Repr

variable [Field R] [LinearOrder R] {V : Nat}

def Call.run (draws : Draws R) (engine : SpecDecodeEngine) :
    Call R → Option (SpecDecodeEngine × SpecStepResult R)
  | .verify draftTokens draftDists targetDists =>
      SpeculativeModel.verify draws engine draftTokens draftDists targetDists
  | .verifyGreedy draftTokens targetDists =>
      SpeculativeModel.verifyGreedy engine draftTokens targetDists

theorem call_counts {draws : Draws R} (range : DrawsInRange draws) (someToken : 1 ≤ V)
    {call : Call R} (valid : call.WellFormed V) (engine : SpecDecodeEngine) :
    ∃ final result m, call.run draws engine = some (final, result) ∧
      LoopCounts V call.draftTokens (engine.countStep call.draftTokens.length).stats .initial
        final result m := by
  cases call with
  | verify draftTokens draftDists targetDists =>
      obtain ⟨proposal, lengths, -⟩ := valid
      have tokens : ∀ x ∈ draftTokens, 0 ≤ x := fun x member => (proposal.tokens x member).1
      obtain ⟨⟨final, after⟩, looped⟩ := verify_loop_executes draws tokens lengths proposal.length
        (engine.countStep draftTokens.length) .initial
      obtain ⟨m, counts⟩ := verify_loop_counts range someToken proposal.targets looped
      refine ⟨final, after.rate final.stats, m, ?_, counts_rate counts⟩
      unfold Call.run SpeculativeModel.verify
      dsimp only
      rw [if_pos ⟨lengths, proposal.length⟩, looped]
      rfl
  | verifyGreedy draftTokens targetDists =>
      have proposal : Proposal V draftTokens targetDists := valid
      exact verify_greedy_loop_counts someToken proposal.length proposal.targets
        (engine.countStep draftTokens.length) .initial

def Session.step (draws : Draws R) (session : Session) (call : Call R) : Option Session :=
  (call.run draws session.engine).map fun (engine, _) =>
    { engine := engine, calls := session.calls + 1,
      proposed := session.proposed + call.draftTokens.length }

/-- Every proposed draft is accepted or rejected. -/
structure Balanced (stats : SpecStats) (calls proposed : Nat) : Prop where
  steps : stats.steps = calls
  drafted : stats.draftTokens = proposed
  decided : stats.acceptedTokens + stats.rejectedTokens = proposed

/-- One call keeps the balance, wherever it leaves its loop. -/
theorem step_balanced {draws : Draws R} (range : DrawsInRange draws) (someToken : 1 ≤ V)
    {before after : Session} {call : Call R}
    (balanced : Balanced before.engine.stats before.calls before.proposed)
    (valid : call.WellFormed V) (moved : before.step draws call = some after) :
    Balanced after.engine.stats after.calls after.proposed := by
  obtain ⟨final, result, m, executed, counts⟩ := call_counts range someToken valid before.engine
  unfold Session.step at moved
  rw [executed] at moved
  cases moved
  have within := counts.within
  have decided := balanced.decided
  dsimp only
  rw [counts.stats]
  constructor
  · exact congrArg (· + 1) balanced.steps
  · exact congrArg (· + call.draftTokens.length) balanced.drafted
  · simp only [countTokens, SpecDecodeEngine.countStep]
    omega

/-- After every call the counters balance, and every further call runs to its end
with a prefix of its drafts and one token of the vocabulary. -/
theorem speculative_steps_accounted {draws : Draws R} (range : DrawsInRange draws)
    (someToken : 1 ≤ V) {session : Session}
    (reached : Reaches (Session.step draws) (fun _ call => call.WellFormed V) {} session) :
    Balanced session.engine.stats session.calls session.proposed ∧
      ∀ call : Call R, call.WellFormed V →
        ∃ final result, call.run draws session.engine = some (final, result) ∧
          result.acceptedTokens = call.draftTokens.take result.nAccepted ∧
          result.nAccepted ≤ call.draftTokens.length ∧
          InVocabulary V result.bonusToken ∧ totalNew result = result.nAccepted + 1 := by
  constructor
  · induction reached with
    | start => exact ⟨rfl, rfl, rfl⟩
    | call prior call valid moved ih => exact step_balanced range someToken ih valid moved
  · intro call valid
    obtain ⟨final, result, m, executed, counts⟩ :=
      call_counts range someToken valid session.engine
    have counted : result.nAccepted = m := counts.counted.trans (Nat.zero_add m)
    refine ⟨final, result, executed, ?_, ?_, counts.bonus, ?_⟩
    · rw [counted]
      exact counts.accepted
    · rw [counted]
      exact counts.within
    · unfold totalNew
      rw [if_pos counts.bonus.1]

def mixedDraws : Draws ℚ := ⟨fun n => if n = 1 then 3 / 4 else 1 / 4, fun _ _ => 0⟩

/-- A sampled step that rejects its second draft, then a greedy one that rejects its first. -/
def mixedCalls : List (Call ℚ) :=
  let even : TokenDist ℚ := ⟨[0, 0], [1 / 2, 1 / 2]⟩
  let uneven : TokenDist ℚ := ⟨[0, 1], [1 / 4, 3 / 4]⟩
  [.verify [0, 0] [even, even] [even, uneven, even], .verifyGreedy [0, 1] [uneven, even, even]]

theorem speculative_steps_accounted_mixed :
    Balanced ⟨2, 4, 1, 3⟩ 2 4 ∧
      ∃ final result, Call.run mixedDraws ⟨⟨2, 4, 1, 3⟩, 3⟩
          (.verifyGreedy [1] [⟨[0, 1], [0, 1]⟩, ⟨[1, 0], [1, 0]⟩]) = some (final, result) ∧
        InVocabulary 2 result.bonusToken ∧ totalNew result = result.nAccepted + 1 := by
  have range : DrawsInRange mixedDraws := fun _ _ someToken => someToken
  have reached : Reaches (Session.step mixedDraws) (fun _ call => call.WellFormed 2) {}
      ⟨⟨⟨2, 4, 1, 3⟩, 3⟩, 2, 4⟩ := reaches_of_run mixedCalls (by decide +kernel)
  obtain ⟨balanced, steps⟩ := speculative_steps_accounted range (by decide) reached
  obtain ⟨final, result, executed, -, -, emitted⟩ :=
    steps (.verifyGreedy [1] [⟨[0, 1], [0, 1]⟩, ⟨[1, 0], [1, 0]⟩]) (by decide +kernel)
  exact ⟨balanced, final, result, executed, emitted⟩

end Sessions

end AmpFormal.SpeculativeAccounting
