import AmpFormal.DrawPrograms
import AmpFormal.SpeculativeVerification

/-!
# Speculative decoding as a program of draws

`verify` as a program that draws, and the loop of a caller around it: a draft
model proposes tokens, `verify` checks them against the target model, and what it
produces is appended to the context. On any values of the draws the program gives
the tokens that `verify` gives.
-/

namespace AmpFormal.SpeculativeDraws

open AmpFormal.DrawPrograms AmpFormal.SpeculativeModel AmpFormal.SpeculativeVerification

set_option autoImplicit false

variable {R : Type*} [Field R] [LinearOrder R]

/-! ## The samplers and the loop -/

def sampleDraw (probs : List R) : Draw R Int :=
  .real fun r => .done (cdfScan r ((probs.length : Int) - 1) 0 0 probs)

def residualDraw (pTarget pDraft : List R) : Draw R Int :=
  if Degenerate pTarget pDraft then .index pTarget.length fun i => .done (i : Int)
  else sampleDraw (residual pTarget pDraft)

/-- What `verify` produces, the bonus last. -/
def verifyDraw : List Int → List (TokenDist R) → List (TokenDist R) → Draw R (List Int)
  | x :: drafts, draft :: draftDists, target :: targetDists =>
      .real fun u =>
        if u ≤ acceptProb ((probAt target.probs x 0).getD 0)
            ((probAt draft.probs x guardTerm).getD 0) then
          (verifyDraw drafts draftDists targetDists).map (x :: ·)
        else (residualDraw target.probs draft.probs).map ([·])
  | [], _, target :: _ => (sampleDraw target.probs).map ([·])
  | _, _, _ => .done []

def drawsOf (tape : Tape R) : Draws R := { real := tape.real, index := tape.index }

theorem run_sample_draw (tape : Tape R) (probs : List R) (engine : SpecDecodeEngine)
    (picked : Nat) :
    (sampleDraw probs).run tape ⟨engine.drawn, picked⟩ =
      ((sampleFrom (drawsOf tape) engine probs).2,
        ⟨(sampleFrom (drawsOf tape) engine probs).1.drawn, picked⟩) := rfl

theorem run_residual_draw (tape : Tape R) (pTarget pDraft : List R) (engine : SpecDecodeEngine)
    (picked : Nat) :
    (residualDraw pTarget pDraft).run tape ⟨engine.drawn, picked⟩ =
      ((sampleFromAdjusted (drawsOf tape) engine pTarget pDraft).2,
        ⟨(sampleFromAdjusted (drawsOf tape) engine pTarget pDraft).1.drawn, picked⟩) := by
  unfold residualDraw
  by_cases degenerate : Degenerate pTarget pDraft
  · have uniform : sampleFromAdjusted (drawsOf tape) engine pTarget pDraft =
        (engine.draw, (tape.index engine.drawn pTarget.length : Int)) := if_pos degenerate
    rw [if_pos degenerate, uniform]
    rfl
  · have scanned : sampleFromAdjusted (drawsOf tape) engine pTarget pDraft =
        sampleFrom (drawsOf tape) engine (residual pTarget pDraft) := if_neg degenerate
    rw [if_neg degenerate, scanned]
    exact run_sample_draw tape (residual pTarget pDraft) engine picked

theorem run_verify_draw (tape : Tape R) {drafts : List Int}
    {draftDists targetDists : List (TokenDist R)} {engine final : SpecDecodeEngine}
    {before after : SpecStepResult R} (picked : Nat)
    (executed : verifyLoop (drawsOf tape) drafts draftDists targetDists engine before =
      some (final, after)) :
    after.produced = before.acceptedTokens ++
        ((verifyDraw drafts draftDists targetDists).run tape ⟨engine.drawn, picked⟩).1 ∧
      (⟨final.drawn, picked⟩ : Position) =
        ((verifyDraw drafts draftDists targetDists).run tape ⟨engine.drawn, picked⟩).2 := by
  induction drafts generalizing draftDists targetDists engine before with
  | nil =>
      cases targetDists with
      | nil => cases executed
      | cons target targetDists =>
          cases executed
          unfold verifyDraw
          rw [Draw.run_map, run_sample_draw]
          exact ⟨rfl, rfl⟩
  | cons x drafts ih =>
      cases draftDists with
      | nil => cases executed
      | cons draft draftDists =>
          cases targetDists with
          | nil => cases executed
          | cons target targetDists =>
              unfold verifyLoop at executed
              obtain ⟨pt, targetRead, executed⟩ := Option.bind_eq_some_iff.mp executed
              obtain ⟨pd, draftRead, executed⟩ := Option.bind_eq_some_iff.mp executed
              unfold verifyDraw Draw.run
              rw [targetRead, draftRead]
              dsimp only [Option.getD_some, Position.draw] at executed ⊢
              by_cases accepts : tape.real engine.drawn ≤ acceptProb pt pd
              · rw [if_pos accepts, Draw.run_map]
                obtain ⟨tokens, reached⟩ := ih ((if_pos accepts).symm.trans executed)
                refine ⟨?_, reached⟩
                rw [tokens]
                exact List.append_assoc _ _ _
              · rw [if_neg accepts, Draw.run_map]
                cases (if_neg accepts).symm.trans executed
                have stopped := run_residual_draw tape target.probs draft.probs
                  (engine.draw.countRejected (drafts.length + 1)) picked
                change (residualDraw target.probs draft.probs).run tape
                  ⟨engine.drawn + 1, picked⟩ = _ at stopped
                rw [stopped]
                exact ⟨rfl, rfl⟩

/-! ## The loop of the caller -/

/-- A model gives a distribution over the vocabulary after every context. -/
structure LanguageModel (R : Type*) [Field R] [LinearOrder R] (V : Nat) where
  dist : List Int → TokenDist R
  distribution : ∀ context, IsDistribution V (dist context).probs

variable {V : Nat}

/-- `draft_dists[i]` follows the context and the first `i` drafts. -/
def draftDists (model : LanguageModel R V) : List Int → List Int → List (TokenDist R)
  | _, [] => []
  | context, x :: drafts => model.dist context :: draftDists model (context ++ [x]) drafts

/-- `target_dists[k]` follows all drafts. -/
def targetDists (model : LanguageModel R V) (context drafts : List Int) : List (TokenDist R) :=
  draftDists model context drafts ++ [model.dist (context ++ drafts)]

/-- `k` tokens of the model, one after the other. -/
def decodeDraw (model : LanguageModel R V) : Nat → List Int → Draw R (List Int)
  | 0, _ => .done []
  | k + 1, context => .pick (model.dist context).probs fun x =>
      (decodeDraw model k (context ++ [(x : Int)])).map ((x : Int) :: ·)

/-- One round for each number of drafts. -/
def speculateDraw (draft target : LanguageModel R V) : List Int → List Nat → Draw R (List Int)
  | _, [] => .done []
  | context, k :: rounds =>
      (decodeDraw draft k context).bind fun drafts =>
        (verifyDraw drafts (draftDists draft context drafts)
          (targetDists target context drafts)).bind fun produced =>
            (speculateDraw draft target (context ++ produced) rounds).map (produced ++ ·)

/-- The same with `verify`; the drafts are picked on their own. -/
def speculate (draft target : LanguageModel R V) (tape : Tape R) :
    SpecDecodeEngine → Nat → List Int → List Nat →
      Option (SpecDecodeEngine × List (SpecStepResult R))
  | engine, _, _, [] => some (engine, [])
  | engine, picked, context, k :: rounds => do
      let (drafts, here) := (decodeDraw draft k context).run tape ⟨engine.drawn, picked⟩
      let (engine, result) ← verify (drawsOf tape) engine drafts
        (draftDists draft context drafts) (targetDists target context drafts)
      let (engine, results) ← speculate draft target tape engine here.picked
        (context ++ result.produced) rounds
      some (engine, result :: results)

theorem draft_dists_length (model : LanguageModel R V) (context drafts : List Int) :
    (draftDists model context drafts).length = drafts.length := by
  induction drafts generalizing context with
  | nil => rfl
  | cons x drafts ih =>
      unfold draftDists
      rw [List.length_cons, ih, List.length_cons]

theorem target_dists_length (model : LanguageModel R V) (context drafts : List Int) :
    (targetDists model context drafts).length = drafts.length + 1 := by
  unfold targetDists
  rw [List.length_append, draft_dists_length]
  rfl

theorem target_dists_cons (model : LanguageModel R V) (context drafts : List Int) (x : Int) :
    targetDists model context (x :: drafts) =
      model.dist context :: targetDists model (context ++ [x]) drafts := by
  unfold targetDists
  rw [List.append_assoc]
  rfl

theorem run_decode_draw (model : LanguageModel R V) (tape : Tape R) (k : Nat)
    (context : List Int) (here : Position) :
    (∀ x ∈ ((decodeDraw model k context).run tape here).1, 0 ≤ x) ∧
      ((decodeDraw model k context).run tape here).2.drawn = here.drawn := by
  induction k generalizing context here with
  | zero => exact ⟨fun _ member => (nomatch member), rfl⟩
  | succ k ih =>
      unfold decodeDraw Draw.run
      rw [Draw.run_map]
      obtain ⟨tokens, drawn⟩ :=
        ih (context ++ [(tape.pick here.picked (model.dist context).probs : Int)]) here.pick
      exact ⟨List.forall_mem_cons.mpr ⟨Int.natCast_nonneg _, tokens⟩, drawn⟩

/-- The rounds of `verify` give the tokens of the program. -/
theorem speculate_runs (draft target : LanguageModel R V) (tape : Tape R)
    (engine : SpecDecodeEngine) (picked : Nat) (context : List Int) (rounds : List Nat) :
    ∃ final results,
      speculate draft target tape engine picked context rounds = some (final, results) ∧
        results.flatMap SpecStepResult.produced =
          ((speculateDraw draft target context rounds).run tape ⟨engine.drawn, picked⟩).1 := by
  induction rounds generalizing engine picked context with
  | nil => exact ⟨engine, [], rfl, rfl⟩
  | cons k rounds ih =>
      obtain ⟨tokens, drawn⟩ := run_decode_draw draft tape k context ⟨engine.drawn, picked⟩
      unfold speculate speculateDraw
      rw [Draw.run_bind]
      generalize (decodeDraw draft k context).run tape ⟨engine.drawn, picked⟩ = run at tokens drawn
      obtain ⟨drafts, ⟨drawnAfter, pickedAfter⟩⟩ := run
      dsimp only at tokens drawn ⊢
      subst drawn
      have lengths := And.intro (draft_dists_length draft context drafts).symm
        (target_dists_length target context drafts)
      obtain ⟨⟨middle, after⟩, looped⟩ := verify_loop_executes (drawsOf tape) tokens lengths.1
        lengths.2 (engine.countStep drafts.length) .initial
      obtain ⟨produced, reached⟩ := run_verify_draw tape pickedAfter looped
      obtain ⟨final, results, remaining, decoded⟩ := ih middle pickedAfter
        (context ++ (after.rate middle.stats).produced)
      refine ⟨final, after.rate middle.stats :: results, ?_, ?_⟩
      · unfold verify
        rw [if_pos lengths, looped]
        simp only [Option.bind_eq_bind, Option.bind_some, remaining]
      · have same : (after.rate middle.stats).produced =
            ((verifyDraw drafts (draftDists draft context drafts)
              (targetDists target context drafts)).run tape ⟨engine.drawn, pickedAfter⟩).1 :=
          produced
        rw [List.flatMap_cons, decoded, Draw.run_bind, Draw.run_map, same]
        congr 3

end AmpFormal.SpeculativeDraws
