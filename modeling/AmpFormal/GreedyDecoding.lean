import AmpFormal.SpeculativeModel
import Mathlib.Algebra.Field.Rat

/-!
# Greedy speculation is greedy decoding

A target model gives a logit vector for every context. Rounds of `verify_greedy`
on arbitrary drafts are compared with decoding one token at a time. The logits
behind a rejected draft are computed from a context that never comes about; the
induction over the drafts stops there and never reads them.
-/

namespace AmpFormal.GreedyDecoding

open AmpFormal.FirstMaximum AmpFormal.SpeculativeModel

set_option autoImplicit false

variable {R : Type*}

structure TargetModel (R : Type*) where
  logits : List Int → List R
  nonempty : ∀ context, logits context ≠ []

/-- The next `n` tokens, each the first maximum of the logits. -/
def plainDecode [LinearOrder R] (model : TargetModel R) : List Int → Nat → List Int
  | _, 0 => []
  | context, n + 1 =>
      let token : Int := argmax (model.logits context)
      token :: plainDecode model (context ++ [token]) n

/-- The distribution after the context; `softmax` is what `probs()` computes. -/
def distAfter (model : TargetModel R) (softmax : List R → List R) (context : List Int) :
    TokenDist R :=
  { logits := model.logits context, probs := softmax (model.logits context) }

/-- `target_dists[i]` follows the context and the first `i` drafts. -/
def targetDists (model : TargetModel R) (softmax : List R → List R) (context drafts : List Int) :
    List (TokenDist R) :=
  (List.range (drafts.length + 1)).map fun i => distAfter model softmax (context ++ drafts.take i)

/-- One round for each list of drafts, every round appending what it produced to
the context. -/
def speculate [LinearOrder R] [Zero R] (model : TargetModel R) (softmax : List R → List R) :
    SpecDecodeEngine → List Int → List (List Int) →
      Option (SpecDecodeEngine × List (SpecStepResult R))
  | engine, _, [] => some (engine, [])
  | engine, context, drafts :: rest => do
      let (engine, result) ← verifyGreedy engine drafts (targetDists model softmax context drafts)
      let (engine, results) ← speculate model softmax engine (context ++ result.produced) rest
      some (engine, result :: results)

theorem target_dists_nil (model : TargetModel R) (softmax : List R → List R)
    (context : List Int) :
    targetDists model softmax context [] = [distAfter model softmax context] := by
  simp [targetDists]

theorem target_dists_cons (model : TargetModel R) (softmax : List R → List R)
    (context drafts : List Int) (x : Int) :
    targetDists model softmax context (x :: drafts) =
      distAfter model softmax context ::
        targetDists model softmax (context ++ [x]) drafts := by
  unfold targetDists
  rw [List.length_cons, List.range_succ_eq_map, List.map_cons, List.map_map]
  congr 1
  · simp
  · apply List.map_congr_left
    intro i _
    simp

variable [LinearOrder R]

theorem plain_decode_length (model : TargetModel R) (context : List Int) (n : Nat) :
    (plainDecode model context n).length = n := by
  induction n generalizing context with
  | zero => rfl
  | succ n ih =>
      unfold plainDecode
      rw [List.length_cons, ih]

theorem plain_decode_add (model : TargetModel R) (context : List Int) (m n : Nat) :
    plainDecode model context (m + n) = plainDecode model context m ++
      plainDecode model (context ++ plainDecode model context m) n := by
  induction m generalizing context with
  | zero =>
      rw [Nat.zero_add]
      simp [plainDecode]
  | succ m ih =>
      rw [Nat.add_right_comm]
      unfold plainDecode
      dsimp only
      rw [ih, List.cons_append, List.append_assoc, List.singleton_append]
      cases n <;> rfl

theorem max_element_token (model : TargetModel R) (softmax : List R → List R)
    (context : List Int) :
    maxElement (distAfter model softmax context).logits = argmax (model.logits context) :=
  max_element_eq_argmax (model.nonempty context)

structure RoundEffect (model : TargetModel R) (context : List Int)
    (before after : SpecStepResult R) (added : List Int) : Prop where
  accepted : after.acceptedTokens = before.acceptedTokens ++ added
  counted : after.nAccepted = before.nAccepted + added.length
  decoded : added ++ [after.bonusToken] = plainDecode model context (added.length + 1)

/-- The last token of a round is the target's own. -/
theorem round_effect_stops (model : TargetModel R) (context : List Int)
    (result : SpecStepResult R) :
    RoundEffect model context result (result.bonus (argmax (model.logits context))) [] :=
  ⟨(List.append_nil _).symm, rfl, rfl⟩

theorem verify_greedy_loop_effect (model : TargetModel R) (softmax : List R → List R)
    (drafts context : List Int) (engine : SpecDecodeEngine) (result : SpecStepResult R) :
    ∃ final after added,
      verifyGreedyLoop drafts (targetDists model softmax context drafts) engine result =
        some (final, after) ∧ RoundEffect model context result after added := by
  induction drafts generalizing context engine result with
  | nil =>
      rw [target_dists_nil]
      unfold verifyGreedyLoop
      rw [max_element_token]
      exact ⟨_, _, [], rfl, round_effect_stops model context result⟩
  | cons x drafts ih =>
      rw [target_dists_cons]
      unfold verifyGreedyLoop
      rw [max_element_token]
      dsimp only
      split
      case isTrue agrees =>
        obtain ⟨final, after, added, executed, effect⟩ :=
          ih (context ++ [x]) engine.countAccepted (result.accept x)
        refine ⟨final, after, x :: added, executed, ?_, ?_, ?_⟩
        · rw [effect.accepted]
          simp [SpecStepResult.accept]
        · rw [effect.counted, List.length_cons]
          simp only [SpecStepResult.accept]
          omega
        · rw [List.cons_append, effect.decoded, List.length_cons]
          conv_rhs => unfold plainDecode
          rw [← agrees]
      case isFalse => exact ⟨_, _, [], rfl, round_effect_stops model context result⟩

theorem verify_greedy_effect [Zero R] (model : TargetModel R) (softmax : List R → List R)
    (context drafts : List Int) (engine : SpecDecodeEngine) :
    ∃ final result, verifyGreedy engine drafts (targetDists model softmax context drafts) =
        some (final, result) ∧
      result.produced = plainDecode model context (result.nAccepted + 1) := by
  obtain ⟨final, result, added, executed, effect⟩ := verify_greedy_loop_effect model softmax drafts
    context (engine.countStep drafts.length) .initial
  refine ⟨final, result, executed, ?_⟩
  have accepted : result.acceptedTokens = added := effect.accepted
  have counted : result.nAccepted = added.length := effect.counted.trans (Nat.zero_add _)
  unfold SpecStepResult.produced
  rw [accepted, counted]
  exact effect.decoded

/-- The tokens of any number of rounds, on any drafts, are those of plain
decoding, `n_accepted + 1` of them in each round. -/
theorem greedy_speculation_is_plain_decoding [Zero R] (model : TargetModel R)
    (softmax : List R → List R) (engine : SpecDecodeEngine) (start : List Int)
    (drafts : List (List Int)) :
    ∃ final results, speculate model softmax engine start drafts = some (final, results) ∧
      results.length = drafts.length ∧
      (∀ result ∈ results, result.produced.length = result.nAccepted + 1) ∧
      results.flatMap SpecStepResult.produced = plainDecode model start
        (results.map fun result => result.nAccepted + 1).sum := by
  induction drafts generalizing engine start with
  | nil => exact ⟨engine, [], rfl, rfl, fun _ member => (nomatch member), rfl⟩
  | cons first rest ih =>
      obtain ⟨middle, result, executed, produced⟩ :=
        verify_greedy_effect model softmax start first engine
      obtain ⟨final, results, remaining, length, counts, decoded⟩ :=
        ih middle (start ++ result.produced)
      refine ⟨final, result :: results, ?_, ?_, ?_, ?_⟩
      · unfold speculate
        simp [executed, remaining]
      · rw [List.length_cons, length, List.length_cons]
      · intro one member
        rcases List.mem_cons.mp member with rfl | later
        · rw [produced, plain_decode_length]
        · exact counts one later
      · rw [List.flatMap_cons, decoded, List.map_cons, List.sum_cons, plain_decode_add, produced]

/-- A second draft that the target would not have chosen is replaced. -/
example : ((speculate (R := ℚ) ⟨fun context => if context.length = 1 then [0, 3, 3] else [2, 1, 0],
    fun context => by split <;> simp⟩ id {} [7] [[1, 2]]).map fun run =>
      run.2.map SpecStepResult.produced) = some [[1, 0]] := by
  decide +kernel

end AmpFormal.GreedyDecoding
