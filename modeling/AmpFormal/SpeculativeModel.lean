import AmpFormal.FirstMaximum
import Mathlib.Algebra.Order.Field.Basic
import Mathlib.Algebra.BigOperators.Group.List.Basic

/-!
# The speculative decoding engine

A transcription of `SpecDecodeEngine`. A `float` is an element of an ordered
field, so rounding is not modelled. `probs()` is a softmax of the logits at the
temperature of the configuration; the vector it returns is a field of
`TokenDist`, and the configuration, of which nothing else is read, is left out.
The n-th value drawn from `rng_` is `real n` or `index n V`, as the distribution
object asks. A read outside a vector has no result.
-/

namespace AmpFormal.SpeculativeModel

open AmpFormal.FirstMaximum

set_option autoImplicit false

structure TokenDist (R : Type*) where
  logits : List R
  probs : List R

structure SpecStats where
  steps : Nat := 0
  draftTokens : Nat := 0
  acceptedTokens : Nat := 0
  rejectedTokens : Nat := 0
  deriving DecidableEq, Repr

/-- The engine: its counters and the number of values drawn from `rng_`. -/
structure SpecDecodeEngine where
  stats : SpecStats := {}
  drawn : Nat := 0
  deriving DecidableEq, Repr

structure SpecStepResult (R : Type*) where
  acceptedTokens : List Int
  bonusToken : Int
  nAccepted : Nat
  acceptanceRate : R
  deriving DecidableEq, Repr

/-- The values of `uniform_real_distribution(0, 1)` and of
`uniform_int_distribution(0, V - 1)`, draw by draw. -/
structure Draws (R : Type*) where
  real : Nat → R
  index : Nat → Nat → Nat

variable {R : Type*}

def SpecStepResult.initial [Zero R] : SpecStepResult R :=
  { acceptedTokens := [], bonusToken := -1, nAccepted := 0, acceptanceRate := 0 }

/-- All tokens of a step, the bonus last. -/
def SpecStepResult.produced (result : SpecStepResult R) : List Int :=
  result.acceptedTokens ++ [result.bonusToken]

namespace SpecDecodeEngine

/-- `stats_.steps.fetch_add(1)` and `stats_.draft_tokens.fetch_add(k)`. -/
def countStep (engine : SpecDecodeEngine) (k : Nat) : SpecDecodeEngine :=
  { engine with stats :=
      { engine.stats with
        steps := engine.stats.steps + 1
        draftTokens := engine.stats.draftTokens + k } }

def countAccepted (engine : SpecDecodeEngine) : SpecDecodeEngine :=
  { engine with stats :=
      { engine.stats with acceptedTokens := engine.stats.acceptedTokens + 1 } }

def countRejected (engine : SpecDecodeEngine) (n : Nat) : SpecDecodeEngine :=
  { engine with stats :=
      { engine.stats with rejectedTokens := engine.stats.rejectedTokens + n } }

def draw (engine : SpecDecodeEngine) : SpecDecodeEngine :=
  { engine with drawn := engine.drawn + 1 }

end SpecDecodeEngine

def SpecStepResult.accept (result : SpecStepResult R) (x : Int) : SpecStepResult R :=
  { result with
    acceptedTokens := result.acceptedTokens ++ [x]
    nAccepted := result.nAccepted + 1 }

def SpecStepResult.bonus (result : SpecStepResult R) (token : Int) : SpecStepResult R :=
  { result with bonusToken := token }

/-! ## Greedy verification -/

section Greedy

variable [LinearOrder R]

def verifyGreedyLoop : List Int → List (TokenDist R) → SpecDecodeEngine → SpecStepResult R →
    Option (SpecDecodeEngine × SpecStepResult R)
  | x :: drafts, target :: targetDists, engine, result =>
      let targetTok : Int := maxElement target.logits
      if x = targetTok then
        verifyGreedyLoop drafts targetDists engine.countAccepted (result.accept x)
      else some (engine.countRejected (drafts.length + 1), result.bonus targetTok)
  | [], target :: _, engine, result => some (engine, result.bonus (maxElement target.logits))
  | _, [], _, _ => none

def verifyGreedy [Zero R] (engine : SpecDecodeEngine) (draftTokens : List Int)
    (targetDists : List (TokenDist R)) : Option (SpecDecodeEngine × SpecStepResult R) :=
  verifyGreedyLoop draftTokens targetDists (engine.countStep draftTokens.length) .initial

end Greedy

/-! ## Sampling -/

variable [Field R] [LinearOrder R]

/-- The guard `1e-9f`. -/
def guardTerm : R := 1 / 1000000000

/-- The loop of `sample_from` from index `i` on, `cum` being the sum so far. -/
def cdfScan (r : R) (last : Int) : R → Nat → List R → Int
  | _, _, [] => last
  | cum, i, p :: rest => if r ≤ cum + p then i else cdfScan r last (cum + p) (i + 1) rest

def sampleFrom (draws : Draws R) (engine : SpecDecodeEngine) (probs : List R) :
    SpecDecodeEngine × Int :=
  (engine.draw, cdfScan (draws.real engine.drawn) ((probs.length : Int) - 1) 0 0 probs)

/-- `max(0, p_t(x) - p_d(x))`, a missing draft probability counting as 0. -/
def adjusted (pTarget pDraft : List R) : List R :=
  pTarget.mapIdx fun i p => max 0 (p - pDraft.getD i 0)

def sampleFromAdjusted (draws : Draws R) (engine : SpecDecodeEngine) (pTarget pDraft : List R) :
    SpecDecodeEngine × Int :=
  let adj := adjusted pTarget pDraft
  if adj.sum < guardTerm then
    -- Degenerate: sample uniformly
    (engine.draw, draws.index engine.drawn pTarget.length)
  else sampleFrom draws engine (adj.map (· / adj.sum))

/-! ## Rejection sampling verification -/

/-- `(x < (int)p.size()) ? p[x] : missing`; a negative `x` reads outside. -/
def probAt (p : List R) (x : Int) (missing : R) : Option R :=
  if x < p.length then if 0 ≤ x then p[x.toNat]? else none else some missing

def acceptProb (pt pd : R) : R := min 1 (pt / (pd + guardTerm))

/-- The loop of `verify` over the remaining drafts, up to the label `done`. -/
def verifyLoop (draws : Draws R) : List Int → List (TokenDist R) → List (TokenDist R) →
    SpecDecodeEngine → SpecStepResult R → Option (SpecDecodeEngine × SpecStepResult R)
  | x :: drafts, draft :: draftDists, target :: targetDists, engine, result => do
      let pt ← probAt target.probs x 0
      let pd ← probAt draft.probs x guardTerm
      let u := draws.real engine.drawn
      if u ≤ acceptProb pt pd then
        verifyLoop draws drafts draftDists targetDists engine.draw.countAccepted (result.accept x)
      else
        -- all remaining are also rejected
        let engine := engine.draw.countRejected (drafts.length + 1)
        let (engine, token) := sampleFromAdjusted draws engine target.probs draft.probs
        some (engine, result.bonus token)
  | [], _, target :: _, engine, result =>
      let (engine, token) := sampleFrom draws engine target.probs
      some (engine, result.bonus token)
  | _, _, _, _, _ => none

def SpecStepResult.rate (result : SpecStepResult R) (stats : SpecStats) : SpecStepResult R :=
  { result with
    acceptanceRate :=
      if 0 < stats.draftTokens then (stats.acceptedTokens : R) / stats.draftTokens else 0 }

/-- `verify`; a failed assertion has no result. -/
def verify (draws : Draws R) (engine : SpecDecodeEngine) (draftTokens : List Int)
    (draftDists targetDists : List (TokenDist R)) :
    Option (SpecDecodeEngine × SpecStepResult R) :=
  if draftTokens.length = draftDists.length ∧ targetDists.length = draftTokens.length + 1 then do
    let (engine, result) ← verifyLoop draws draftTokens draftDists targetDists
      (engine.countStep draftTokens.length) .initial
    some (engine, result.rate engine.stats)
  else none

end AmpFormal.SpeculativeModel
