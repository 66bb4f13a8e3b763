import Mathlib.Logic.Basic
import Mathlib.Data.Option.Basic

/-!
# Runs of a partial transition function

A component is a partial function from a state and a call to the next state. A
run is a finite sequence of calls from a fixed start. The predicate `allowed`
restricts which calls a run may take from which state, so that one induction
rule serves every discipline a caller can be held to.
-/

namespace AmpFormal.TransitionRuns

set_option autoImplicit false

variable {State Call : Type*}

/-- The states reached from `start` by runs all of whose calls are `allowed`
in the state they are made in. -/
inductive Reaches (step : State → Call → Option State)
    (allowed : State → Call → Prop) (start : State) : State → Prop where
  | start : Reaches step allowed start start
  | call {before after : State} (prior : Reaches step allowed start before)
      (call : Call) (meets : allowed before call)
      (moved : step before call = some after) :
      Reaches step allowed start after

variable {step : State → Call → Option State} {allowed : State → Call → Prop}
  {start : State}

/-- The invariant rule. What a call preserves may be shown with the knowledge
that the state before it is itself reached. -/
theorem reaches_invariant {motive : State → Prop} (initial : motive start)
    (preserved : ∀ before call after, Reaches step allowed start before →
      motive before → allowed before call → step before call = some after → motive after)
    {state : State} (reached : Reaches step allowed start state) : motive state := by
  induction reached with
  | start => exact initial
  | call prior call meets moved ih => exact preserved _ call _ prior ih meets moved

theorem reaches_trans {between final : State} (first : Reaches step allowed start between)
    (second : Reaches step allowed between final) : Reaches step allowed start final := by
  induction second with
  | start => exact first
  | call prior call meets moved ih => exact .call ih call meets moved

theorem reaches_weaken {looser : State → Call → Prop}
    (implied : ∀ state call, allowed state call → looser state call)
    {state : State} (reached : Reaches step allowed start state) :
    Reaches step looser start state := by
  induction reached with
  | start => exact .start
  | call prior call meets moved ih => exact .call ih call (implied _ call meets) moved

/-- Forward simulation: a component is followed by another one that answers each of
its calls with one call or with none. -/
theorem reaches_simulated {Other OtherCall : Type*} {otherStep : Other → OtherCall → Option Other}
    {otherAllowed : Other → OtherCall → Prop} {otherStart : Other} (related : State → Other → Prop)
    (initial : related start otherStart)
    (followed : ∀ before call after other, Reaches step allowed start before →
      related before other → allowed before call → step before call = some after →
      related after other ∨ ∃ answer next, otherAllowed other answer ∧
        otherStep other answer = some next ∧ related after next)
    {state : State} (reached : Reaches step allowed start state) :
    ∃ other, Reaches otherStep otherAllowed otherStart other ∧ related state other := by
  induction reached with
  | start => exact ⟨otherStart, .start, initial⟩
  | call prior call meets moved ih =>
      obtain ⟨other, reached, agrees⟩ := ih
      rcases followed _ call _ other prior agrees meets moved with stutters | answered
      · exact ⟨other, reached, stutters⟩
      · obtain ⟨answer, next, answerMeets, answerMoved, kept⟩ := answered
        exact ⟨next, .call reached answer answerMeets answerMoved, kept⟩

/-- Executes a sequence of calls, stopping at the first one that is not
allowed or has no successor. -/
def runCalls (step : State → Call → Option State) (allowed : State → Call → Prop)
    [∀ state call, Decidable (allowed state call)] : State → List Call → Option State
  | state, [] => some state
  | state, call :: rest =>
      if allowed state call then
        match step state call with
        | some after => runCalls step allowed after rest
        | none => none
      else none

theorem reaches_of_run_from [∀ state call, Decidable (allowed state call)]
    {before final : State} (prior : Reaches step allowed start before) (calls : List Call)
    (executed : runCalls step allowed before calls = some final) :
    Reaches step allowed start final := by
  induction calls generalizing before with
  | nil =>
      cases executed
      exact prior
  | cons call rest ih =>
      by_cases meets : allowed before call
      · cases moved : step before call with
        | none => simp [runCalls, meets, moved] at executed
        | some after =>
            simp only [runCalls, meets, moved, if_true] at executed
            exact ih (.call prior call meets moved) executed
      · simp [runCalls, meets] at executed

theorem reaches_of_run [∀ state call, Decidable (allowed state call)] {final : State}
    (calls : List Call) (executed : runCalls step allowed start calls = some final) :
    Reaches step allowed start final :=
  reaches_of_run_from .start calls executed

theorem reaches_of_run_get [∀ state call, Decidable (allowed state call)] (calls : List Call)
    (executed : (runCalls step allowed start calls).isSome) :
    Reaches step allowed start ((runCalls step allowed start calls).get executed) :=
  reaches_of_run calls (Option.some_get executed).symm

end AmpFormal.TransitionRuns
