import Mathlib.Data.List.Basic
import Mathlib.Data.List.Forall2
import Mathlib.Data.Fintype.Prod
import Mathlib.Tactic.Common

/-!
# Threads between barriers

A block of threads runs phase after phase; a barrier stands between two phases.
Within a phase every thread has a list of operations, and an order of the phase
is any interleaving of these lists. An operation that goes wrong has no result.
Facts about a phase are stated for every order; phases are then put together in
sequence.
-/

namespace AmpFormal.BarrierPhases

set_option autoImplicit false

variable {Thread Op State : Type*}

section Orders

variable [DecidableEq Thread]

/-- Every thread executes its own operations, in their order. -/
def Interleaves (program : Thread → List Op) (order : List (Thread × Op)) : Prop :=
  ∀ thread, (order.filter fun entry => entry.1 = thread).map Prod.snd = program thread

variable {program : Thread → List Op} {order : List (Thread × Op)}

instance [Fintype Thread] [DecidableEq Op] : Decidable (Interleaves program order) :=
  inferInstanceAs (Decidable (∀ thread, _ = program thread))

theorem Interleaves.mem_iff (interleaves : Interleaves program order) {thread : Thread} {op : Op} :
    (thread, op) ∈ order ↔ op ∈ program thread := by
  rw [← interleaves thread, List.mem_map]
  constructor
  · intro member
    exact ⟨(thread, op), List.mem_filter.mpr ⟨member, decide_eq_true rfl⟩, rfl⟩
  · rintro ⟨⟨other, op⟩, member, rfl⟩
    obtain ⟨kept, same⟩ := List.mem_filter.mp member
    have same : other = thread := of_decide_eq_true same
    rwa [← same]

theorem Interleaves.of_thread (interleaves : Interleaves program order) (thread : Thread) :
    (order.filter fun entry => entry.1 = thread) = (program thread).map (Prod.mk thread) := by
  rw [← interleaves thread, List.map_map]
  conv_lhs => rw [← List.map_id (order.filter fun entry => entry.1 = thread)]
  refine List.map_congr_left fun entry member => ?_
  have same : entry.1 = thread := of_decide_eq_true (List.mem_filter.mp member).2
  exact Prod.ext same rfl

theorem Interleaves.filter_eq (interleaves : Interleaves program order)
    (chosen : Thread → Op → Bool) (thread : Thread)
    (only : ∀ other op, op ∈ program other → chosen other op = true → other = thread) :
    (order.filter fun entry => chosen entry.1 entry.2) =
      ((program thread).filter (chosen thread)).map (Prod.mk thread) := by
  have restrict : (order.filter fun entry => chosen entry.1 entry.2) =
      (order.filter fun entry => entry.1 = thread).filter fun entry => chosen thread entry.2 := by
    rw [List.filter_filter]
    refine List.filter_congr fun entry member => ?_
    by_cases same : entry.1 = thread
    · simp [same]
    · have : chosen entry.1 entry.2 ≠ true :=
        fun holds => same (only _ _ (interleaves.mem_iff.mp member) holds)
      simp [same, this]
  rw [restrict, interleaves.of_thread, List.filter_map]
  rfl

end Orders

def execute (step : Thread → Op → State → Option State) :
    List (Thread × Op) → State → Option State
  | [], s => some s
  | (thread, op) :: rest, s => (step thread op s).bind (execute step rest)

def runPhases (step : Thread → Op → State → Option State) :
    List (List (Thread × Op)) → State → Option State
  | [], s => some s
  | order :: rest, s => (execute step order s).bind (runPhases step rest)

variable {step : Thread → Op → State → Option State}

theorem execute_rule {I : List (Thread × Op) → State → Prop} (done : List (Thread × Op))
    {order : List (Thread × Op)} {s : State} (start : I done s)
    (keeps : ∀ before thread op after s, done ++ order = before ++ (thread, op) :: after →
      I before s → ∃ s', step thread op s = some s' ∧ I (before ++ [(thread, op)]) s') :
    ∃ final, execute step order s = some final ∧ I (done ++ order) final := by
  induction order generalizing done s with
  | nil =>
      rw [List.append_nil]
      exact ⟨s, rfl, start⟩
  | cons entry rest ih =>
      obtain ⟨thread, op⟩ := entry
      obtain ⟨s', stepped, next⟩ := keeps done thread op rest s rfl start
      have same : done ++ (thread, op) :: rest = done ++ [(thread, op)] ++ rest := by simp
      rw [same] at keeps ⊢
      obtain ⟨final, executed, holds⟩ := ih _ next keeps
      refine ⟨final, ?_, holds⟩
      unfold execute
      rw [stepped]
      exact executed

/-- An invariant of the operations executed so far holds of the whole order. -/
theorem execute_invariant (step : Thread → Op → State → Option State)
    {I : List (Thread × Op) → State → Prop} {order : List (Thread × Op)} {s : State}
    (start : I [] s)
    (keeps : ∀ before thread op after s, order = before ++ (thread, op) :: after →
      I before s → ∃ s', step thread op s = some s' ∧ I (before ++ [(thread, op)]) s') :
    ∃ final, execute step order s = some final ∧ I order final :=
  execute_rule [] start keeps

/-! ## Phases in sequence -/

section Triples

variable [DecidableEq Thread]

/-- Every order of the phase takes a state with `P` to a state with `Q`. -/
def PhaseTriple (step : Thread → Op → State → Option State) (P : State → Prop)
    (program : Thread → List Op) (Q : State → Prop) : Prop :=
  ∀ order, Interleaves program order → ∀ s, P s → ∃ s', execute step order s = some s' ∧ Q s'

/-- The same for a sequence of phases, whatever the order of each. -/
def RunTriple (step : Thread → Op → State → Option State) (P : State → Prop)
    (phases : List (Thread → List Op)) (Q : State → Prop) : Prop :=
  ∀ orders, List.Forall₂ Interleaves phases orders →
    ∀ s, P s → ∃ s', runPhases step orders s = some s' ∧ Q s'

variable {P Q M : State → Prop} {program : Thread → List Op} {rest : List (Thread → List Op)}

theorem run_triple_nil (implied : ∀ s, P s → Q s) : RunTriple step P [] Q := by
  intro orders each s before
  cases each
  exact ⟨s, rfl, implied s before⟩

theorem run_triple_cons (phase : PhaseTriple step P program M) (later : RunTriple step M rest Q) :
    RunTriple step P (program :: rest) Q := by
  intro orders each s before
  cases each with
  | cons interleaves each =>
      obtain ⟨middle, executed, between⟩ := phase _ interleaves s before
      obtain ⟨final, ran, after⟩ := later _ each middle between
      refine ⟨final, ?_, after⟩
      unfold runPhases
      rw [executed]
      exact ran

end Triples

/-! ## Strided loops -/

theorem ceil_div_bound {i n size : Nat} (positive : 0 < size) (below : i < n) :
    i / size < (n + size - 1) / size := by
  refine (Nat.div_lt_iff_lt_mul positive).mpr ?_
  have whole := Nat.div_add_mod' (n + size - 1) size
  have small := Nat.mod_lt (n + size - 1) positive
  omega

/-- `for (i = start; i < bound; i += stride)` -/
def strided (start bound stride : Nat) : List Nat :=
  List.range' start ((bound - start + stride - 1) / stride) stride

theorem mem_strided {start bound stride i : Nat} (positive : 0 < stride) :
    i ∈ strided start bound stride ↔ i < bound ∧ ∃ n, i = start + stride * n := by
  unfold strided
  rw [List.mem_range']
  constructor
  · rintro ⟨n, small, rfl⟩
    have room := (Nat.le_div_iff_mul_le positive).mp small
    rw [Nat.succ_mul, Nat.mul_comm] at room
    exact ⟨by omega, n, rfl⟩
  · rintro ⟨below, n, rfl⟩
    refine ⟨n, (Nat.le_div_iff_mul_le positive).mpr ?_, rfl⟩
    rw [Nat.succ_mul, Nat.mul_comm]
    omega

theorem strided_covers {bound stride i : Nat} (positive : 0 < stride) (below : i < bound) :
    i ∈ strided (i % stride) bound stride :=
  (mem_strided positive).mpr ⟨below, i / stride, (Nat.mod_add_div i stride).symm⟩

end AmpFormal.BarrierPhases
