import AmpFormal.BarrierPhases
import AmpFormal.MatrixLayouts

/-!
# Rules for phases

Two kinds of phases recur in kernels. In a fill phase every operation stores, in the
cell it is meant for, the value that the cell stands for; whatever the order, the
cells are right afterwards, also those that several threads write. In a private
phase a thread changes registers of its own, and what it reads can be predicted;
its registers then end as if it had run its program alone. The orders of a phase
may be restricted further than by the programs of the threads.
-/

namespace AmpFormal.PhaseRules

open AmpFormal.BarrierPhases

set_option autoImplicit false

variable {Thread Op State : Type*} [DecidableEq Thread]

/-! ## Restricted orders -/

section Restricted

variable {allowed : List (Thread × Op) → Prop} {step : Thread → Op → State → Option State}
variable {P Q M : State → Prop} {program : Thread → List Op} {rest : List (Thread → List Op)}

def PhaseUnder (allowed : List (Thread × Op) → Prop) (step : Thread → Op → State → Option State)
    (P : State → Prop) (program : Thread → List Op) (Q : State → Prop) : Prop :=
  ∀ order, Interleaves program order → allowed order →
    ∀ s, P s → ∃ s', execute step order s = some s' ∧ Q s'

def RunUnder (allowed : List (Thread × Op) → Prop) (step : Thread → Op → State → Option State)
    (P : State → Prop) (phases : List (Thread → List Op)) (Q : State → Prop) : Prop :=
  ∀ orders, List.Forall₂ Interleaves phases orders → (∀ order ∈ orders, allowed order) →
    ∀ s, P s → ∃ s', runPhases step orders s = some s' ∧ Q s'

theorem phase_under (triple : PhaseTriple step P program Q) :
    PhaseUnder allowed step P program Q :=
  fun order interleaves _ s before => triple order interleaves s before

theorem run_under_nil (implied : ∀ s, P s → Q s) : RunUnder allowed step P [] Q := by
  intro orders each _ s before
  cases each
  exact ⟨s, rfl, implied s before⟩

theorem run_under_cons (phase : PhaseUnder allowed step P program M)
    (later : RunUnder allowed step M rest Q) : RunUnder allowed step P (program :: rest) Q := by
  intro orders each each_allowed s before
  cases each with
  | cons interleaves each =>
      obtain ⟨middle, executed, between⟩ :=
        phase _ interleaves (each_allowed _ List.mem_cons_self) s before
      obtain ⟨final, ran, after⟩ := later _ each
        (fun order member => each_allowed order (List.mem_cons_of_mem _ member)) middle between
      refine ⟨final, ?_, after⟩
      unfold runPhases
      rw [executed]
      exact ran

end Restricted

/-! ## Orders -/

section Schedules

def oneByOne (threads : List Thread) (program : Thread → List Op) : List (Thread × Op) :=
  threads.flatMap fun thread => (program thread).map (Prod.mk thread)

def lockstep (threads : List Thread) (program : List Op) : List (Thread × Op) :=
  program.flatMap fun op => threads.map fun thread => (thread, op)

theorem one_by_one_filter {threads : List Thread} (distinct : threads.Nodup)
    (program : Thread → List Op) (thread : Thread) :
    ((oneByOne threads program).filter fun entry => entry.1 = thread).map Prod.snd =
      if thread ∈ threads then program thread else [] := by
  induction threads with
  | nil => rfl
  | cons first rest ih =>
      obtain ⟨fresh, distinct⟩ := List.nodup_cons.mp distinct
      have later := ih distinct
      unfold oneByOne at later ⊢
      rw [List.flatMap_cons, List.filter_append, List.map_append, later]
      by_cases same : first = thread
      · subst same
        rw [if_neg fresh, if_pos List.mem_cons_self, List.append_nil,
          List.filter_eq_self.mpr (by simp), List.map_map]
        exact List.map_id _
      · rw [List.filter_eq_nil_iff.mpr (by simp [same])]
        simp [Ne.symm same]

theorem one_by_one_interleaves {threads : List Thread} (distinct : threads.Nodup)
    {program : Thread → List Op} (all : ∀ thread ∉ threads, program thread = []) :
    Interleaves program (oneByOne threads program) := by
  intro thread
  rw [one_by_one_filter distinct]
  split
  case isTrue => rfl
  case isFalse missing => exact (all thread missing).symm

omit [DecidableEq Thread] in
/-- When an operation is executed in step, all threads have executed those before it. -/
theorem lockstep_before {threads : List Thread} {program : List Op}
    {before after : List (Thread × Op)} {thread : Thread} {op : Op}
    (split : lockstep threads program = before ++ (thread, op) :: after) :
    ∃ first rest, program = first ++ op :: rest ∧
      ∀ other ∈ threads, ∀ earlier ∈ first, (other, earlier) ∈ before := by
  induction program generalizing before with
  | nil =>
      have impossible := congrArg List.length split
      simp [lockstep] at impossible
  | cons head program ih =>
      have whole : lockstep threads (head :: program) =
          threads.map (fun other => (other, head)) ++ lockstep threads program := List.flatMap_cons
      rw [whole] at split
      rcases List.append_eq_append_iff.mp split with ⟨more, ends, rest⟩ | ⟨more, ends, rest⟩
      · obtain ⟨first, behind, same, earlier⟩ := ih rest
        refine ⟨head :: first, behind, by rw [same]; rfl, fun other member op listed => ?_⟩
        rw [ends]
        rcases List.mem_cons.mp listed with rfl | listed
        · exact List.mem_append_left _ (List.mem_map_of_mem member)
        · exact List.mem_append_right _ (earlier other member op listed)
      · cases more with
        | nil =>
            have remaining : lockstep threads program = [] ++ (thread, op) :: after := rest.symm
            obtain ⟨first, behind, same, earlier⟩ := ih remaining
            refine ⟨head :: first, behind, by rw [same]; rfl, fun other member op listed => ?_⟩
            rw [List.append_nil] at ends
            rcases List.mem_cons.mp listed with rfl | listed
            · rw [← ends]
              exact List.mem_map_of_mem member
            · exact nomatch earlier other member op listed
        | cons entry more =>
            rw [List.cons_append, List.cons.injEq] at rest
            have listed : entry ∈ threads.map fun other => (other, head) := by
              rw [ends]
              simp
            rw [← rest.1] at listed
            obtain ⟨other, -, same⟩ := List.mem_map.mp listed
            obtain rfl : head = op := (Prod.mk.inj same).2
            exact ⟨[], program, rfl, fun _ _ _ impossible => nomatch impossible⟩

theorem one_by_one_orders {threads : List Thread} (distinct : threads.Nodup)
    (all : ∀ thread, thread ∈ threads) (phases : List (Thread → List Op)) :
    List.Forall₂ Interleaves phases (phases.map (oneByOne threads)) := by
  induction phases with
  | nil => exact .nil
  | cons program rest ih =>
      exact .cons (one_by_one_interleaves distinct fun thread missing => absurd (all thread) missing)
        ih

theorem lockstep_interleaves {threads : List Thread} (distinct : threads.Nodup)
    (all : ∀ thread, thread ∈ threads) (program : List Op) :
    Interleaves (fun _ => program) (lockstep threads program) := by
  intro thread
  induction program with
  | nil => rfl
  | cons op rest ih =>
      have own : (threads.map fun other => (other, op)).filter (fun entry => entry.1 = thread) =
          [(thread, op)] := by
        have single : threads.filter (fun other => other = thread) = [thread] := by
          rw [List.filter_eq, List.count_eq_one_of_mem distinct (all thread), List.replicate_one]
        rw [List.filter_map]
        exact congrArg (List.map _) single
      unfold lockstep at ih ⊢
      rw [List.flatMap_cons, List.filter_append, own, List.map_append, ih]
      rfl

theorem solo_order {program : Thread → List Op} {order : List (Thread × Op)} {thread : Thread}
    (interleaves : Interleaves program order) (solo : ∀ other ≠ thread, program other = []) :
    order = (program thread).map (Prod.mk thread) := by
  rw [← interleaves.of_thread thread, List.filter_eq_self.mpr]
  rintro ⟨other, op⟩ member
  by_contra different
  have idle := solo other (by simpa using different)
  exact nomatch idle ▸ interleaves.mem_iff.mp member

end Schedules

/-! ## Fill phases -/

section Fill

variable {step : Thread → Op → State → Option State} {Key Value : Type*} [DecidableEq Key]

/-- An operation stores the value of the cell it is meant for and keeps `Keep`. -/
def Fills (step : Thread → Op → State → Option State) (view : State → Key → Option Value)
    (value : Key → Value) (Keep : State → Prop) (thread : Thread) (op : Op) (key : Key) : Prop :=
  ∀ s, Keep s → ∃ s', step thread op s = some s' ∧ Keep s' ∧
    view s' = Function.update (view s) key (some (value key))

theorem fill_triple (program : Thread → List Op) (view : State → Key → Option Value)
    (value : Key → Value) (Keep : State → Prop) (target : Thread → Op → Key)
    (fills : ∀ thread, ∀ op ∈ program thread,
      Fills step view value Keep thread op (target thread op)) :
    PhaseTriple step Keep program fun s => Keep s ∧
      ∀ thread, ∀ op ∈ program thread, view s (target thread op) =
        some (value (target thread op)) := by
  intro order interleaves start kept
  obtain ⟨final, executed, keeps, filled⟩ := execute_invariant step
    (I := fun done s => Keep s ∧ ∀ entry ∈ done, view s (target entry.1 entry.2) =
      some (value (target entry.1 entry.2)))
    ⟨kept, fun entry member => nomatch member⟩
    (fun before thread op after s (split : order = _) so_far => by
      have member : op ∈ program thread := interleaves.mem_iff.mp (split ▸ by simp)
      obtain ⟨s', stepped, keeps, stored⟩ := fills thread op member s so_far.1
      refine ⟨s', stepped, keeps, fun entry listed => ?_⟩
      rw [stored]
      by_cases same : target entry.1 entry.2 = target thread op
      · rw [same, Function.update_self]
      · rw [Function.update_of_ne same]
        rcases List.mem_append.mp listed with old | new
        · exact so_far.2 entry old
        · rw [List.mem_singleton.mp new] at same
          exact absurd rfl same)
  exact ⟨final, executed, keeps, fun thread op member =>
    filled (thread, op) (interleaves.mem_iff.mpr member)⟩

end Fill

/-! ## Private phases -/

structure Machine (Thread Shared Regs : Type*) where
  shared : Shared
  regs : Thread → Regs

section Private

variable {Shared Regs : Type*}

/-- A thread reads and writes shared memory and its own registers. -/
def machineStep (own : Thread → Op → Shared → Regs → Option (Shared × Regs)) (thread : Thread)
    (op : Op) (machine : Machine Thread Shared Regs) : Option (Machine Thread Shared Regs) :=
  (own thread op machine.shared (machine.regs thread)).map fun after =>
    ⟨after.1, Function.update machine.regs thread after.2⟩

/-- A program that runs alone on predicted reads. At each operation `ok` holds of the
operations before it and of the registers, and in the end `Q` does. -/
def Passes (ok : List Op → Regs → Op → Prop) (predict : Op → Regs → Regs)
    (Q : List Op → Regs → Prop) : List Op → List Op → Regs → Prop
  | done, [], regs => Q done regs
  | done, op :: rest, regs => ok done regs op ∧ Passes ok predict Q (done ++ [op]) rest
      (predict op regs)

variable {ok : List Op → Regs → Op → Prop} {predict : Op → Regs → Regs}
variable {Q M : List Op → Regs → Prop} {done : List Op} {regs : Regs}

theorem passes_append {first second : List Op}
    (start : Passes ok predict M done first regs)
    (later : ∀ done regs, M done regs → Passes ok predict Q done second regs) :
    Passes ok predict Q done (first ++ second) regs := by
  induction first generalizing done regs with
  | nil => exact later done regs start
  | cons op rest ih => exact ⟨start.1, ih start.2⟩

theorem passes_split {program before after : List Op} {op : Op}
    (passes : Passes ok predict Q done program regs) (split : program = before ++ op :: after) :
    ∃ regs', ok (done ++ before) regs' op := by
  induction before generalizing done program regs with
  | nil =>
      subst split
      rw [List.append_nil]
      exact ⟨regs, passes.1⟩
  | cons first before ih =>
      subst split
      have later := ih passes.2 rfl
      rwa [List.append_assoc] at later

theorem passes_loop {body : Nat → List Op} {I : Nat → List Op → Regs → Prop} (n : Nat)
    (start : I 0 done regs)
    (round : ∀ j < n, ∀ done regs, I j done regs →
      Passes ok predict (I (j + 1)) done (body j) regs) :
    Passes ok predict (I n) done ((List.range n).flatMap body) regs := by
  induction n with
  | zero => exact start
  | succ n ih =>
      rw [List.range_succ, List.flatMap_append]
      refine passes_append (ih fun j below => round j (Nat.lt_succ_of_lt below)) ?_
      intro done regs before
      rw [List.flatMap_cons, List.flatMap_nil, List.append_nil]
      exact round n (Nat.lt_succ_self n) done regs before

theorem passes_map {body : Nat → Op} {I : Nat → List Op → Regs → Prop} (n : Nat)
    (start : I 0 done regs)
    (round : ∀ j < n, ∀ done regs, I j done regs →
      ok done regs (body j) ∧ I (j + 1) (done ++ [body j]) (predict (body j) regs)) :
    Passes ok predict (I n) done ((List.range n).map body) regs := by
  rw [List.map_eq_flatMap]
  exact passes_loop n start round

def ownOps (order : List (Thread × Op)) (thread : Thread) : List Op :=
  (order.filter fun entry => entry.1 = thread).map Prod.snd

theorem mem_own_ops {order : List (Thread × Op)} {thread : Thread} {op : Op} :
    op ∈ ownOps order thread ↔ (thread, op) ∈ order := by
  unfold ownOps
  simp [List.mem_map, List.mem_filter]

theorem own_ops_snoc {order : List (Thread × Op)} {thread other : Thread} {op : Op} :
    ownOps (order ++ [(other, op)]) thread =
      if other = thread then ownOps order thread ++ [op] else ownOps order thread := by
  unfold ownOps
  rw [List.filter_append, List.map_append]
  by_cases same : other = thread
  · simp [same]
  · simp [same]

/-- Registers end as predicted, if the shared memory bears the predictions out at
every operation. -/
theorem private_execute {program : Thread → List Op} {ok : Thread → List Op → Regs → Op → Prop}
    {predict : Thread → Op → Regs → Regs} {Q : Thread → List Op → Regs → Prop}
    {J : List (Thread × Op) → Shared → Prop}
    {own : Thread → Op → Shared → Regs → Option (Shared × Regs)}
    {order : List (Thread × Op)} (interleaves : Interleaves program order)
    {machine : Machine Thread Shared Regs} (start : J [] machine.shared)
    (passes : ∀ thread, Passes (ok thread) (predict thread) (Q thread) [] (program thread)
      (machine.regs thread))
    (keeps : ∀ before thread op after shared regs, order = before ++ (thread, op) :: after →
      ok thread (ownOps before thread) regs op → J before shared →
      ∃ shared', own thread op shared regs = some (shared', predict thread op regs) ∧
        J (before ++ [(thread, op)]) shared') :
    ∃ final, execute (machineStep own) order machine = some final ∧ J order final.shared ∧
      ∀ thread, Q thread (program thread) (final.regs thread) := by
  obtain ⟨final, executed, holds, passed⟩ := execute_invariant (machineStep own)
    (I := fun done (s : Machine Thread Shared Regs) => J done s.shared ∧ ∀ thread rest,
      program thread = ownOps done thread ++ rest →
      Passes (ok thread) (predict thread) (Q thread) (ownOps done thread) rest (s.regs thread))
    ⟨start, fun thread rest split => by
      have whole : program thread = rest := split
      exact whole ▸ passes thread⟩
    (fun before thread op after s (split : order = _) so_far => by
      have next : program thread = ownOps before thread ++ op :: ownOps after thread := by
        rw [← interleaves thread, split]
        unfold ownOps
        rw [List.filter_append, List.map_append]
        simp
      obtain ⟨checked, passing⟩ := so_far.2 thread _ next
      obtain ⟨shared', stepped, kept⟩ := keeps before thread op after s.shared (s.regs thread)
        split checked so_far.1
      refine ⟨⟨shared', Function.update s.regs thread (predict thread op (s.regs thread))⟩, ?_,
        kept, fun other rest remaining => ?_⟩
      · unfold machineStep
        rw [stepped]
        rfl
      · rw [own_ops_snoc] at remaining ⊢
        by_cases same : thread = other
        · subst same
          rw [if_pos rfl] at remaining ⊢
          dsimp only
          rw [Function.update_self]
          rw [next, List.append_assoc, List.append_right_inj] at remaining
          obtain rfl : ownOps after thread = rest := (List.cons.inj remaining).2
          exact passing
        · rw [if_neg same] at remaining ⊢
          dsimp only
          rw [Function.update_of_ne (Ne.symm same)]
          exact so_far.2 other rest remaining)
  refine ⟨final, executed, holds, fun thread => ?_⟩
  have whole : program thread = ownOps order thread ++ [] := by
    rw [List.append_nil]
    exact (interleaves thread).symm
  have ended := passed thread [] whole
  rw [List.append_nil] at whole
  rw [whole]
  exact ended

end Private

/-! ## One machine seen as another -/

section Views

variable {State' Op' : Type*} {step : Thread → Op → State → Option State}
  {step' : Thread → Op' → State' → Option State'} {view : State → State'}
  {translate : Thread → Op → Op'}

def translated (translate : Thread → Op → Op') (order : List (Thread × Op)) :
    List (Thread × Op') :=
  order.map fun entry => (entry.1, translate entry.1 entry.2)

theorem translated_interleaves {program : Thread → List Op}
    {order : List (Thread × Op)} (interleaves : Interleaves program order) :
    Interleaves (fun thread => (program thread).map (translate thread))
      (translated translate order) := by
  intro thread
  unfold translated
  dsimp only
  rw [List.filter_map, List.map_map, ← interleaves thread, List.map_map]
  refine List.map_congr_left fun entry member => ?_
  have same : entry.1 = thread := of_decide_eq_true (List.mem_filter.mp member).2
  rw [← same]
  rfl

omit [DecidableEq Thread] in
theorem execute_translated
    (same : ∀ thread op s, step' thread (translate thread op) (view s) =
      (step thread op s).map view) (order : List (Thread × Op)) (s : State) :
    execute step' (translated translate order) (view s) = (execute step order s).map view := by
  induction order generalizing s with
  | nil => rfl
  | cons entry rest ih =>
      change (step' entry.1 (translate entry.1 entry.2) (view s)).bind
        (execute step' (translated translate rest)) =
          ((step entry.1 entry.2 s).bind (execute step rest)).map view
      rw [same]
      cases step entry.1 entry.2 s with
      | none => rfl
      | some s' => exact ih s'

omit [DecidableEq Thread] in
theorem run_translated
    (same : ∀ thread op s, step' thread (translate thread op) (view s) =
      (step thread op s).map view) (orders : List (List (Thread × Op))) (s : State) :
    runPhases step' (orders.map (translated translate)) (view s) =
      (runPhases step orders s).map view := by
  induction orders generalizing s with
  | nil => rfl
  | cons order rest ih =>
      change (execute step' (translated translate order) (view s)).bind
        (runPhases step' (rest.map (translated translate))) =
          ((execute step order s).bind (runPhases step rest)).map view
      rw [execute_translated same]
      cases execute step order s with
      | none => rfl
      | some s' => exact ih s'

end Views

/-! ## Memory after writes -/

section Memory

variable {Address Value : Type*} [DecidableEq Address]

def applyWrites (writes : List (Address × Value)) (memory : Address → Value) : Address → Value :=
  writes.foldl (fun memory entry => Function.update memory entry.1 entry.2) memory

theorem apply_writes_untouched {writes : List (Address × Value)} {memory : Address → Value}
    {address : Address} (untouched : ∀ value, (address, value) ∉ writes) :
    applyWrites writes memory address = memory address := by
  induction writes generalizing memory with
  | nil => rfl
  | cons entry rest ih =>
      have other : address ≠ entry.1 := by
        rintro rfl
        exact untouched entry.2 List.mem_cons_self
      exact (ih fun value member => untouched value (List.mem_cons_of_mem _ member)).trans
        (Function.update_of_ne other _ _)

theorem apply_writes_agree {writes : List (Address × Value)} {memory : Address → Value}
    {address : Address} {value : Value} (written : (address, value) ∈ writes)
    (agree : ∀ other, (address, other) ∈ writes → other = value) :
    applyWrites writes memory address = value := by
  induction writes generalizing memory with
  | nil => exact nomatch written
  | cons entry rest ih =>
      by_cases again : (address, value) ∈ rest
      · exact ih again fun other member => agree other (List.mem_cons_of_mem _ member)
      · obtain rfl : (address, value) = entry := (List.mem_cons.mp written).resolve_right again
        have untouched : ∀ other, (address, other) ∉ rest := by
          intro other member
          have same := agree other (List.mem_cons_of_mem _ member)
          exact again (same ▸ member)
        exact (apply_writes_untouched untouched).trans (Function.update_self _ _ _)

/-- Threads that between them write every cell of a range with its value, and nothing
else, leave these values behind in any order. -/
theorem interleaved_memory {Cell : Type*} (inRange : Cell → Prop) (address : Cell → Address)
    (value : Cell → Value) {writes : Thread → List (Address × Value)}
    (injective : ∀ cell cell', inRange cell → inRange cell' → address cell = address cell' →
      cell = cell')
    (only : ∀ thread, ∀ entry ∈ writes thread, ∃ cell, inRange cell ∧
      entry = (address cell, value cell))
    (all : ∀ cell, inRange cell → ∃ thread, (address cell, value cell) ∈ writes thread)
    {log : List (Thread × (Address × Value))} (interleaves : Interleaves writes log)
    (memory : Address → Value) :
    (∀ cell, inRange cell → applyWrites (log.map Prod.snd) memory (address cell) = value cell) ∧
      ∀ place, (∀ cell, inRange cell → place ≠ address cell) →
        applyWrites (log.map Prod.snd) memory place = memory place := by
  have logged : ∀ entry ∈ log.map Prod.snd, ∃ cell, inRange cell ∧
      entry = (address cell, value cell) := by
    intro entry member
    obtain ⟨⟨thread, entry⟩, listed, rfl⟩ := List.mem_map.mp member
    exact only thread entry (interleaves.mem_iff.mp listed)
  constructor
  · intro cell inside
    obtain ⟨thread, written⟩ := all cell inside
    refine apply_writes_agree
      (List.mem_map_of_mem (f := Prod.snd) (interleaves.mem_iff.mpr written)) fun other member => ?_
    obtain ⟨cell', inside', same⟩ := logged _ member
    obtain ⟨place, rfl⟩ := Prod.mk.inj same
    rw [injective cell cell' inside inside' place]
  · intro place outside
    refine apply_writes_untouched fun value member => ?_
    obtain ⟨cell, inside, same⟩ := logged _ member
    exact outside cell inside (Prod.mk.inj same).1

/-- The same where only the blocks of a grid write. -/
theorem grid_memory {Cell Block : Type*} [DecidableEq Block] (inRange : Cell → Prop)
    (address : Cell → Address) (value : Cell → Value) {inGrid : Block → Prop} [DecidablePred inGrid]
    {writes : Block → List (Address × Value)}
    (injective : ∀ cell cell', inRange cell → inRange cell' → address cell = address cell' →
      cell = cell')
    (only : ∀ block, inGrid block → ∀ entry ∈ writes block, ∃ cell, inRange cell ∧
      entry = (address cell, value cell))
    (all : ∀ cell, inRange cell → ∃ block, inGrid block ∧
      (address cell, value cell) ∈ writes block)
    {log : List (Block × (Address × Value))}
    (interleaves : Interleaves (fun block => if inGrid block then writes block else []) log)
    (memory : Address → Value) :
    (∀ cell, inRange cell → applyWrites (log.map Prod.snd) memory (address cell) = value cell) ∧
      ∀ place, (∀ cell, inRange cell → place ≠ address cell) →
        applyWrites (log.map Prod.snd) memory place = memory place := by
  apply interleaved_memory inRange address value injective ?_ ?_ interleaves
  · intro block entry member
    obtain ⟨inside, written⟩ := List.mem_ite_nil_right.mp member
    exact only block inside entry written
  · intro cell inside
    obtain ⟨block, within, written⟩ := all cell inside
    exact ⟨block, List.mem_ite_nil_right.mpr ⟨within, written⟩⟩

/-- The blocks of a grid that between them write a matrix in row-major order. -/
theorem matrix_memory {Block : Type*} [DecidableEq Block] {rows cols : Nat}
    (value : Nat → Nat → Value) {inGrid : Block → Prop} [DecidablePred inGrid]
    {writes : Block → List (Nat × Value)}
    (only : ∀ block, inGrid block → ∀ entry ∈ writes block, ∃ i < rows, ∃ j < cols,
      entry = (i * cols + j, value i j))
    (all : ∀ i < rows, ∀ j < cols, ∃ block, inGrid block ∧
      (i * cols + j, value i j) ∈ writes block)
    {log : List (Block × (Nat × Value))}
    (interleaves : Interleaves (fun block => if inGrid block then writes block else []) log)
    (memory : Nat → Value) :
    (∀ i < rows, ∀ j < cols,
      applyWrites (log.map Prod.snd) memory (i * cols + j) = value i j) ∧
      ∀ address, (∀ i < rows, ∀ j < cols, address ≠ i * cols + j) →
        applyWrites (log.map Prod.snd) memory address = memory address := by
  obtain ⟨written, untouched⟩ := grid_memory
    (fun cell : Nat × Nat => cell.1 < rows ∧ cell.2 < cols) (fun cell => cell.1 * cols + cell.2)
    (fun cell => value cell.1 cell.2)
    (fun cell cell' inside inside' same => by
      obtain ⟨row, col⟩ := MatrixLayouts.row_major_injective inside.2 inside'.2 same
      exact Prod.ext row col)
    (fun block inside entry member => by
      obtain ⟨i, row, j, col, same⟩ := only block inside entry member
      exact ⟨(i, j), ⟨row, col⟩, same⟩)
    (fun cell inside => all cell.1 inside.1 cell.2 inside.2) interleaves memory
  exact ⟨fun i row j col => written (i, j) ⟨row, col⟩, fun address outside =>
    untouched address fun cell inside => outside cell.1 inside.1 cell.2 inside.2⟩

end Memory

end AmpFormal.PhaseRules
