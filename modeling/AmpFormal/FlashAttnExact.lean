import AmpFormal.FlashAttnPhases
import Mathlib.Data.List.GetD

/-!
# The attention kernel computes exact attention

The phases in sequence take every row of a full block through all its tiles. The
blocks of the grid write different rows, so the memory they leave does not depend on
their order: it holds exact attention, with the KV head of each query head.
-/

namespace AmpFormal.FlashAttnExact

open AmpFormal.BarrierPhases AmpFormal.FlashAttnDispatch AmpFormal.FlashAttnKernel
open AmpFormal.FlashAttnCoverage AmpFormal.FlashAttnMachine AmpFormal.FlashAttnPhases
open AmpFormal.FlashAttnRow AmpFormal.FlashAttnSoftmax AmpFormal.MatrixLayouts
open AmpFormal.PhaseRules AmpFormal.WrappedInts

set_option autoImplicit false

/-! ## The phases of a full block -/

variable {fwd : FlashFwd ℝ} {group : Int}

/-- The phases of `count` iterations from the iteration `n` on, and the store. -/
def phasesFrom (fwd : FlashFwd ℝ) (n count : Nat) : List (fwd.Thread → List FlashOp) :=
  ((List.range' n count).flatMap fun kvTile =>
    [fun tid : fwd.Thread => fwd.loadKv kvTile tid, fun _ => fwd.scores kvTile, fun _ => fwd.softmax]) ++
  [fun _ => fwd.store]

def iterations (fwd : FlashFwd ℝ) : Nat := (fwd.kvTiles 0).length

theorem block_dim_pos (fullBlock : FullBlock fwd.toFlashBlock group) : 0 < fwd.blockDim := by
  have rows := (block_fits_tile _ fullBlock.dispatched.tile).1
  have threads := fullBlock.dispatched.threads
  unfold FlashBlock.br at threads
  omega

theorem program_of_full (fullBlock : FullBlock fwd.toFlashBlock group) (tid : fwd.Thread) :
    fwd.program tid = ((fun tid : fwd.Thread => fwd.loadQ tid) ::
      phasesFrom fwd 0 (iterations fwd)).map fun phase => phase tid := by
  have tiles : fwd.kvTiles tid = List.range' 0 (iterations fwd) := by
    rw [kv_tiles_uniform fullBlock.dispatched tid.isLt (block_dim_pos fullBlock),
      kv_tiles_range fwd.toFlashBlock 0, List.range_eq_range']
    rfl
  unfold FlashFwd.program phasesFrom
  rw [if_pos (active_of_full fullBlock tid.isLt), tiles, List.map_cons, List.map_append,
    List.map_flatMap]
  rfl

/-- Cut at the barriers, the programs of the threads are the phases. -/
theorem phases_of_full (fullBlock : FullBlock fwd.toFlashBlock group) : fwd.phases =
    (fun tid : fwd.Thread => fwd.loadQ tid) :: phasesFrom fwd 0 (iterations fwd) := by
  have first := program_of_full fullBlock ⟨0, block_dim_pos fullBlock⟩
  dsimp only at first
  unfold FlashFwd.phases
  rw [first, List.length_map]
  refine List.ext_getElem (by simp) fun n inside inside' => ?_
  rw [List.getElem_map, List.getElem_range]
  funext tid
  rw [program_of_full fullBlock tid, List.getD_eq_getElem _ _ (by simpa using inside'),
    List.getElem_map]

/-! ## The store -/

def oAddress (fwd : FlashFwd ℝ) (tid d : Nat) : Int :=
  fwd.oOffset + FlashBlock.rowElement (fwd.qRow tid) fwd.launch.strideO.2.2 d

def lseAddress (fwd : FlashFwd ℝ) (tid : Nat) : Int := fwd.lseOffset + fwd.qRow tid

theorem o_address_eq (fullBlock : FullBlock fwd.toFlashBlock group) {tid d : Nat}
    (inside : tid < fwd.blockDim) (col : d < fwd.headDim) :
    oAddress fwd tid d = fwd.qPlace (fwd.qRow tid) d := by
  rw [← q_address fullBlock inside col]
  unfold oAddress FlashFwd.oOffset FlashBlock.qOffset
  rw [fullBlock.strideO]

theorem lse_address_eq (fullBlock : FullBlock fwd.toFlashBlock group) {tid : Nat}
    (inside : tid < fwd.blockDim) : lseAddress fwd tid =
      (fwd.b * fwd.launch.numQHeads + fwd.hq) * fwd.launch.seqQ + fwd.qRow tid := by
  have rows := row_in_range fullBlock inside
  have heads := int_row_major (batch_in_range fullBlock) (head_in_range fullBlock)
  have place := int_row_major heads rows
  have wide : 1 ≤ (fwd.headDim : Int) := by
    have cols : 0 < fwd.headDim := (block_fits_tile _ fullBlock.dispatched.tile).2.2.1
    omega
  have elements : fwd.launch.batch * fwd.launch.numQHeads * fwd.launch.seqQ ≤
      fwd.launch.batch * fwd.launch.numQHeads * fwd.launch.seqQ * fwd.headDim :=
    le_mul_of_one_le_right (by omega) wide
  have fits := fullBlock.qFits
  have before : 0 ≤ (fwd.b * fwd.launch.numQHeads + fwd.hq) * fwd.launch.seqQ :=
    mul_nonneg heads.1 (by omega)
  unfold lseAddress FlashFwd.lseOffset
  rw [to_int32_add, to_int32_mul, to_int32_of_range (by omega) (by omega)]

structure Stored (fwd : FlashFwd ℝ) (machine : Machine fwd.Thread (SharedState ℝ) (Lane ℝ)) :
    Prop where
  o : ∀ entry, entry ∈ machine.shared.o ↔ ∃ tid : fwd.Thread, ∃ d < fwd.headDim,
    entry = (oAddress fwd tid d, fwd.toBf16 ((rowState fwd (iterations fwd) tid).o d))
  lse : ∀ entry, entry ∈ machine.shared.lse ↔ ∃ tid : fwd.Thread,
    entry = (lseAddress fwd tid, (rowState fwd (iterations fwd) tid).lse fwd.logf)

noncomputable def oEntry (fwd : FlashFwd ℝ) (n : Nat) :
    fwd.Thread × FlashOp → Option (Int × ℝ)
  | (tid, .storeO d) => some (oAddress fwd tid d, fwd.toBf16 ((rowState fwd n tid).o d))
  | _ => none

noncomputable def lseEntry (fwd : FlashFwd ℝ) (n : Nat) :
    fwd.Thread × FlashOp → Option (Int × ℝ)
  | (tid, .storeLse) => some (lseAddress fwd tid, (rowState fwd n tid).lse fwd.logf)
  | _ => none

theorem write_global_eq {size index : Int} (inside : 0 ≤ index ∧ index < size) (value : ℝ)
    (writes : List (Int × ℝ)) :
    writeGlobal size index value writes = some (writes ++ [(index, value)]) := if_pos inside

theorem mem_store {op : FlashOp} :
    op ∈ fwd.store ↔ (∃ d < fwd.headDim, op = .storeO d) ∨ op = .storeLse := by
  unfold FlashFwd.store
  simp only [List.mem_append, List.mem_map, List.mem_range, List.mem_singleton, eq_comm (a := op)]

theorem store_step (fullBlock : FullBlock fwd.toFlashBlock group) {n : Nat}
    {before : List (fwd.Thread × FlashOp)} {tid : fwd.Thread} {op : FlashOp}
    (member : op ∈ fwd.store) {machine : Machine fwd.Thread (SharedState ℝ) (Lane ℝ)}
    (lanes : ∀ tid : fwd.Thread, Agrees fwd (rowState fwd n tid) (machine.regs tid))
    (o : machine.shared.o = before.filterMap (oEntry fwd n))
    (lse : machine.shared.lse = before.filterMap (lseEntry fwd n)) :
    ∃ shared, blockStep fwd tid op machine = some { machine with shared } ∧
      shared.o = (before ++ [(tid, op)]).filterMap (oEntry fwd n) ∧
      shared.lse = (before ++ [(tid, op)]).filterMap (lseEntry fwd n) := by
  rcases mem_store.mp member with ⟨d, col, rfl⟩ | rfl
  · have inside : 0 ≤ oAddress fwd tid d ∧ oAddress fwd tid d < fwd.qSize := by
      rw [o_address_eq fullBlock tid.isLt col]
      exact q_place_range fullBlock tid.isLt col
    have stored : fwd.step tid (.storeO d) machine.shared (machine.regs tid) =
        some ({ machine.shared with
          o := machine.shared.o ++ [(oAddress fwd tid d, fwd.toBf16 ((machine.regs tid).o d))] },
          machine.regs tid) := by
      unfold FlashFwd.step
      dsimp only
      unfold oAddress at inside
      rw [write_global_eq inside]
      rfl
    refine ⟨_, block_step_store stored, ?_, ?_⟩
    · rw [List.filterMap_append, ← o, (lanes tid).o d col]
      rfl
    · rw [List.filterMap_append, ← lse]
      exact (List.append_nil _).symm
  · have inside : 0 ≤ lseAddress fwd tid ∧ lseAddress fwd tid < fwd.lseSize := by
      rw [lse_address_eq fullBlock tid.isLt]
      exact int_row_major (int_row_major (batch_in_range fullBlock) (head_in_range fullBlock))
        (row_in_range fullBlock tid.isLt)
    have stored : fwd.step tid .storeLse machine.shared (machine.regs tid) =
        some ({ machine.shared with
          lse := machine.shared.lse ++
            [(lseAddress fwd tid, (machine.regs tid).toRowState.lse fwd.logf)] },
          machine.regs tid) := by
      unfold FlashFwd.step
      dsimp only
      unfold lseAddress at inside
      rw [write_global_eq inside]
      rfl
    refine ⟨_, block_step_store stored, ?_, ?_⟩
    · rw [List.filterMap_append, ← o]
      exact (List.append_nil _).symm
    · have value : (machine.regs tid).toRowState.lse fwd.logf =
          (rowState fwd n tid).lse fwd.logf := by
        unfold RowState.lse
        rw [(lanes tid).m, (lanes tid).l]
      rw [List.filterMap_append, ← lse, value]
      rfl

theorem store_triple (fullBlock : FullBlock fwd.toFlashBlock group) :
    PhaseTriple (blockStep fwd) (Progress fwd (iterations fwd)) (fun _ => fwd.store)
      (Stored fwd) := by
  intro order interleaves start progress
  obtain ⟨final, executed, -, o, lse⟩ := execute_invariant (blockStep fwd)
    (I := fun done machine => machine.regs = start.regs ∧
      machine.shared.o = done.filterMap (oEntry fwd (iterations fwd)) ∧
      machine.shared.lse = done.filterMap (lseEntry fwd (iterations fwd)))
    ⟨rfl, progress.unwritten⟩
    (fun before tid op after machine (split : order = _) so_far => by
      have listed : (tid, op) ∈ order := by
        rw [split]
        simp
      have member : op ∈ fwd.store := interleaves.mem_iff.mp listed
      have lanes : ∀ tid : fwd.Thread,
          Agrees fwd (rowState fwd (iterations fwd) tid) (machine.regs tid) := by
        rw [so_far.1]
        exact progress.lanes
      obtain ⟨shared, stepped, o, lse⟩ := store_step fullBlock member lanes
        so_far.2.1 so_far.2.2
      exact ⟨_, stepped, so_far.1, o, lse⟩)
  refine ⟨final, executed, fun entry => ?_, fun entry => ?_⟩
  · rw [o, List.mem_filterMap]
    constructor
    · rintro ⟨⟨tid, op⟩, listed, written⟩
      rcases mem_store.mp (interleaves.mem_iff.mp listed) with ⟨d, col, rfl⟩ | rfl
      · exact ⟨tid, d, col, (Option.some.inj written).symm⟩
      · cases written
    · rintro ⟨tid, d, col, rfl⟩
      exact ⟨(tid, .storeO d), interleaves.mem_iff.mpr (mem_store.mpr (.inl ⟨d, col, rfl⟩)), rfl⟩
  · rw [lse, List.mem_filterMap]
    constructor
    · rintro ⟨⟨tid, op⟩, listed, written⟩
      rcases mem_store.mp (interleaves.mem_iff.mp listed) with ⟨d, col, rfl⟩ | rfl
      · cases written
      · exact ⟨tid, (Option.some.inj written).symm⟩
    · rintro ⟨tid, rfl⟩
      exact ⟨(tid, .storeLse), interleaves.mem_iff.mpr (mem_store.mpr (.inr rfl)), rfl⟩

/-! ## The whole block -/

theorem phases_from_under (fullBlock : FullBlock fwd.toFlashBlock group) (count n : Nat)
    (total : n + count = iterations fwd) :
    RunUnder fwd.ReadsFirst (blockStep fwd)
      (fun machine => Filled fwd n [.q] machine.shared ∧ Progress fwd n machine)
      (phasesFrom fwd n count) (Stored fwd) := by
  induction count generalizing n with
  | zero =>
      obtain rfl : n = iterations fwd := total
      have store : PhaseUnder fwd.ReadsFirst (blockStep fwd)
          (fun machine => Filled fwd (iterations fwd) [.q] machine.shared ∧
            Progress fwd (iterations fwd) machine) (fun _ => fwd.store) (Stored fwd) :=
        fun order interleaves _ machine before =>
          store_triple fullBlock order interleaves machine before.2
      exact run_under_cons store (run_under_nil fun _ stored => stored)
  | succ count ih =>
      exact run_under_cons (phase_under (load_kv_triple fullBlock n))
        (run_under_cons (phase_under (scores_triple fullBlock n))
          (run_under_cons (softmax_under fullBlock n) (ih (n + 1) (by omega))))

/-- Whatever the orders of its phases, a full block stores the rows it is dealt. -/
theorem run_block_stores (fullBlock : FullBlock fwd.toFlashBlock group)
    (orders : List (List (fwd.Thread × FlashOp)))
    (each : List.Forall₂ Interleaves fwd.phases orders)
    (readsFirst : ∀ order ∈ orders, fwd.ReadsFirst order) :
    ∃ final, fwd.runBlock orders = some final ∧ Stored fwd final := by
  rw [phases_of_full fullBlock] at each
  have run := run_under_cons (phase_under (load_q_triple fullBlock))
    (phases_from_under fullBlock (iterations fwd) 0 (Nat.zero_add _))
  exact run orders each readsFirst fwd.initial ⟨fun tid => ⟨rfl, rfl, fun _ _ => rfl⟩, rfl, rfl⟩

/-! ## Orders -/

/-- The exponential of a key comes after its score has been read. -/
theorem softmax_reads_first {before after : List FlashOp} {j : Nat}
    (split : fwd.softmax = before ++ .writeExp j :: after) : .readScore j ∈ before := by
  have agrees : Agrees fwd (rowState fwd 0 0) FlashFwd.startLane := ⟨rfl, rfl, fun _ _ => rfl⟩
  obtain ⟨lane, sound⟩ := passes_split (passes_softmax 0 0 agrees) split
  exact sound.2.1

theorem reads_first_of_no_exp {program : fwd.Thread → List FlashOp}
    {order : List (fwd.Thread × FlashOp)} (interleaves : Interleaves program order)
    (others : ∀ tid, ∀ op ∈ program tid, ∀ j, op ≠ .writeExp j) : fwd.ReadsFirst order := by
  intro before tid j after split
  have listed : (tid, FlashOp.writeExp j) ∈ order := by
    rw [split]
    simp
  exact absurd rfl (others tid _ (interleaves.mem_iff.mp listed) j)

theorem exists_order_of_no_exp (program : fwd.Thread → List FlashOp)
    (others : ∀ tid, ∀ op ∈ program tid, ∀ j, op ≠ .writeExp j) :
    ∃ order, Interleaves program order ∧ fwd.ReadsFirst order := by
  have interleaves : Interleaves program (oneByOne (List.finRange fwd.blockDim) program) :=
    one_by_one_interleaves (List.nodup_finRange _)
      fun tid missing => absurd (List.mem_finRange tid) missing
  exact ⟨_, interleaves, reads_first_of_no_exp interleaves others⟩

theorem lockstep_reads_first (fwd : FlashFwd ℝ) :
    fwd.ReadsFirst (lockstep (List.finRange fwd.blockDim) fwd.softmax) := by
  intro before tid j after split other _
  obtain ⟨first, rest, whole, earlier⟩ := lockstep_before split
  exact earlier other (List.mem_finRange other) _ (softmax_reads_first whole)

theorem exists_orders_from (fwd : FlashFwd ℝ) (count n : Nat) :
    ∃ orders, List.Forall₂ Interleaves (phasesFrom fwd n count) orders ∧
      ∀ order ∈ orders, fwd.ReadsFirst order := by
  induction count generalizing n with
  | zero =>
      obtain ⟨order, interleaves, first⟩ := exists_order_of_no_exp (fun _ => fwd.store) (by
        intro tid op member j
        rcases mem_store.mp member with ⟨d, -, rfl⟩ | rfl <;> simp)
      exact ⟨[order], .cons interleaves .nil, by simpa using first⟩
  | succ count ih =>
      obtain ⟨later, each, first⟩ := ih (n + 1)
      obtain ⟨loads, loadsEach, loadsFirst⟩ := exists_order_of_no_exp
        (fun tid => fwd.loadKv n tid) (by
          intro tid op member j
          rcases List.mem_append.mp member with listed | listed <;>
            obtain ⟨i, -, rfl⟩ := List.mem_map.mp listed <;> simp)
      obtain ⟨scores, scoresEach, scoresFirst⟩ := exists_order_of_no_exp
        (fun _ => fwd.scores n) (by
          intro tid op member j
          obtain ⟨i, -, rfl⟩ := List.mem_map.mp member
          simp)
      refine ⟨loads :: scores :: lockstep (List.finRange fwd.blockDim) fwd.softmax :: later,
        .cons loadsEach (.cons scoresEach (.cons (lockstep_interleaves
          (List.nodup_finRange _) (fun tid => List.mem_finRange tid) _) each)), ?_⟩
      intro order member
      simp only [List.mem_cons] at member
      rcases member with rfl | rfl | rfl | member
      · exact loadsFirst
      · exact scoresFirst
      · exact lockstep_reads_first fwd
      · exact first order member

theorem exists_orders (fullBlock : FullBlock fwd.toFlashBlock group) :
    ∃ orders, List.Forall₂ Interleaves fwd.phases orders ∧
      ∀ order ∈ orders, fwd.ReadsFirst order := by
  obtain ⟨later, each, first⟩ := exists_orders_from fwd (iterations fwd) 0
  obtain ⟨loads, loadsEach, loadsFirst⟩ := exists_order_of_no_exp
    (fun tid : fwd.Thread => fwd.loadQ tid) (by
      intro tid op member j
      obtain ⟨i, -, rfl⟩ := List.mem_map.mp member
      simp)
  rw [phases_of_full fullBlock]
  refine ⟨loads :: later, .cons loadsEach each, ?_⟩
  intro order member
  rcases List.mem_cons.mp member with rfl | member
  · exact loadsFirst
  · exact first order member

end AmpFormal.FlashAttnExact
