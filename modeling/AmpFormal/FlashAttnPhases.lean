import AmpFormal.FlashAttnCoverage
import AmpFormal.FlashAttnMachine
import AmpFormal.FlashAttnSoftmax
import AmpFormal.IntIndexing

/-!
# The phases of an attention block

For every phase of a full block: what it leaves in shared memory and in the registers,
whatever the order of its threads. Loads and scores fill their arrays with the values
that the cells stand for. In the softmax phase the threads of a warp read the scores
before any of them overwrites one, so each ends with the registers of one step of the
row that the warp computes.
-/

namespace AmpFormal.FlashAttnPhases

open AmpFormal.BarrierPhases AmpFormal.FlashAttnDispatch AmpFormal.FlashAttnKernel
open AmpFormal.FlashAttnCoverage AmpFormal.FlashAttnMachine AmpFormal.FlashAttnRow
open AmpFormal.FlashAttnSoftmax AmpFormal.IntIndexing AmpFormal.MatrixLayouts AmpFormal.PhaseRules
open AmpFormal.WrappedInts

set_option autoImplicit false

/-! ## The launch -/

theorem int_row_major {i j m n : Int} (row : 0 ≤ i ∧ i < m) (col : 0 ≤ j ∧ j < n) :
    0 ≤ i * n + j ∧ i * n + j < m * n := by
  have width : 0 ≤ n := by omega
  refine ⟨add_nonneg (mul_nonneg row.1 width) col.1, ?_⟩
  calc i * n + j < i * n + n := by omega
    _ = (i + 1) * n := by ring
    _ ≤ m * n := mul_le_mul_of_nonneg_right (by omega) width

theorem outer_dims_small {heads seq dim : Int} (some : 1 ≤ heads) (rows : 1 ≤ seq) (wide : 64 ≤ dim)
    (fits : heads * seq * dim ≤ 2147483648) : heads ≤ 33554432 ∧ seq ≤ 33554432 := by
  have outer : heads ≤ heads * seq := le_mul_of_one_le_right (by omega) rows
  have inner : seq ≤ heads * seq := le_mul_of_one_le_left (by omega) some
  have elements : heads * seq * 64 ≤ heads * seq * dim :=
    mul_le_mul_of_nonneg_left wide (by omega)
  omega

/-- A block of a launch of `dispatch_flash_attn`, with a whole number of query heads
for each KV head, no row past `S_q` and no array of more elements than an `int` counts. -/
structure FullBlock {R : Type*} (block : FlashBlock R) (group : Int) : Prop where
  dispatched : Dispatched block
  strideQ : block.launch.strideQ =
    strides block.launch.numQHeads block.launch.seqQ block.headDim
  strideO : block.launch.strideO = block.launch.strideQ
  grouped : 0 < group
  whole : block.launch.numQHeads = group * block.launch.numKvHeads
  inGrid : (block.bh : Int) < block.launch.batch * block.launch.numQHeads
  full : ((block.qTile + 1) * block.br : Nat) ≤ block.launch.seqQ
  qFits : block.launch.batch * block.launch.numQHeads * block.launch.seqQ * block.headDim ≤
    2147483648
  kvFits : block.launch.batch * block.launch.numKvHeads * block.launch.seqKv * block.headDim ≤
    2147483648

section Launch

variable {R : Type*} {block : FlashBlock R} {group : Int}

theorem head_in_range (fullBlock : FullBlock block group) :
    0 ≤ block.hq ∧ block.hq < block.launch.numQHeads := by
  have queries := fullBlock.dispatched.qHeads
  unfold FlashBlock.hq
  rw [Int.tmod_eq_emod_of_nonneg (Int.natCast_nonneg _)]
  exact ⟨Int.emod_nonneg _ queries.ne', Int.emod_lt_of_pos _ queries⟩

theorem batch_in_range (fullBlock : FullBlock block group) :
    0 ≤ block.b ∧ block.b < block.launch.batch := by
  have queries := fullBlock.dispatched.qHeads
  unfold FlashBlock.b
  rw [Int.tdiv_eq_ediv_of_nonneg (Int.natCast_nonneg _)]
  exact ⟨Int.ediv_nonneg (Int.natCast_nonneg _) queries.le,
    Int.ediv_lt_of_lt_mul queries fullBlock.inGrid⟩

theorem kv_head_in_range (fullBlock : FullBlock block group) :
    0 ≤ block.hkv ∧ block.hkv < block.launch.numKvHeads :=
  kv_head_range fullBlock.dispatched.kvHeads fullBlock.grouped fullBlock.whole
    (head_in_range fullBlock).1 (head_in_range fullBlock).2

theorem row_in_range (fullBlock : FullBlock block group) {tid : Nat}
    (inside : tid < block.blockDim) : 0 ≤ (block.qRow tid : Int) ∧
      (block.qRow tid : Int) < block.launch.seqQ := by
  have row := row_lt fullBlock.dispatched inside
  have rows := fullBlock.full
  rw [Nat.succ_mul] at rows
  unfold FlashBlock.qRow
  omega

theorem active_of_full (fullBlock : FullBlock block group) {tid : Nat}
    (inside : tid < block.blockDim) : block.Active tid := (row_in_range fullBlock inside).2

theorem counted_of_full (fullBlock : FullBlock block group) :
    block.launch.seqKv + block.bc ≤ 2147483648 := by
  have bounds : ∀ tile ∈ launchBranches, tile.bc ≤ 64 ∧ 64 ≤ tile.headDim := by decide
  obtain ⟨narrow, wide⟩ : block.bc ≤ 64 ∧ 64 ≤ block.headDim :=
    bounds _ fullBlock.dispatched.tile
  have batches := batch_in_range fullBlock
  have heads : 1 ≤ block.launch.batch * block.launch.numKvHeads :=
    one_le_mul_of_one_le_of_one_le (show (1 : Int) ≤ block.launch.batch by omega)
      fullBlock.dispatched.kvHeads
  have small := (outer_dims_small heads fullBlock.dispatched.keys (by omega) fullBlock.kvFits).2
  omega

theorem q_place_range (fullBlock : FullBlock block group) {tid d : Nat}
    (inside : tid < block.blockDim) (col : d < block.headDim) :
    0 ≤ block.qPlace (block.qRow tid) d ∧ block.qPlace (block.qRow tid) d <
      block.launch.batch * block.launch.numQHeads * block.launch.seqQ * block.headDim :=
  int_row_major (int_row_major (int_row_major (batch_in_range fullBlock)
    (head_in_range fullBlock)) (row_in_range fullBlock inside)) (by omega)

theorem kv_place_range (fullBlock : FullBlock block group) {row d : Nat}
    (inside : (row : Int) < block.launch.seqKv) (col : d < block.headDim) :
    0 ≤ block.kvPlace row d ∧ block.kvPlace row d <
      block.launch.batch * block.launch.numKvHeads * block.launch.seqKv * block.headDim :=
  int_row_major (int_row_major (int_row_major (batch_in_range fullBlock)
    (kv_head_in_range fullBlock)) ⟨Int.natCast_nonneg _, inside⟩) (by omega)

theorem q_address (fullBlock : FullBlock block group) {tid d : Nat}
    (inside : tid < block.blockDim) (col : d < block.headDim) :
    block.qOffset + FlashBlock.rowElement (block.qRow tid) block.launch.strideQ.2.2 d =
      block.qPlace (block.qRow tid) d := by
  have rows := row_in_range fullBlock inside
  unfold FlashBlock.qOffset FlashBlock.rowElement
  rw [fullBlock.strideQ]
  exact stride_offset_exact (batch_in_range fullBlock).1 fullBlock.dispatched.qHeads.le
    (head_in_range fullBlock).1 (by omega) (Int.natCast_nonneg _) (Int.natCast_nonneg _)
    (Int.natCast_nonneg _) ((q_place_range fullBlock inside col).2.trans_le fullBlock.qFits)

theorem kv_address (fullBlock : FullBlock block group) {row d : Nat}
    (inside : (row : Int) < block.launch.seqKv) (col : d < block.headDim) :
    block.kvOffset + FlashBlock.rowElement row block.launch.strideK.2.2 d =
      block.kvPlace row d := by
  unfold FlashBlock.kvOffset FlashBlock.rowElement
  rw [fullBlock.dispatched.strideK]
  exact stride_offset_exact (batch_in_range fullBlock).1 fullBlock.dispatched.kvHeads.le
    (kv_head_in_range fullBlock).1 (by omega) (Int.natCast_nonneg _) (Int.natCast_nonneg _)
    (Int.natCast_nonneg _) ((kv_place_range fullBlock inside col).2.trans_le fullBlock.kvFits)

end Launch

/-! ## What the cells stand for -/

variable {fwd : FlashFwd ℝ} {group : Int}

/-- The row of a warp; all its threads have the same. -/
theorem row_of_warp (block : FlashBlock ℝ) {tid other : Nat}
    (same : FlashBlock.row tid = FlashBlock.row other) : rowOf block tid = rowOf block other := by
  unfold rowOf FlashBlock.qRow
  rw [same]

noncomputable def blockRow (fwd : FlashFwd ℝ) (r : Nat) : AttnRow ℝ :=
  rowOf fwd.toFlashBlock (32 * r)

theorem block_row_of (fwd : FlashFwd ℝ) (tid : Nat) :
    blockRow fwd (FlashBlock.row tid) = rowOf fwd.toFlashBlock tid := by
  refine row_of_warp _ ?_
  unfold FlashBlock.row
  omega

noncomputable def cellValue (fwd : FlashFwd ℝ) (n : Nat) : SharedArray × Nat → ℝ
  | (.q, index) => (blockRow fwd (index / fwd.headDim)).q (index % fwd.headDim)
  | (.k, index) => fwd.tileElement fwd.K n index
  | (.v, index) => fwd.tileElement fwd.V n index
  | (.s, index) => (blockRow fwd (index / fwd.bc)).sS (n * fwd.bc) (index % fwd.bc)

theorem cell_value_q (fwd : FlashFwd ℝ) (n tid : Nat) {d : Nat} (col : d < fwd.headDim) :
    cellValue fwd n (.q, FlashBlock.row tid * fwd.headDim + d) =
      (rowOf fwd.toFlashBlock tid).q d := by
  unfold cellValue
  dsimp only
  rw [row_major_div col, row_major_mod col, block_row_of]

theorem cell_value_s (fwd : FlashFwd ℝ) (n tid : Nat) {j : Nat} (col : j < fwd.bc) :
    cellValue fwd n (.s, FlashBlock.row tid * fwd.bc + j) =
      (rowOf fwd.toFlashBlock tid).sS (n * fwd.bc) j := by
  unfold cellValue
  dsimp only
  rw [row_major_div col, row_major_mod col, block_row_of]

def Filled (fwd : FlashFwd ℝ) (n : Nat) (arrays : List SharedArray) (s : SharedState ℝ) : Prop :=
  ∀ array ∈ arrays, ∀ index < fwd.arraySize array,
    s.cells (array, index) = some (cellValue fwd n (array, index))

theorem filled_update {n : Nat} {arrays : List SharedArray} {s : SharedState ℝ}
    (filled : Filled fwd n arrays s) {array : SharedArray} (other : array ∉ arrays) (index : Nat)
    (value : ℝ) :
    Filled fwd n arrays { s with
      cells := Function.update s.cells (array, index) (some value) } := by
  intro listed member position inside
  have different : (listed, position) ≠ (array, index) := by
    rintro ⟨⟩
    exact other member
  dsimp only
  rw [Function.update_of_ne different]
  exact filled listed member position inside

noncomputable def rowState (fwd : FlashFwd ℝ) (n : Nat) (tid : Nat) : RowState ℝ :=
  (List.range n).foldl ((rowOf fwd.toFlashBlock tid).tileStep fwd.expDiff) AttnRow.start

/-- The registers of a thread agree with the state of a row. -/
structure Agrees (fwd : FlashFwd ℝ) (state : RowState ℝ) (lane : Lane ℝ) : Prop where
  m : lane.m = state.m
  l : lane.l = state.l
  o : ∀ d < fwd.headDim, lane.o d = state.o d

structure Progress (fwd : FlashFwd ℝ) (n : Nat)
    (machine : Machine fwd.Thread (SharedState ℝ) (Lane ℝ)) : Prop where
  lanes : ∀ tid : fwd.Thread, Agrees fwd (rowState fwd n tid) (machine.regs tid)
  unwritten : machine.shared.o = [] ∧ machine.shared.lse = []

noncomputable def blockStep (fwd : FlashFwd ℝ) (tid : fwd.Thread) (op : FlashOp)
    (machine : Machine fwd.Thread (SharedState ℝ) (Lane ℝ)) :
    Option (Machine fwd.Thread (SharedState ℝ) (Lane ℝ)) :=
  machineStep (fun tid : fwd.Thread => fwd.step tid) tid op machine

theorem read_global_eq {size : Int} {data : Int → ℝ} {index : Int}
    (inside : 0 ≤ index ∧ index < size) : readGlobal size data index = some (data index) :=
  if_pos inside

/-! ## Fill phases -/

theorem block_step_store {tid : fwd.Thread} {op : FlashOp}
    {machine : Machine fwd.Thread (SharedState ℝ) (Lane ℝ)} {shared : SharedState ℝ}
    (stored : fwd.step tid op machine.shared (machine.regs tid) =
      some (shared, machine.regs tid)) :
    blockStep fwd tid op machine = some { machine with shared } := by
  unfold blockStep machineStep
  dsimp only
  rw [stored]
  simp

theorem fills_of_store {n : Nat} {arrays : List SharedArray} {tid : fwd.Thread} {op : FlashOp}
    {array : SharedArray} {index : Nat} (other : array ∉ arrays)
    (stored : ∀ s lane, Filled fwd n arrays s → fwd.step tid op s lane =
      some ({ s with
        cells := Function.update s.cells (array, index)
          (some (cellValue fwd n (array, index))) }, lane)) :
    Fills (blockStep fwd) (fun machine => machine.shared.cells) (cellValue fwd n)
      (fun machine => Filled fwd n arrays machine.shared ∧ Progress fwd n machine) tid op
      (array, index) := by
  rintro machine ⟨filled, progress⟩
  refine ⟨_, block_step_store (stored machine.shared (machine.regs tid) filled),
    ⟨filled_update filled other index _, ⟨progress.lanes, progress.unwritten⟩⟩, rfl⟩

theorem write_cell_eq {array : SharedArray} {index : Nat} (inside : index < fwd.arraySize array)
    (value : ℝ) (s : SharedState ℝ) : fwd.writeCell array index value s =
      some { s with cells := Function.update s.cells (array, index) (some value) } :=
  if_pos inside

theorem read_q_eq (fullBlock : FullBlock fwd.toFlashBlock group) {tid d : Nat}
    (inside : tid < fwd.blockDim) (col : d < fwd.headDim) :
    fwd.readQ tid d = some ((rowOf fwd.toFlashBlock tid).q d) := by
  unfold FlashFwd.readQ
  rw [if_pos (active_of_full fullBlock inside), q_address fullBlock inside col, read_global_eq]
  · rfl
  · exact q_place_range fullBlock inside col

theorem read_kv_eq (fullBlock : FullBlock fwd.toFlashBlock group) (wide : 0 < fwd.headDim)
    (data : Int → ℝ) (n i : Nat) : fwd.readKv data n i = some (fwd.tileElement data n i) := by
  have col := Nat.mod_lt i wide
  unfold FlashFwd.readKv FlashBlock.tileElement
  dsimp only
  split
  case isTrue row =>
    rw [kv_address fullBlock row col, read_global_eq]
    exact kv_place_range fullBlock row col
  case isFalse => rfl

def target (fwd : FlashFwd ℝ) (tid : fwd.Thread) : FlashOp → SharedArray × Nat
  | .loadQ d => (.q, FlashBlock.row tid * fwd.headDim + d)
  | .loadK _ i => (.k, i)
  | .loadV _ i => (.v, i)
  | .score _ j => (.s, FlashBlock.row tid * fwd.bc + j)
  | _ => (.s, 0)

section Fill

theorem thread_row_lt (fullBlock : FullBlock fwd.toFlashBlock group) (tid : fwd.Thread) :
    FlashBlock.row tid < fwd.br := row_lt fullBlock.dispatched tid.isLt

theorem score_inside (fullBlock : FullBlock fwd.toFlashBlock group) (tid : fwd.Thread) {j : Nat}
    (key : j < fwd.bc) : FlashBlock.row tid * fwd.bc + j < fwd.arraySize .s :=
  row_major_lt (thread_row_lt fullBlock tid) key

theorem exists_lane (fullBlock : FullBlock fwd.toFlashBlock group) {r : Nat} (row : r < fwd.br)
    (lane : Nat) : ∃ tid : fwd.Thread, FlashBlock.row tid = r ∧
      FlashBlock.lane tid = lane % 32 := by
  have threads := fullBlock.dispatched.threads
  have small := Nat.mod_lt lane (show 0 < 32 by decide)
  refine ⟨⟨32 * r + lane % 32, ?_⟩, ?_, ?_⟩
  · rw [threads]
    omega
  · unfold FlashBlock.row
    dsimp only
    omega
  · unfold FlashBlock.lane
    dsimp only
    omega

theorem load_q_triple (fullBlock : FullBlock fwd.toFlashBlock group) :
    PhaseTriple (blockStep fwd) (Progress fwd 0) (fun tid => fwd.loadQ tid)
      fun machine => Filled fwd 0 [.q] machine.shared ∧ Progress fwd 0 machine := by
  have filled := fill_triple (fun tid : fwd.Thread => fwd.loadQ tid)
    (fun machine => machine.shared.cells) (cellValue fwd 0)
    (fun machine => Filled fwd 0 [] machine.shared ∧ Progress fwd 0 machine) (target fwd) (by
      intro tid op member
      obtain ⟨d, dealt, rfl⟩ := List.mem_map.mp member
      have col : d < fwd.headDim := ((mem_strided (by decide)).mp dealt).1
      refine fills_of_store (List.not_mem_nil) fun s lane _ => ?_
      unfold FlashFwd.step
      dsimp only
      rw [read_q_eq fullBlock tid.isLt col, Option.bind_eq_bind, Option.bind_some,
        write_cell_eq (row_major_lt (thread_row_lt fullBlock tid) col), cell_value_q fwd 0 tid col]
      rfl)
  intro order interleaves machine progress
  obtain ⟨final, executed, ⟨-, kept⟩, stored⟩ := filled order interleaves machine
    ⟨fun array member => (nomatch member), progress⟩
  refine ⟨final, executed, fun array member index inside => ?_, kept⟩
  obtain rfl := List.mem_singleton.mp member
  have wide := (block_fits_tile _ fullBlock.dispatched.tile).2.2.1
  have col : index % fwd.headDim < fwd.headDim := Nat.mod_lt index wide
  have row : index / fwd.headDim < fwd.br :=
    Nat.div_lt_of_lt_mul (by rwa [Nat.mul_comm])
  obtain ⟨tid, same, lane⟩ := exists_lane fullBlock row (index % fwd.headDim)
  have cell := stored tid (.loadQ (index % fwd.headDim)) (List.mem_map_of_mem (by
    rw [lane]
    exact strided_covers (by decide) col))
  dsimp only [target] at cell
  rwa [same, Nat.div_add_mod'] at cell

theorem load_kv_triple (fullBlock : FullBlock fwd.toFlashBlock group) (n : Nat) :
    PhaseTriple (blockStep fwd)
      (fun machine => Filled fwd n [.q] machine.shared ∧ Progress fwd n machine)
      (fun tid => fwd.loadKv n tid)
      fun machine => Filled fwd n [.q, .k, .v] machine.shared ∧ Progress fwd n machine := by
  have wide := (block_fits_tile _ fullBlock.dispatched.tile).2.2.1
  have filled := fill_triple (fun tid : fwd.Thread => fwd.loadKv n tid)
    (fun machine => machine.shared.cells) (cellValue fwd n)
    (fun machine => Filled fwd n [.q] machine.shared ∧ Progress fwd n machine) (target fwd) (by
      intro tid op member
      have positive : 0 < fwd.blockDim := Nat.zero_lt_of_lt tid.isLt
      rcases List.mem_append.mp member with first | second
      · obtain ⟨i, dealt, rfl⟩ := List.mem_map.mp first
        have inside := ((mem_strided positive).mp dealt).1
        refine fills_of_store (by decide) fun s lane _ => ?_
        unfold FlashFwd.step
        dsimp only
        rw [read_kv_eq fullBlock wide, Nat.div_add_mod', Option.bind_eq_bind, Option.bind_some,
          write_cell_eq inside]
        rfl
      · obtain ⟨i, dealt, rfl⟩ := List.mem_map.mp second
        have inside := ((mem_strided positive).mp dealt).1
        refine fills_of_store (by decide) fun s lane _ => ?_
        unfold FlashFwd.step
        dsimp only
        rw [read_kv_eq fullBlock wide, Nat.div_add_mod', Option.bind_eq_bind, Option.bind_some,
          write_cell_eq inside]
        rfl)
  intro order interleaves machine before
  obtain ⟨final, executed, kept, stored⟩ := filled order interleaves machine before
  refine ⟨final, executed, fun array member index inside => ?_, kept.2⟩
  have positive : 0 < fwd.blockDim := by
    have rows := (block_fits_tile _ fullBlock.dispatched.tile).1
    have threads := fullBlock.dispatched.threads
    unfold FlashBlock.br at threads
    omega
  have turn := Nat.mod_lt index positive
  simp only [List.mem_cons, List.not_mem_nil, or_false] at member
  rcases member with rfl | rfl | rfl
  · exact kept.1 .q List.mem_cons_self index inside
  · exact stored ⟨_, turn⟩ (.loadK n index) (List.mem_append_left _
      (List.mem_map_of_mem (strided_covers positive inside)))
  · exact stored ⟨_, turn⟩ (.loadV n index) (List.mem_append_right _
      (List.mem_map_of_mem (strided_covers positive inside)))

theorem read_cell_filled {n : Nat} {arrays : List SharedArray} {s : SharedState ℝ}
    (filled : Filled fwd n arrays s) {array : SharedArray} (member : array ∈ arrays) {index : Nat}
    (inside : index < fwd.arraySize array) :
    fwd.readCell array index s = some (cellValue fwd n (array, index)) := by
  unfold FlashFwd.readCell
  rw [if_pos inside]
  exact filled array member index inside

theorem dot_eq (fullBlock : FullBlock fwd.toFlashBlock group) (tid : fwd.Thread) {n j : Nat}
    (key : j < fwd.bc) {s : SharedState ℝ} (filled : Filled fwd n [.q, .k, .v] s) :
    fwd.dot tid j s = some ((rowOf fwd.toFlashBlock tid).dot (n * fwd.bc) j) := by
  unfold FlashFwd.dot AttnRow.dot
  refine foldlM_some (fun d member dot => ?_) 0
  have col : d < fwd.headDim := List.mem_range.mp member
  rw [read_cell_filled filled (by decide)
      (row_major_lt (thread_row_lt fullBlock tid) col : _ < fwd.arraySize .q),
    read_cell_filled filled (by decide) (row_major_lt key col : _ < fwd.arraySize .k),
    cell_value_q fwd n tid col, ← (row_of_tiles fwd.toFlashBlock tid col).1]
  rfl

theorem score_at_eq (fullBlock : FullBlock fwd.toFlashBlock group) (tid : fwd.Thread) {n j : Nat}
    (key : j < fwd.bc) {s : SharedState ℝ} (filled : Filled fwd n [.q, .k, .v] s) :
    fwd.scoreAt n tid j s = some ((rowOf fwd.toFlashBlock tid).sS (n * fwd.bc) j) := by
  have masked := row_of_masked fwd.toFlashBlock tid n j
  unfold FlashFwd.scoreAt AttnRow.sS
  by_cases hidden : fwd.Masked n tid j
  · rw [if_pos hidden, if_pos (masked.mpr hidden)]
  · rw [if_neg hidden, if_neg fun both => hidden (masked.mp both), dot_eq fullBlock tid key filled]
    rfl

theorem scores_triple (fullBlock : FullBlock fwd.toFlashBlock group) (n : Nat) :
    PhaseTriple (blockStep fwd)
      (fun machine => Filled fwd n [.q, .k, .v] machine.shared ∧ Progress fwd n machine)
      (fun _ => fwd.scores n)
      fun machine => Filled fwd n [.q, .k, .v, .s] machine.shared ∧ Progress fwd n machine := by
  have filled := fill_triple (fun _ : fwd.Thread => fwd.scores n)
    (fun machine => machine.shared.cells) (cellValue fwd n)
    (fun machine => Filled fwd n [.q, .k, .v] machine.shared ∧ Progress fwd n machine)
    (target fwd) (by
      intro tid op member
      obtain ⟨j, listed, rfl⟩ := List.mem_map.mp member
      have key : j < fwd.bc := List.mem_range.mp listed
      refine fills_of_store (by decide) fun s lane before => ?_
      unfold FlashFwd.step
      dsimp only
      rw [score_at_eq fullBlock tid key before, Option.bind_eq_bind, Option.bind_some,
        write_cell_eq (score_inside fullBlock tid key), cell_value_s fwd n tid key]
      rfl)
  intro order interleaves machine before
  obtain ⟨final, executed, kept, stored⟩ := filled order interleaves machine before
  refine ⟨final, executed, fun array member index inside => ?_, kept.2⟩
  by_cases scored : array = .s
  · subst scored
    have wide := (block_fits_tile _ fullBlock.dispatched.tile).2.1
    have key : index % fwd.bc < fwd.bc := Nat.mod_lt index wide
    have row : index / fwd.bc < fwd.br := Nat.div_lt_of_lt_mul (by rwa [Nat.mul_comm])
    obtain ⟨tid, same, -⟩ := exists_lane fullBlock row 0
    have cell := stored tid (.score n (index % fwd.bc))
      (List.mem_map_of_mem (List.mem_range.mpr key))
    dsimp only [target] at cell
    rwa [same, Nat.div_add_mod'] at cell
  · refine kept.1 array ?_ index inside
    simpa [scored] using member

end Fill

/-! ## The softmax of an iteration -/

section Softmax

noncomputable def newMax (fwd : FlashFwd ℝ) (n tid : Nat) : ℝ :=
  max (rowState fwd n tid).m ((rowOf fwd.toFlashBlock tid).mTile (n * fwd.bc))

noncomputable def rawScore (fwd : FlashFwd ℝ) (n tid j : Nat) : ℝ :=
  (rowOf fwd.toFlashBlock tid).sS (n * fwd.bc) j

noncomputable def weight (fwd : FlashFwd ℝ) (n tid j : Nat) : ℝ :=
  fwd.expDiff (rawScore fwd n tid j) (newMax fwd n tid)

/-- The registers after an operation that reads the scores before and the weights
behind the loop of the exponentials. -/
noncomputable def predict (fwd : FlashFwd ℝ) (n tid : Nat) : FlashOp → Lane ℝ → Lane ℝ
  | .startTile, lane => { lane with mTile := sentinel }
  | .maxScore j, lane => { lane with mTile := max lane.mTile (rawScore fwd n tid j) }
  | .rescale, lane => { lane with
      mNew := max lane.m lane.mTile
      alpha := fwd.expDiff lane.m (max lane.m lane.mTile)
      lTile := 0 }
  | .readScore j, lane => { lane with x := rawScore fwd n tid j }
  | .addExp j, lane => { lane with lTile := lane.lTile + weight fwd n tid j }
  | .normalise, lane => { lane with
      lNew := lane.alpha * lane.l + lane.lTile
      scOld := if lane.alpha * lane.l + lane.lTile > 0 then
        lane.l * lane.alpha / (lane.alpha * lane.l + lane.lTile) else 0
      scNew := if lane.alpha * lane.l + lane.lTile > 0 then
        1 / (lane.alpha * lane.l + lane.lTile) else 0 }
  | .output d, lane => { lane with
      o := Function.update lane.o d (lane.scOld * lane.o d + lane.scNew *
        (rowOf fwd.toFlashBlock tid).pv fwd.expDiff (n * fwd.bc) (newMax fwd n tid) d) }
  | .nextTile, lane => { lane with m := lane.mNew, l := lane.lNew }
  | _, lane => lane

/-- When an operation reads what is predicted, and writes the weight. -/
def Sound (fwd : FlashFwd ℝ) (n tid : Nat) (done : List FlashOp) (lane : Lane ℝ) :
    FlashOp → Prop
  | .maxScore j => j < fwd.bc ∧ .readScore j ∉ done
  | .readScore j => j < fwd.bc ∧ .readScore j ∉ done
  | .writeExp j => j < fwd.bc ∧ .readScore j ∈ done ∧
      lane.x = rawScore fwd n tid j ∧ lane.mNew = newMax fwd n tid
  | .addExp j => j < fwd.bc ∧ .writeExp j ∈ done
  | .output d => d < fwd.headDim ∧ ∀ j < fwd.bc, .writeExp j ∈ done
  | .startTile => True
  | .rescale => True
  | .normalise => True
  | .nextTile => True
  | _ => False

/-! ### One thread -/

structure Rescaled (fwd : FlashFwd ℝ) (n tid : Nat) (lane : Lane ℝ) : Prop where
  agrees : Agrees fwd (rowState fwd n tid) lane
  mNew : lane.mNew = newMax fwd n tid
  alpha : lane.alpha = fwd.expDiff (rowState fwd n tid).m (newMax fwd n tid)

structure Summed (fwd : FlashFwd ℝ) (n tid k : Nat) (done : List FlashOp) (lane : Lane ℝ) :
    Prop where
  rescaled : Rescaled fwd n tid lane
  unread : ∀ j, k ≤ j → .readScore j ∉ done
  written : ∀ j < k, .writeExp j ∈ done
  lTile : lane.lTile = (List.range k).foldl (fun l j => l + weight fwd n tid j) 0

structure Weighed (fwd : FlashFwd ℝ) (n tid k : Nat) (done : List FlashOp) (lane : Lane ℝ) :
    Prop where
  mNew : lane.mNew = (rowState fwd (n + 1) tid).m
  lNew : lane.lNew = (rowState fwd (n + 1) tid).l
  written : ∀ j < fwd.bc, .writeExp j ∈ done
  scales : ∀ d, lane.scOld * (rowState fwd n tid).o d + lane.scNew *
    (rowOf fwd.toFlashBlock tid).pv fwd.expDiff (n * fwd.bc) (newMax fwd n tid) d =
      (rowState fwd (n + 1) tid).o d
  before : ∀ d < k, lane.o d = (rowState fwd (n + 1) tid).o d
  behind : ∀ d < fwd.headDim, k ≤ d → lane.o d = (rowState fwd n tid).o d

theorem row_state_succ (fwd : FlashFwd ℝ) (n tid : Nat) : rowState fwd (n + 1) tid =
    (rowOf fwd.toFlashBlock tid).tileStep fwd.expDiff (rowState fwd n tid) n := by
  unfold rowState
  rw [List.range_succ, List.foldl_append]
  rfl

variable (n tid : Nat) {lane : Lane ℝ}

theorem passes_maxima (agrees : Agrees fwd (rowState fwd n tid) lane) :
    Passes (Sound fwd n tid) (predict fwd n tid)
      (fun done lane => Rescaled fwd n tid lane ∧ ∀ j, .readScore j ∉ done ∧ lane.lTile = 0) []
      ([.startTile] ++ (List.range fwd.bc).map .maxScore ++ [.rescale]) lane := by
  refine passes_append (M := fun done lane => Agrees fwd (rowState fwd n tid) lane ∧
    lane.mTile = (rowOf fwd.toFlashBlock tid).mTile (n * fwd.bc) ∧ ∀ j, .readScore j ∉ done)
    ⟨trivial, ?_⟩ ?_
  · apply passes_map (I := fun k (done : List FlashOp) (lane : Lane ℝ) =>
      Agrees fwd (rowState fwd n tid) lane ∧
        lane.mTile = (List.range k).foldl (fun m j => max m (rawScore fwd n tid j)) sentinel ∧
        ∀ j, .readScore j ∉ done) fwd.bc
    · exact ⟨⟨agrees.m, agrees.l, agrees.o⟩, rfl, by simp⟩
    · rintro j key done lane ⟨same, maximum, unread⟩
      refine ⟨⟨key, unread j⟩, ⟨same.m, same.l, same.o⟩, ?_, fun i => ?_⟩
      · rw [List.range_succ, List.foldl_append, ← maximum]
        rfl
      · simp [unread i]
  · rintro done lane ⟨same, maximum, unread⟩
    have larger : max lane.m lane.mTile = newMax fwd n tid := by rw [same.m, maximum]; rfl
    refine ⟨trivial, ⟨⟨same.m, same.l, same.o⟩, larger, ?_⟩, fun j => ⟨by simp [unread j], rfl⟩⟩
    change fwd.expDiff lane.m (max lane.m lane.mTile) = _
    rw [larger, same.m]

theorem passes_exponentials {done : List FlashOp} (start : Summed fwd n tid 0 done lane) :
    Passes (Sound fwd n tid) (predict fwd n tid) (Summed fwd n tid fwd.bc) done
      fwd.exponentials lane := by
  refine passes_loop fwd.bc start fun j key done lane before => ?_
  have same := before.rescaled.agrees
  refine ⟨⟨key, before.unread j (le_refl j)⟩, ⟨key, by simp, rfl, before.rescaled.mNew⟩,
    ⟨key, by simp⟩, ⟨⟨⟨same.m, same.l, same.o⟩, before.rescaled.mNew, before.rescaled.alpha⟩,
      fun i later => ?_, fun i earlier => ?_, ?_⟩⟩
  · have fresh := before.unread i (Nat.le_of_succ_le later)
    have other : i ≠ j := by omega
    simp [fresh, other]
  · rcases Nat.lt_succ_iff_lt_or_eq.mp earlier with old | rfl
    · simp [before.written i old]
    · simp
  · rw [List.range_succ, List.foldl_append, ← before.lTile]
    rfl

theorem weighed_start {done : List FlashOp} (summed : Summed fwd n tid fwd.bc done lane) :
    Weighed fwd n tid 0 (done ++ [.normalise]) (predict fwd n tid .normalise lane) := by
  have same := summed.rescaled.agrees
  have total : lane.lTile =
      (rowOf fwd.toFlashBlock tid).lTile fwd.expDiff (n * fwd.bc) (newMax fwd n tid) := summed.lTile
  refine ⟨?_, ?_, fun j key => List.mem_append_left _ (summed.written j key), fun d => ?_,
    fun d impossible => absurd impossible (Nat.not_lt_zero d), fun d col _ => same.o d col⟩
  · rw [row_state_succ]
    exact summed.rescaled.mNew
  · rw [row_state_succ]
    dsimp only [predict]
    rw [summed.rescaled.alpha, same.l, total]
    rfl
  · rw [row_state_succ]
    dsimp only [predict]
    rw [summed.rescaled.alpha, same.l, total]
    rfl

theorem passes_outputs {done : List FlashOp} (start : Weighed fwd n tid 0 done lane) :
    Passes (Sound fwd n tid) (predict fwd n tid) (Weighed fwd n tid fwd.headDim) done
      ((List.range fwd.headDim).map .output) lane := by
  refine passes_map fwd.headDim start fun d col done lane before => ⟨⟨col, before.written⟩,
    before.mNew, before.lNew, fun j key => List.mem_append_left _ (before.written j key),
    before.scales, fun i earlier => ?_, fun i inside later => ?_⟩
  · dsimp only [predict]
    rcases Nat.lt_succ_iff_lt_or_eq.mp earlier with old | rfl
    · rw [Function.update_of_ne (Nat.ne_of_lt old)]
      exact before.before i old
    · rw [Function.update_self, before.behind i col (le_refl i)]
      exact before.scales i
  · dsimp only [predict]
    rw [Function.update_of_ne (Nat.ne_of_gt later)]
    exact before.behind i inside (Nat.le_of_succ_le later)

theorem passes_softmax (agrees : Agrees fwd (rowState fwd n tid) lane) :
    Passes (Sound fwd n tid) (predict fwd n tid)
      (fun _ lane => Agrees fwd (rowState fwd (n + 1) tid) lane) [] fwd.softmax lane := by
  have summed : Passes (Sound fwd n tid) (predict fwd n tid) (Summed fwd n tid fwd.bc) []
      ([.startTile] ++ (List.range fwd.bc).map .maxScore ++ [.rescale] ++ fwd.exponentials) lane :=
    passes_append (passes_maxima n tid agrees) fun done lane before =>
      passes_exponentials n tid ⟨before.1, fun j _ => (before.2 j).1,
        fun j impossible => absurd impossible (Nat.not_lt_zero j), (before.2 0).2⟩
  have weighed : Passes (Sound fwd n tid) (predict fwd n tid) (Weighed fwd n tid 0) []
      ([.startTile] ++ (List.range fwd.bc).map .maxScore ++ [.rescale] ++ fwd.exponentials ++
        [.normalise]) lane :=
    passes_append summed fun done lane before => ⟨trivial, weighed_start n tid before⟩
  refine passes_append (passes_append weighed fun done lane before =>
    passes_outputs n tid before) fun done lane before => ⟨trivial, ?_⟩
  exact ⟨before.mNew, before.lNew, fun d col => before.before d col⟩

/-! ### All threads -/

/-- Some thread of the warp of `tid` has overwritten the score `j`. -/
def Overwritten (fwd : FlashFwd ℝ) (done : List (fwd.Thread × FlashOp)) (tid : fwd.Thread)
    (j : Nat) : Prop :=
  ∃ other : fwd.Thread, FlashBlock.row other = FlashBlock.row tid ∧ (other, .writeExp j) ∈ done

/-- What shared memory holds after the operations `done` of the softmax phase. -/
structure Replacing (fwd : FlashFwd ℝ) (n : Nat) (done : List (fwd.Thread × FlashOp))
    (s : SharedState ℝ) : Prop where
  kept : Filled fwd n [.q, .k, .v] s
  fresh : ∀ tid : fwd.Thread, ∀ j < fwd.bc, ¬Overwritten fwd done tid j →
    s.cells (.s, FlashBlock.row tid * fwd.bc + j) = some (rawScore fwd n tid j)
  replaced : ∀ tid : fwd.Thread, ∀ j < fwd.bc, Overwritten fwd done tid j →
    s.cells (.s, FlashBlock.row tid * fwd.bc + j) = some (weight fwd n tid j)
  unwritten : s.o = [] ∧ s.lse = []

variable {n} {done : List (fwd.Thread × FlashOp)} {s : SharedState ℝ}

theorem replacing_start {machine : Machine fwd.Thread (SharedState ℝ) (Lane ℝ)}
    (fullBlock : FullBlock fwd.toFlashBlock group)
    (filled : Filled fwd n [.q, .k, .v, .s] machine.shared) (progress : Progress fwd n machine) :
    Replacing fwd n [] machine.shared := by
  refine ⟨fun array member => filled array ?_, fun tid j key _ => ?_, fun tid j key => ?_,
    progress.unwritten⟩
  · exact List.mem_append_left [.s] member
  · rw [filled .s (by decide) _ (score_inside fullBlock tid key),
      cell_value_s fwd n tid key]
    rfl
  · rintro ⟨other, -, impossible⟩
    exact nomatch impossible

theorem overwritten_snoc {tid other : fwd.Thread} {op : FlashOp} {j : Nat}
    (different : op = .writeExp j → FlashBlock.row other ≠ FlashBlock.row tid) :
    Overwritten fwd (done ++ [(other, op)]) tid j ↔ Overwritten fwd done tid j := by
  constructor
  · rintro ⟨writer, same, member⟩
    rcases List.mem_append.mp member with old | new
    · exact ⟨writer, same, old⟩
    · obtain ⟨rfl, rfl⟩ := Prod.mk.inj (List.mem_singleton.mp new)
      exact absurd same (different rfl)
  · rintro ⟨writer, same, member⟩
    exact ⟨writer, same, List.mem_append_left _ member⟩

theorem replacing_other (replacing : Replacing fwd n done s) (tid : fwd.Thread) {op : FlashOp}
    (reads : ∀ j, op ≠ .writeExp j) : Replacing fwd n (done ++ [(tid, op)]) s := by
  refine ⟨replacing.kept, fun other j key => ?_, fun other j key => ?_, replacing.unwritten⟩
  · rw [overwritten_snoc fun writes => absurd writes (reads j)]
    exact replacing.fresh other j key
  · rw [overwritten_snoc fun writes => absurd writes (reads j)]
    exact replacing.replaced other j key

/-- The threads of a warp write the same weight. -/
theorem replacing_write (replacing : Replacing fwd n done s) (tid : fwd.Thread) {j : Nat}
    (key : j < fwd.bc) :
    Replacing fwd n (done ++ [(tid, .writeExp j)]) { s with
      cells := Function.update s.cells (.s, FlashBlock.row tid * fwd.bc + j)
        (some (weight fwd n tid j)) } := by
  have elsewhere : ∀ other : fwd.Thread, ∀ i < fwd.bc,
      ¬(FlashBlock.row other = FlashBlock.row tid ∧ i = j) →
      Function.update s.cells (.s, FlashBlock.row tid * fwd.bc + j) (some (weight fwd n tid j))
        (.s, FlashBlock.row other * fwd.bc + i) =
          s.cells (.s, FlashBlock.row other * fwd.bc + i) := by
    intro other i inside different
    refine Function.update_of_ne (fun same => different ?_) _ _
    exact row_major_injective inside key (Prod.mk.inj same).2
  refine ⟨filled_update replacing.kept (by decide) _ _, fun other i inside untouched => ?_,
    fun other i inside touched => ?_, replacing.unwritten⟩
  · have different : ¬(FlashBlock.row other = FlashBlock.row tid ∧ i = j) := by
      rintro ⟨same, rfl⟩
      exact untouched ⟨tid, same.symm, by simp⟩
    dsimp only
    rw [elsewhere other i inside different]
    refine replacing.fresh other i inside fun touched => untouched ?_
    obtain ⟨writer, same, member⟩ := touched
    exact ⟨writer, same, List.mem_append_left _ member⟩
  · dsimp only
    by_cases here : FlashBlock.row other = FlashBlock.row tid ∧ i = j
    · obtain ⟨same, rfl⟩ := here
      rw [same, Function.update_self]
      unfold weight rawScore newMax rowState
      rw [row_of_warp fwd.toFlashBlock same]
    · rw [elsewhere other i inside here]
      refine replacing.replaced other i inside ((overwritten_snoc ?_).mp touched)
      rintro ⟨⟩ same
      exact here ⟨same.symm, rfl⟩

section Reads

variable {order after : List (fwd.Thread × FlashOp)} {tid : fwd.Thread} {lane : Lane ℝ}

/-- A thread that has yet to read a score finds it unchanged. -/
theorem not_overwritten {op : FlashOp} (readsFirst : fwd.ReadsFirst order)
    (split : order = done ++ (tid, op) :: after) {j : Nat} (unread : .readScore j ∉ ownOps done tid) :
    ¬Overwritten fwd done tid j := by
  rintro ⟨writer, same, member⟩
  obtain ⟨first, second, rfl⟩ := List.append_of_mem member
  rw [List.append_assoc, List.cons_append] at split
  have read := readsFirst first writer j _ split tid same.symm
  exact unread (mem_own_ops.mpr (List.mem_append_left _ read))

theorem score_read (fullBlock : FullBlock fwd.toFlashBlock group) (replacing : Replacing fwd n done s)
    {j : Nat} (key : j < fwd.bc) (untouched : ¬Overwritten fwd done tid j) :
    fwd.readCell .s (FlashBlock.row tid * fwd.bc + j) s = some (rawScore fwd n tid j) := by
  unfold FlashFwd.readCell
  rw [if_pos (score_inside fullBlock tid key)]
  exact replacing.fresh tid j key untouched

theorem weight_read (fullBlock : FullBlock fwd.toFlashBlock group)
    (replacing : Replacing fwd n done s) {j : Nat} (key : j < fwd.bc)
    (written : .writeExp j ∈ ownOps done tid) :
    fwd.readCell .s (FlashBlock.row tid * fwd.bc + j) s = some (weight fwd n tid j) := by
  unfold FlashFwd.readCell
  rw [if_pos (score_inside fullBlock tid key)]
  exact replacing.replaced tid j key ⟨tid, rfl, mem_own_ops.mp written⟩

theorem weighted_column_eq (fullBlock : FullBlock fwd.toFlashBlock group)
    (replacing : Replacing fwd n done s) {d : Nat} (col : d < fwd.headDim)
    (written : ∀ j < fwd.bc, .writeExp j ∈ ownOps done tid) :
    fwd.weightedColumn tid d s = some ((rowOf fwd.toFlashBlock tid).pv fwd.expDiff (n * fwd.bc)
      (newMax fwd n tid) d) := by
  unfold FlashFwd.weightedColumn AttnRow.pv
  refine foldlM_some (fun j member pv => ?_) 0
  have key : j < fwd.bc := List.mem_range.mp member
  rw [weight_read fullBlock replacing key (written j key),
    read_cell_filled replacing.kept (by decide) (row_major_lt key col : _ < fwd.arraySize .v),
    ← (row_of_tiles fwd.toFlashBlock tid col).2]
  rfl

theorem softmax_step (fullBlock : FullBlock fwd.toFlashBlock group)
    (readsFirst : fwd.ReadsFirst order) {op : FlashOp} (split : order = done ++ (tid, op) :: after)
    (sound : Sound fwd n tid (ownOps done tid) lane op) (replacing : Replacing fwd n done s) :
    ∃ s', fwd.step tid op s lane = some (s', predict fwd n tid op lane) ∧
      Replacing fwd n (done ++ [(tid, op)]) s' := by
  have kept : (∀ j, op ≠ .writeExp j) → Replacing fwd n (done ++ [(tid, op)]) s :=
    replacing_other replacing tid
  cases op with
  | startTile => exact ⟨s, rfl, kept (by simp)⟩
  | rescale => exact ⟨s, rfl, kept (by simp)⟩
  | normalise => exact ⟨s, rfl, kept (by simp)⟩
  | nextTile => exact ⟨s, rfl, kept (by simp)⟩
  | maxScore j =>
      refine ⟨s, ?_, kept (by simp)⟩
      unfold FlashFwd.step
      dsimp only
      rw [score_read fullBlock replacing sound.1 (not_overwritten readsFirst split sound.2)]
      rfl
  | readScore j =>
      refine ⟨s, ?_, kept (by simp)⟩
      unfold FlashFwd.step
      dsimp only
      rw [score_read fullBlock replacing sound.1 (not_overwritten readsFirst split sound.2)]
      rfl
  | writeExp j =>
      refine ⟨_, ?_, replacing_write replacing tid sound.1⟩
      unfold FlashFwd.step
      dsimp only
      rw [write_cell_eq (score_inside fullBlock tid sound.1), sound.2.2.1, sound.2.2.2]
      rfl
  | addExp j =>
      refine ⟨s, ?_, kept (by simp)⟩
      unfold FlashFwd.step
      dsimp only
      rw [weight_read fullBlock replacing sound.1 sound.2]
      rfl
  | output d =>
      refine ⟨s, ?_, kept (by simp)⟩
      unfold FlashFwd.step
      dsimp only
      rw [weighted_column_eq fullBlock replacing sound.1 sound.2]
      rfl
  | _ => exact sound.elim

end Reads

/-- The softmax phase, where no score is overwritten before the warp has read it. -/
theorem softmax_under (fullBlock : FullBlock fwd.toFlashBlock group) (n : Nat) :
    PhaseUnder fwd.ReadsFirst (blockStep fwd)
      (fun machine => Filled fwd n [.q, .k, .v, .s] machine.shared ∧ Progress fwd n machine)
      (fun _ => fwd.softmax)
      fun machine => Filled fwd (n + 1) [.q] machine.shared ∧ Progress fwd (n + 1) machine := by
  rintro order interleaves readsFirst machine ⟨filled, progress⟩
  obtain ⟨final, executed, replaced, agrees⟩ := private_execute interleaves
    (replacing_start fullBlock filled progress)
    (fun tid => passes_softmax n tid (progress.lanes tid))
    fun before tid op after s lane split sound replacing =>
      softmax_step fullBlock readsFirst split sound replacing
  refine ⟨final, executed, fun array member index inside => ?_, agrees, replaced.unwritten⟩
  obtain rfl := List.mem_singleton.mp member
  exact replaced.kept .q (by decide) index inside

end Softmax

end AmpFormal.FlashAttnPhases
