import AmpFormal.FlashAttnExact

/-!
# Attention of a whole launch

A launch runs one block for each tile of queries and each query head. When the query
tiles divide `S_q`, every block is full, and the memory behind the launch is that of
exact attention: each query head with the KV head of its group, whatever the order of
the threads and of the blocks.
-/

namespace AmpFormal.FlashAttnGrid

open AmpFormal.BarrierPhases AmpFormal.FlashAttnDispatch AmpFormal.FlashAttnKernel
open AmpFormal.FlashAttnCoverage AmpFormal.FlashAttnExact AmpFormal.FlashAttnMachine
open AmpFormal.FlashAttnPhases AmpFormal.FlashAttnRow AmpFormal.FlashAttnSoftmax
open AmpFormal.MatrixLayouts AmpFormal.PhaseRules AmpFormal.WrappedInts

set_option autoImplicit false

/-! ## The launch -/

/-- `blockIdx` as (`qTile`, `bh`). -/
abbrev BlockIdx := Nat × Nat

def InGrid {R : Type*} (launch : Launch R) (block : BlockIdx) : Prop :=
  (block.1 : Int) < launch.grid.1 ∧ (block.2 : Int) < launch.grid.2

instance {R : Type*} (launch : Launch R) (block : BlockIdx) : Decidable (InGrid launch block) :=
  inferInstanceAs (Decidable (_ ∧ _))

structure Tensors where
  Q : Int → ℝ
  K : Int → ℝ
  V : Int → ℝ
  toBf16 : ℝ → ℝ

noncomputable def blockOf (launch : Launch ℝ) (tensors : Tensors) (block : BlockIdx) :
    FlashFwd ℝ where
  launch := launch
  qTile := block.1
  bh := block.2
  Q := tensors.Q
  K := tensors.K
  V := tensors.V
  expDiff := expDiff
  logf := Real.log
  toBf16 := tensors.toBf16

/-! ## Exact attention -/

/-- The row `i` of the query head `hq` of the batch element `b`. -/
@[ext]
structure OutputRow where
  b : Int
  hq : Int
  i : Nat

/-- What the kernel has to work on for a row. -/
def attnRow (launch : Launch ℝ) (tensors : Tensors) (row : OutputRow) : AttnRow ℝ :=
  let hkv := row.hq / (launch.numQHeads / launch.numKvHeads)
  { bc := launch.tile.bc
    headDim := launch.tile.headDim
    seqKv := launch.seqKv.toNat
    qRow := row.i
    causal := launch.causal
    scale := launch.scale
    q := fun d => tensors.Q
      (((row.b * launch.numQHeads + row.hq) * launch.seqQ + row.i) * launch.tile.headDim + d)
    k := fun j d => tensors.K
      (((row.b * launch.numKvHeads + hkv) * launch.seqKv + j) * launch.tile.headDim + d)
    v := fun j d => tensors.V
      (((row.b * launch.numKvHeads + hkv) * launch.seqKv + j) * launch.tile.headDim + d) }

/-- The softmax average of the values of the keys that a row attends to. -/
noncomputable def attention (row : AttnRow ℝ) (d : Nat) : ℝ :=
  (∑ j ∈ attended row, Real.exp (score row j) * row.v j d) / sumExp row

theorem tile_count {br tiles : Int} (positive : 0 < br) (nonneg : 0 ≤ tiles) :
    (br * tiles + br - 1).tdiv br = tiles := by
  have product := Int.mul_nonneg positive.le nonneg
  rw [Int.tdiv_eq_ediv_of_nonneg (by omega), add_sub_assoc,
    Int.mul_add_ediv_left _ _ positive.ne', Int.ediv_eq_zero_of_lt (by omega) (by omega), add_zero]

theorem tile_count_bound {br tiles : Int} (positive : 0 < br) {qTile : Nat}
    (inside : (qTile : Int) < (br * tiles + br - 1).tdiv br) : (qTile : Int) + 1 ≤ tiles := by
  by_cases nonneg : 0 ≤ tiles
  · rw [tile_count positive nonneg] at inside
    exact inside
  · have product : br * tiles ≤ br * -1 := Int.mul_le_mul_of_nonneg_left (by omega) positive.le
    have small : (br * tiles + br - 1).tdiv br ≤ (0 : Int).tdiv br :=
      Int.tdiv_le_tdiv positive (by omega)
    rw [Int.zero_tdiv] at small
    omega

section Blocks

variable {batch seqQ seqKv group : Int} {cfg : AttnCfg ℝ} {launch : Launch ℝ}
variable (carried : LaunchOf batch seqQ seqKv cfg launch)

/-- The arrays of a call have no more elements than an `int` counts. -/
structure OperandsFit {R : Type*} (batch seqQ seqKv : Int) (cfg : AttnCfg R) : Prop where
  batches : 0 ≤ batch
  queries : 0 ≤ seqQ
  q : batch * cfg.numQHeads * seqQ * cfg.headDim ≤ 2147483648
  kv : batch * cfg.numKvHeads * seqKv * cfg.headDim ≤ 2147483648

include carried in
theorem grid_exact (fits : OperandsFit batch seqQ seqKv cfg) (heads : 1 ≤ batch * cfg.numQHeads) :
    (launch.grid.1 = (seqQ + launch.tile.br - 1).tdiv launch.tile.br) ∧
      (1 ≤ seqQ → launch.grid.2 = batch * cfg.numQHeads) := by
  have bounds : ∀ tile ∈ launchBranches, tile.br ≤ 32 ∧ 64 ≤ tile.headDim := by decide
  obtain ⟨narrow, wide⟩ := bounds _ carried.tile
  have width := carried.headDim
  have queries := fits.queries
  rw [carried.grid]
  constructor
  · dsimp only
    rw [to_int32_of_range (by omega)]
    rcases queries.eq_or_lt with none | some
    · omega
    · have small := (outer_dims_small heads some (by omega) fits.q).2
      omega
  · intro some
    have small := (outer_dims_small heads some (by omega) fits.q).1
    exact to_int32_of_range (by omega) (by omega)

include carried in
theorem full_block (fits : OperandsFit batch seqQ seqKv cfg) (keys : 1 ≤ seqKv)
    (kvHeads : 0 < cfg.numKvHeads) (grouped : 0 < group)
    (whole : cfg.numQHeads = group * cfg.numKvHeads) (tiled : (launch.tile.br : Int) ∣ seqQ)
    (tensors : Tensors) {block : BlockIdx} (inside : InGrid launch block) :
    FullBlock (blockOf launch tensors block).toFlashBlock group := by
  have rows := (block_fits_tile _ carried.tile).1
  have queries : 0 < cfg.numQHeads := whole ▸ mul_pos grouped kvHeads
  obtain ⟨tile, heads⟩ := inside
  have inGrid : (block.2 : Int) < batch * cfg.numQHeads := by
    rw [carried.grid] at heads
    have total := mul_nonneg fits.batches queries.le
    exact heads.trans_le (to_int32_le (by omega))
  rw [(grid_exact carried fits (by omega)).1] at tile
  refine
    { dispatched := dispatched_of_launch carried queries kvHeads keys
      strideQ := ?_
      strideO := carried.strideO
      grouped := grouped
      whole := ?_
      inGrid := ?_
      full := ?_
      qFits := ?_
      kvFits := ?_ }
  · unfold FlashBlock.headDim blockOf
    rw [carried.strideQ, carried.numQHeads, carried.sameSeqQ, carried.headDim]
  · unfold blockOf
    rw [carried.numQHeads, carried.numKvHeads]
    exact whole
  · unfold blockOf
    rw [carried.sameBatch, carried.numQHeads]
    exact inGrid
  · obtain ⟨tiles, rfl⟩ := tiled
    unfold blockOf FlashBlock.br
    rw [carried.sameSeqQ]
    dsimp only at tile ⊢
    have below := tile_count_bound (by omega) tile
    have product := Int.mul_le_mul_of_nonneg_left below (Int.natCast_nonneg launch.tile.br)
    rw [Nat.cast_mul, Nat.cast_add, Nat.cast_one, Int.mul_comm]
    exact product
  · unfold blockOf FlashBlock.headDim
    rw [carried.sameBatch, carried.numQHeads, carried.sameSeqQ, ← carried.headDim]
    exact fits.q
  · unfold blockOf FlashBlock.headDim
    rw [carried.sameBatch, carried.numKvHeads, carried.sameSeqKv, ← carried.headDim]
    exact fits.kv

end Blocks

/-! ## Rows and addresses -/

structure InOutput (launch : Launch ℝ) (row : OutputRow) : Prop where
  batch : 0 ≤ row.b ∧ row.b < launch.batch
  head : 0 ≤ row.hq ∧ row.hq < launch.numQHeads
  query : 0 ≤ (row.i : Int) ∧ (row.i : Int) < launch.seqQ

/-- The place of a row in `lse`, and of its elements in `O`. -/
def lseIndex (launch : Launch ℝ) (row : OutputRow) : Int :=
  (row.b * launch.numQHeads + row.hq) * launch.seqQ + row.i

def oIndex (launch : Launch ℝ) (row : OutputRow) (d : Nat) : Int :=
  lseIndex launch row * launch.tile.headDim + d

theorem int_row_major_injective {i j i' j' n : Int} (col : 0 ≤ j ∧ j < n) (col' : 0 ≤ j' ∧ j' < n)
    (same : i * n + j = i' * n + j') : i = i' ∧ j = j' := by
  have width : 0 < n := by omega
  have rows := congrArg (· / n) same
  have cols := congrArg (· % n) same
  simp only [Int.mul_add_ediv_left, Int.mul_comm _ n, Int.mul_add_emod_self_left,
    Int.ediv_eq_zero_of_lt col.1 col.2, Int.ediv_eq_zero_of_lt col'.1 col'.2,
    Int.emod_eq_of_lt col.1 col.2, Int.emod_eq_of_lt col'.1 col'.2, width.ne', ne_eq,
    not_false_eq_true, add_zero] at rows cols
  exact ⟨rows, cols⟩

theorem lse_index_injective {launch : Launch ℝ} {row row' : OutputRow}
    (inside : InOutput launch row) (inside' : InOutput launch row')
    (same : lseIndex launch row = lseIndex launch row') : row = row' := by
  obtain ⟨heads, queries⟩ := int_row_major_injective inside.query inside'.query same
  obtain ⟨batch, head⟩ := int_row_major_injective inside.head inside'.head heads
  exact OutputRow.ext batch head (Int.ofNat.inj queries)

theorem o_index_injective {launch : Launch ℝ} {row row' : OutputRow} {d d' : Nat}
    (inside : InOutput launch row) (inside' : InOutput launch row')
    (col : d < launch.tile.headDim) (col' : d' < launch.tile.headDim)
    (same : oIndex launch row d = oIndex launch row' d') : row = row' ∧ d = d' := by
  obtain ⟨rows, cols⟩ := int_row_major_injective (by omega) (by omega) same
  exact ⟨lse_index_injective inside inside' rows, Int.ofNat.inj cols⟩

section Rows

variable {launch : Launch ℝ} {tensors : Tensors} {block : BlockIdx} {group : Int}

def rowOfThread (fwd : FlashFwd ℝ) (tid : Nat) : OutputRow where
  b := fwd.b
  hq := fwd.hq
  i := fwd.qRow tid

theorem row_of_eq (fullBlock : FullBlock (blockOf launch tensors block).toFlashBlock group)
    (tid : Nat) : rowOf (blockOf launch tensors block).toFlashBlock tid =
      attnRow launch tensors (rowOfThread (blockOf launch tensors block) tid) := by
  have head : (blockOf launch tensors block).hkv =
      (blockOf launch tensors block).hq / (launch.numQHeads / launch.numKvHeads) :=
    kv_head_eq fullBlock.dispatched.qHeads (head_in_range fullBlock).1
  unfold rowOf attnRow rowOfThread
  dsimp only
  rw [← head]
  rfl

theorem row_in_output (fullBlock : FullBlock (blockOf launch tensors block).toFlashBlock group)
    (tid : (blockOf launch tensors block).Thread) :
    InOutput launch (rowOfThread (blockOf launch tensors block) tid) :=
  ⟨batch_in_range fullBlock, head_in_range fullBlock, row_in_range fullBlock tid.isLt⟩

/-- No score of the launch is as low as the sentinel. -/
def ScoresReal (launch : Launch ℝ) (tensors : Tensors) : Prop :=
  ∀ row, InOutput launch row → ∀ j, ¬(attnRow launch tensors row).Masked j →
    sentinel < score (attnRow launch tensors row) j

theorem row_state_exact (fullBlock : FullBlock (blockOf launch tensors block).toFlashBlock group)
    (scores : ScoresReal launch tensors) (tid : (blockOf launch tensors block).Thread) :
    ExactAttention (attnRow launch tensors (rowOfThread (blockOf launch tensors block) tid))
      (rowState (blockOf launch tensors block)
        (iterations (blockOf launch tensors block)) tid) := by
  have keys := fullBlock.dispatched.keys
  have tiles := (block_fits_tile _ fullBlock.dispatched.tile).2.1
  have run := row_of_run (blockOf launch tensors block).toFlashBlock tid keys
    (counted_of_full fullBlock)
  rw [kv_tiles_uniform fullBlock.dispatched tid.isLt (block_dim_pos fullBlock),
    kv_tiles_range (blockOf launch tensors block).toFlashBlock 0] at run
  have length : 1 ≤ (rowOf (blockOf launch tensors block).toFlashBlock tid).seqKv := by
    unfold rowOf
    dsimp only
    omega
  have real := scores _ (row_in_output fullBlock tid)
  rw [← row_of_eq fullBlock] at real ⊢
  have exactly := finished_exact _ length (run_finished _ length tiles real)
  rw [run] at exactly
  exact exactly

/-- What a block stores is exact attention in the places of its rows. -/
theorem stored_exact (fullBlock : FullBlock (blockOf launch tensors block).toFlashBlock group)
    (scores : ScoresReal launch tensors)
    {machine : Machine (blockOf launch tensors block).Thread (SharedState ℝ) (Lane ℝ)}
    (stored : Stored (blockOf launch tensors block) machine) :
    (∀ entry, entry ∈ machine.shared.o ↔ ∃ tid : (blockOf launch tensors block).Thread,
      ∃ d < launch.tile.headDim,
        entry = (oIndex launch (rowOfThread (blockOf launch tensors block) tid) d,
          tensors.toBf16 (attention (attnRow launch tensors
            (rowOfThread (blockOf launch tensors block) tid)) d))) ∧
    ∀ entry, entry ∈ machine.shared.lse ↔ ∃ tid : (blockOf launch tensors block).Thread,
      entry = (lseIndex launch (rowOfThread (blockOf launch tensors block) tid),
        Real.log (sumExp (attnRow launch tensors
          (rowOfThread (blockOf launch tensors block) tid)))) := by
  constructor
  · intro entry
    rw [stored.o]
    refine exists_congr fun tid => exists_congr fun d => and_congr_right fun col => ?_
    rw [o_address_eq fullBlock tid.isLt col, (row_state_exact fullBlock scores tid).output]
    rfl
  · intro entry
    rw [stored.lse]
    refine exists_congr fun tid => ?_
    rw [lse_address_eq fullBlock tid.isLt]
    have value := (row_state_exact fullBlock scores tid).lse
    exact ⟨fun same => same.trans (congrArg _ value), fun same => same.trans (congrArg _ value.symm)⟩

end Rows

/-! ## The memory behind the launch -/

section Memory

variable {batch seqQ seqKv group : Int} {cfg : AttnCfg ℝ} {launch : Launch ℝ}

theorem exists_owner (carried : LaunchOf batch seqQ seqKv cfg launch)
    (fits : OperandsFit batch seqQ seqKv cfg) (tiled : (launch.tile.br : Int) ∣ seqQ)
    (tensors : Tensors) {row : OutputRow} (inside : InOutput launch row) :
    ∃ block, InGrid launch block ∧ ∃ tid : (blockOf launch tensors block).Thread,
      rowOfThread (blockOf launch tensors block) tid = row := by
  obtain ⟨batchRange, headRange, queryRange⟩ := inside
  have rows := (block_fits_tile _ carried.tile).1
  have heads := int_row_major batchRange headRange
  have index : ((row.b * launch.numQHeads + row.hq).toNat : Int) =
      row.b * launch.numQHeads + row.hq := Int.toNat_of_nonneg heads.1
  rw [carried.sameSeqQ] at queryRange
  have total : launch.batch * launch.numQHeads = batch * cfg.numQHeads := by
    rw [carried.sameBatch, carried.numQHeads]
  obtain ⟨tileRows, blocks⟩ := grid_exact carried fits (by omega)
  refine ⟨(row.i / launch.tile.br, (row.b * launch.numQHeads + row.hq).toNat), ⟨?_, ?_⟩,
    ⟨32 * (row.i % launch.tile.br), ?_⟩, ?_⟩
  · obtain ⟨tiles, rfl⟩ := tiled
    have nonneg : 0 ≤ tiles := by
      by_contra negative
      have := Int.mul_lt_mul_of_pos_left (Int.not_le.mp negative)
        (show (0 : Int) < launch.tile.br by omega)
      omega
    rw [tileRows, tile_count (by omega) nonneg]
    dsimp only
    rw [Int.natCast_ediv]
    exact Int.ediv_lt_of_lt_mul (by omega) (by rw [Int.mul_comm]; exact queryRange.2)
  · rw [blocks (by omega)]
    dsimp only
    rw [index, ← total]
    exact heads.2
  · unfold FlashBlock.blockDim blockOf
    rw [carried.block]
    have := Nat.mod_lt row.i rows
    omega
  · refine OutputRow.ext ?_ ?_ ?_
    · unfold rowOfThread FlashBlock.b blockOf
      dsimp only
      rw [index, Int.tdiv_eq_ediv_of_nonneg heads.1, Int.add_ediv_of_dvd_left (Dvd.intro_left _ rfl),
        Int.mul_ediv_cancel _ (by omega), Int.ediv_eq_zero_of_lt headRange.1 headRange.2, add_zero]
    · unfold rowOfThread FlashBlock.hq blockOf
      rw [index, Int.tmod_eq_emod_of_nonneg heads.1, Int.mul_comm, Int.mul_add_emod_self_left,
        Int.emod_eq_of_lt headRange.1 headRange.2]
    · unfold rowOfThread FlashBlock.qRow FlashBlock.row FlashBlock.br blockOf
      rw [Nat.mul_div_cancel_left _ (by decide), Nat.div_add_mod']

/-- Any order of the threads between the barriers that reads the scores of a warp
before it overwrites them, and any order of the blocks, leaves exact attention in `O`
and its log-sum-exp in `lse`. Nothing else is written, and no access is out of range. -/
theorem flash_attention_exact {invSqrt : Int → ℝ} {maxSmem : Nat}
    (launched : dispatchFlashAttn invSqrt maxSmem batch seqQ seqKv cfg = .ok launch)
    (fits : OperandsFit batch seqQ seqKv cfg) (keys : 1 ≤ seqKv) (kvHeads : 0 < cfg.numKvHeads)
    (grouped : 0 < group) (whole : cfg.numQHeads = group * cfg.numKvHeads)
    (tiled : (launch.tile.br : Int) ∣ seqQ) (tensors : Tensors) (scores : ScoresReal launch tensors)
    (orders : (block : BlockIdx) → List (List ((blockOf launch tensors block).Thread × FlashOp)))
    (scheduled : ∀ block, InGrid launch block →
      List.Forall₂ Interleaves (blockOf launch tensors block).phases (orders block) ∧
        ∀ order ∈ orders block, (blockOf launch tensors block).ReadsFirst order) :
    ∃ o lse : BlockIdx → List (Int × ℝ),
      (∀ block, InGrid launch block → ∃ final,
        (blockOf launch tensors block).runBlock (orders block) = some final ∧
          final.shared.o = o block ∧ final.shared.lse = lse block) ∧
      (∀ log, Interleaves (fun block => if InGrid launch block then o block else []) log →
        ∀ memory, (∀ row, InOutput launch row → ∀ d < launch.tile.headDim,
          applyWrites (log.map Prod.snd) memory (oIndex launch row d) =
            tensors.toBf16 (attention (attnRow launch tensors row) d)) ∧
          ∀ address, (∀ row, InOutput launch row → ∀ d < launch.tile.headDim,
            address ≠ oIndex launch row d) →
              applyWrites (log.map Prod.snd) memory address = memory address) ∧
      ∀ log, Interleaves (fun block => if InGrid launch block then lse block else []) log →
        ∀ memory, (∀ row, InOutput launch row →
          applyWrites (log.map Prod.snd) memory (lseIndex launch row) =
            Real.log (sumExp (attnRow launch tensors row))) ∧
          ∀ address, (∀ row, InOutput launch row → address ≠ lseIndex launch row) →
            applyWrites (log.map Prod.snd) memory address = memory address := by
  have carried := launch_of_dispatch launched
  have full : ∀ block, InGrid launch block →
      FullBlock (blockOf launch tensors block).toFlashBlock group :=
    fun block => full_block carried fits keys kvHeads grouped whole tiled tensors
  have results : ∀ block, ∃ machine, InGrid launch block →
      (blockOf launch tensors block).runBlock (orders block) = some machine ∧
        Stored (blockOf launch tensors block) machine := by
    intro block
    by_cases inside : InGrid launch block
    · obtain ⟨each, first⟩ := scheduled block inside
      obtain ⟨machine, ran, stored⟩ := run_block_stores (full block inside) _ each first
      exact ⟨machine, fun _ => ⟨ran, stored⟩⟩
    · exact ⟨(blockOf launch tensors block).initial, fun contrary => absurd contrary inside⟩
  choose final result using results
  have exactly := fun block inside =>
    stored_exact (full block inside) scores (result block inside).2
  refine ⟨fun block => (final block).shared.o, fun block => (final block).shared.lse,
    fun block inside => ⟨final block, (result block inside).1, rfl, rfl⟩, ?_, ?_⟩
  · intro log interleaves memory
    obtain ⟨written, untouched⟩ := grid_memory
      (fun cell : OutputRow × Nat => InOutput launch cell.1 ∧ cell.2 < launch.tile.headDim)
      (fun cell => oIndex launch cell.1 cell.2)
      (fun cell => tensors.toBf16 (attention (attnRow launch tensors cell.1) cell.2))
      (fun cell cell' inside inside' same => by
        obtain ⟨row, col⟩ := o_index_injective inside.1 inside'.1 inside.2 inside'.2 same
        exact Prod.ext row col)
      (fun block inside entry stored => by
        obtain ⟨tid, d, col, rfl⟩ := ((exactly block inside).1 entry).mp stored
        exact ⟨(_, d), ⟨row_in_output (full block inside) tid, col⟩, rfl⟩)
      (fun cell inside => by
        obtain ⟨block, inGrid, tid, same⟩ := exists_owner carried fits tiled tensors inside.1
        refine ⟨block, inGrid, ?_⟩
        exact ((exactly block inGrid).1 _).mpr ⟨tid, cell.2, inside.2, by rw [same]⟩)
      interleaves memory
    exact ⟨fun row inside d col => written (row, d) ⟨inside, col⟩, fun address outside =>
      untouched address fun cell inside => outside cell.1 inside.1 cell.2 inside.2⟩
  · intro log interleaves memory
    exact grid_memory (InOutput launch) (lseIndex launch)
      (fun row => Real.log (sumExp (attnRow launch tensors row)))
      (fun row row' inside inside' same => lse_index_injective inside inside' same)
      (fun block inside entry stored => by
        obtain ⟨tid, rfl⟩ := ((exactly block inside).2 entry).mp stored
        exact ⟨_, row_in_output (full block inside) tid, rfl⟩)
      (fun row inside => by
        obtain ⟨block, inGrid, tid, same⟩ := exists_owner carried fits tiled tensors inside
        exact ⟨block, inGrid, ((exactly block inGrid).2 _).mpr ⟨tid, by rw [same]⟩⟩)
      interleaves memory

theorem exists_log {Entry : Type*} (launch : Launch ℝ) (writes : BlockIdx → List Entry) :
    ∃ log, Interleaves (fun block => if InGrid launch block then writes block else []) log := by
  refine ⟨_, one_by_one_interleaves
    (List.nodup_range.product (List.nodup_range : (List.range launch.grid.2.toNat).Nodup) :
      ((List.range launch.grid.1.toNat).product _).Nodup) fun block missing => if_neg ?_⟩
  rintro ⟨tile, heads⟩
  exact missing (List.mem_product.mpr ⟨List.mem_range.mpr (by omega), List.mem_range.mpr (by omega)⟩)

/-- Two query heads of one KV head, queries that are all 0 and values that are all 1. -/
def uniformTensors : Tensors where
  Q := fun _ => 0
  K := fun _ => 1
  V := fun _ => 1
  toBf16 := id

noncomputable def twoHeads : AttnCfg ℝ :=
  { AttnCfg.initial ℝ with numQHeads := 2, headDim := 64 }

theorem attention_uniform {row : AttnRow ℝ} (keys : 1 ≤ row.seqKv) {d : Nat}
    (values : ∀ j, row.v j d = 1) : attention row d = 1 := by
  have positive : 0 < sumExp row :=
    Finset.sum_pos (fun j _ => Real.exp_pos _) (attended_nonempty keys)
  unfold attention
  simp only [values, mul_one]
  exact div_self positive.ne'

theorem flash_attention_exact_uniform : ∃ launch, ∃ o : BlockIdx → List (Int × ℝ), ∃ log,
    dispatchFlashAttn (fun _ => 1) 65536 1 64 3 twoHeads = .ok launch ∧
      (∀ block, InGrid launch block → ∃ orders final,
        (blockOf launch uniformTensors block).runBlock orders = some final ∧
          final.shared.o = o block) ∧
      Interleaves (fun block => if InGrid launch block then o block else []) log ∧
      applyWrites (log.map Prod.snd) (fun _ => 0) (oIndex launch ⟨0, 1, 63⟩ 5) = 1 := by
  obtain ⟨launch, launched⟩ : ∃ launch,
      dispatchFlashAttn (fun _ => 1) 65536 1 64 3 twoHeads = .ok launch :=
    (default_tiles_launch_iff _ _ _ _ _ twoHeads rfl rfl).mpr (.inl rfl)
  have carried := launch_of_dispatch launched
  have fits : OperandsFit 1 64 3 twoHeads :=
    ⟨by decide, by decide, by norm_num [twoHeads], by norm_num [twoHeads, AttnCfg.initial]⟩
  have divides : ∀ tile ∈ launchBranches, (tile.br : Int) ∣ 64 ∧ 5 < tile.headDim := by decide
  obtain ⟨tiled, col⟩ := divides _ carried.tile
  have scores : ScoresReal launch uniformTensors := by
    intro row _ j _
    have zero : score (attnRow launch uniformTensors row) j = 0 := by
      simp [score, attnRow, uniformTensors]
    rw [zero]
    norm_num [sentinel]
  have schedules : ∀ block, ∃ orders, InGrid launch block →
      List.Forall₂ Interleaves (blockOf launch uniformTensors block).phases orders ∧
        ∀ order ∈ orders, (blockOf launch uniformTensors block).ReadsFirst order := by
    intro block
    by_cases inside : InGrid launch block
    · obtain ⟨orders, scheduled⟩ := exists_orders (full_block carried fits (by decide)
        (show (0 : Int) < 1 by decide) (show (0 : Int) < 2 by decide) rfl tiled uniformTensors inside)
      exact ⟨orders, fun _ => scheduled⟩
    · exact ⟨[], fun contrary => absurd contrary inside⟩
  choose orders scheduled using schedules
  obtain ⟨o, lse, ran, memory, -⟩ := flash_attention_exact launched fits (by decide)
    (show (0 : Int) < 1 by decide) (show (0 : Int) < 2 by decide) rfl tiled uniformTensors scores
    orders scheduled
  obtain ⟨log, interleaves⟩ := exists_log launch o
  refine ⟨launch, o, log, launched, fun block inside => ?_, interleaves, ?_⟩
  · obtain ⟨final, completed, stored, -⟩ := ran block inside
    exact ⟨orders block, final, completed, stored⟩
  have inside : InOutput launch ⟨0, 1, 63⟩ :=
    ⟨by rw [carried.sameBatch]; decide, by rw [carried.numQHeads]; decide,
      by rw [carried.sameSeqQ]; decide⟩
  rw [(memory log interleaves fun _ => 0).1 ⟨0, 1, 63⟩ inside 5 col]
  refine attention_uniform ?_ fun _ => rfl
  unfold attnRow
  dsimp only
  rw [carried.sameSeqKv]
  decide

end Memory

end AmpFormal.FlashAttnGrid
