import AmpFormal.FlashAttnKernel
import AmpFormal.MatrixLayouts
import Mathlib.Algebra.Field.Rat
import Mathlib.Algebra.Order.Ring.Rat
import Mathlib.Data.List.TakeWhile

/-!
# Which K and V elements are loaded

The elements of a tile are dealt out to all threads of the block, also to those
of the rows past `S_q`, which return before they load anything. The causal break
does no harm: for the tiles that are dispatched `Br` divides `Bc`, so all rows of
a block leave the loop at the same tile. What is loaded belongs to the tile as long
as no offset is lost in an `int`.
-/

namespace AmpFormal.FlashAttnCoverage

open AmpFormal.BarrierPhases AmpFormal.FlashAttnDispatch AmpFormal.FlashAttnKernel
open AmpFormal.MatrixLayouts AmpFormal.WrappedInts

set_option autoImplicit false

variable {R : Type*}

/-! ## The dispatched tiles -/

/-- The rows of a Q tile lie on one side of every KV tile boundary. -/
theorem boundary_uniform {tile : Tile} (dispatched : tile ∈ launchBranches) {qTile row kvTile : Nat}
    (inside : row < tile.br) :
    qTile * tile.br + row < kvTile * tile.bc ↔ (qTile + 1) * tile.br ≤ kvTile * tile.bc := by
  simp only [launchBranches, List.mem_cons, List.not_mem_nil, or_false] at dispatched
  rcases dispatched with rfl | rfl | rfl | rfl | rfl | rfl <;> dsimp only at inside ⊢ <;> omega

theorem block_fits_tile : ∀ tile ∈ launchBranches,
    0 < tile.br ∧ 0 < tile.bc ∧ 0 < tile.headDim ∧ tile.br * 32 ≤ tile.bc * tile.headDim := by
  decide

/-- A block of a launch that `dispatch_flash_attn` makes for some heads and keys. -/
structure Dispatched (block : FlashBlock R) : Prop where
  tile : block.launch.tile ∈ launchBranches
  threads : block.blockDim = block.br * 32
  strideK : block.launch.strideK =
    strides block.launch.numKvHeads block.launch.seqKv block.headDim
  qHeads : 0 < block.launch.numQHeads
  kvHeads : 0 < block.launch.numKvHeads
  keys : 1 ≤ block.launch.seqKv

theorem dispatched_of_launch {batch seqQ seqKv : Int} {cfg : AttnCfg R} {block : FlashBlock R}
    (carried : LaunchOf batch seqQ seqKv cfg block.launch) (qHeads : 0 < cfg.numQHeads)
    (kvHeads : 0 < cfg.numKvHeads) (keys : 1 ≤ seqKv) : Dispatched block := by
  refine ⟨carried.tile, ?_, ?_, carried.numQHeads ▸ qHeads, carried.numKvHeads ▸ kvHeads,
    carried.sameSeqKv ▸ keys⟩
  · unfold FlashBlock.blockDim FlashBlock.br
    rw [carried.block]
    omega
  · unfold FlashBlock.headDim
    rw [carried.strideK, carried.numKvHeads, carried.sameSeqKv, carried.headDim]

variable {block : FlashBlock R}

theorem row_lt (dispatched : Dispatched block) {tid : Nat} (inside : tid < block.blockDim) :
    FlashBlock.row tid < block.br := by
  rw [dispatched.threads] at inside
  exact Nat.div_lt_of_lt_mul (by rwa [Nat.mul_comm])

theorem kv_tiles_uniform (dispatched : Dispatched block) {tid other : Nat}
    (inside : tid < block.blockDim) (inside' : other < block.blockDim) :
    block.kvTiles tid = block.kvTiles other := by
  have same : ∀ kvTile, block.qRow tid < kvTile * block.bc ↔ block.qRow other < kvTile * block.bc :=
    fun kvTile => (boundary_uniform dispatched.tile (row_lt dispatched inside)).trans
      (boundary_uniform dispatched.tile (row_lt dispatched inside')).symm
  unfold FlashBlock.kvTiles
  simp only [same]

theorem kv_tiles_range (block : FlashBlock R) (tid : Nat) :
    block.kvTiles tid = List.range (block.kvTiles tid).length := by
  have start := List.prefix_iff_eq_take.mp (List.takeWhile_prefix (l := List.range block.tileCount)
    fun kvTile => ¬(block.launch.causal = true ∧ block.qRow tid < kvTile * block.bc))
  have length := (List.takeWhile_prefix (l := List.range block.tileCount)
    fun kvTile => ¬(block.launch.causal = true ∧ block.qRow tid < kvTile * block.bc)).length_le
  rw [List.length_range] at length
  rw [List.take_range, Nat.min_eq_left length] at start
  exact start

theorem mem_range_take_while {p : Nat → Prop} [DecidablePred p] (down : ∀ m n, m ≤ n → p n → p m)
    (count n : Nat) : n ∈ (List.range count).takeWhile (fun n => p n) ↔ n < count ∧ p n := by
  induction count with
  | zero => simp
  | succ count ih =>
      rw [List.range_succ, List.takeWhile_append]
      split
      case isTrue whole =>
        have all : (List.range count).takeWhile (fun n => p n) = List.range count :=
          (List.takeWhile_prefix _).eq_of_length whole
        rw [all, List.mem_range] at ih
        by_cases last : p count
        · simp only [List.mem_append, List.mem_range, last, decide_true, List.takeWhile_cons_of_pos,
            List.takeWhile_nil, List.mem_singleton]
          constructor
          · intro listed
            exact ⟨by omega, down n count (by omega) last⟩
          · intro listed
            omega
        · simp only [List.mem_append, List.mem_range, last, decide_false, Bool.false_eq_true,
            not_false_eq_true, List.takeWhile_cons_of_neg, List.not_mem_nil, or_false]
          constructor
          · intro listed
            exact ⟨by omega, (ih.mp listed).2⟩
          · rintro ⟨listed, holds⟩
            have other : n ≠ count := fun same => last (same ▸ holds)
            omega
      case isFalse stopped =>
        rw [ih]
        refine ⟨fun listed => ⟨by omega, listed.2⟩, fun listed => ⟨?_, listed.2⟩⟩
        by_contra late
        refine stopped (congrArg List.length (List.takeWhile_eq_self_iff.mpr fun m early => ?_))
        exact decide_eq_true (down m n (by have := List.mem_range.mp early; omega) listed.2)

theorem kv_tiles_length (block : FlashBlock R) (tid n : Nat) :
    n < (block.kvTiles tid).length ↔ n < block.tileCount ∧
      ¬(block.launch.causal = true ∧ block.qRow tid < n * block.bc) := by
  rw [← List.mem_range, ← kv_tiles_range]
  refine mem_range_take_while (fun m n earlier later stops => later ⟨stops.1, ?_⟩) _ n
  exact stops.2.trans_le (Nat.mul_le_mul_right _ earlier)

/-- `Tc` counts the tiles with a row before `S_kv`, unless the `int` sum is lost. -/
theorem lt_tile_count_iff (dispatched : Dispatched block)
    (counted : block.launch.seqKv + block.bc ≤ 2147483648) (n : Nat) :
    n < block.tileCount ↔ ((n * block.bc : Nat) : Int) < block.launch.seqKv := by
  have wide := (block_fits_tile _ dispatched.tile).2.1
  have keys := dispatched.keys
  unfold FlashBlock.tileCount
  rw [to_int32_of_range (by omega) (by omega), Int.tdiv_eq_ediv_of_nonneg (by omega), Int.lt_toNat,
    ← Int.add_one_le_iff, Int.le_ediv_iff_mul_le (by unfold FlashBlock.bc; omega), Int.add_mul]
  push_cast
  omega

theorem tile_count_lost (dispatched : Dispatched block) (int : block.launch.seqKv < 2147483648)
    (lost : 2147483648 < block.launch.seqKv + block.bc) : block.tileCount = 0 := by
  have bounds : ∀ tile ∈ launchBranches, 0 < tile.bc ∧ tile.bc ≤ 64 := by decide
  obtain ⟨wide, narrow⟩ : 0 < block.bc ∧ block.bc ≤ 64 := bounds _ dispatched.tile
  have wrapped : toInt32 (block.launch.seqKv + block.bc - 1) =
      block.launch.seqKv + block.bc - 1 - 4294967296 := by
    rw [to_int32_congr (y := block.launch.seqKv + block.bc - 1 - 4294967296) (by omega)]
    exact to_int32_of_range (by omega) (by omega)
  unfold FlashBlock.tileCount
  rw [wrapped]
  have none : (block.launch.seqKv + block.bc - 1 - 4294967296).tdiv block.bc ≤ (0 : Int).tdiv block.bc :=
    Int.tdiv_le_tdiv (by omega) (by omega)
  rw [Int.zero_tdiv] at none
  exact Int.toNat_of_nonpos none

/-- The KV rows that a thread goes through: up to the end of the tile of its own row
where the causal break stops it. -/
def rowsSeen (block : FlashBlock R) (tid : Nat) : Int :=
  if block.launch.causal then
    min block.launch.seqKv ((block.qRow tid / block.bc + 1) * block.bc : Nat)
  else block.launch.seqKv

theorem lt_rows_seen_iff (dispatched : Dispatched block)
    (counted : block.launch.seqKv + block.bc ≤ 2147483648) (tid kvRow : Nat) :
    (kvRow : Int) < rowsSeen block tid ↔
      (kvRow : Int) < block.launch.seqKv ∧ kvRow / block.bc < (block.kvTiles tid).length := by
  have wide : 0 < block.bc := (block_fits_tile _ dispatched.tile).2.1
  have start := Nat.div_mul_le_self kvRow block.bc
  have tile : kvRow < (block.qRow tid / block.bc + 1) * block.bc ↔
      kvRow / block.bc * block.bc ≤ block.qRow tid := by
    rw [← Nat.div_lt_iff_lt_mul wide, Nat.lt_succ_iff, Nat.le_div_iff_mul_le wide]
  rw [kv_tiles_length, lt_tile_count_iff dispatched counted]
  unfold rowsSeen
  by_cases causal : block.launch.causal = true
  · rw [if_pos causal, lt_min_iff, Int.ofNat_lt, tile]
    refine and_congr_right fun inside => ?_
    simp only [causal, true_and, Nat.not_lt]
    exact ⟨fun own => ⟨by omega, own⟩, And.right⟩
  · rw [if_neg causal]
    simp only [causal, Bool.false_eq_true, false_and, not_false_eq_true, and_true]
    omega

theorem kv_tiles_nonempty (dispatched : Dispatched block)
    (counted : block.launch.seqKv + block.bc ≤ 2147483648) (tid : Nat) :
    0 < (block.kvTiles tid).length := by
  have keys := dispatched.keys
  rw [kv_tiles_length, lt_tile_count_iff dispatched counted, Nat.zero_mul]
  exact ⟨by omega, fun stops => Nat.not_lt_zero _ stops.2⟩

/-! ## Offsets -/

/-- The `int` products behind the addresses of the KV rows of a thread are not lost. -/
structure OffsetsFit (block : FlashBlock R) (tid : Nat) : Prop where
  batch : block.b * (block.launch.numKvHeads * block.launch.seqKv * block.headDim) < 2147483648
  head : block.hkv * (block.launch.seqKv * block.headDim) < 2147483648
  rows : rowsSeen block tid * block.headDim ≤ 2147483648

theorem heads_nonneg (dispatched : Dispatched block) : 0 ≤ block.b ∧ 0 ≤ block.hkv := by
  have queries := dispatched.qHeads.le
  refine ⟨Int.tdiv_nonneg (Int.natCast_nonneg _) queries, Int.tdiv_nonneg ?_ ?_⟩
  · exact Int.tmod_nonneg _ (Int.natCast_nonneg _)
  · exact Int.tdiv_nonneg queries dispatched.kvHeads.le

/-- An element of K or V is found in its place exactly when none of the three
products behind its address is lost. -/
theorem kv_address_iff (dispatched : Dispatched block) (row d : Nat) :
    block.kvOffset + FlashBlock.rowElement row block.launch.strideK.2.2 d = block.kvPlace row d ↔
      block.b * (block.launch.numKvHeads * block.launch.seqKv * block.headDim) < 2147483648 ∧
        block.hkv * (block.launch.seqKv * block.headDim) < 2147483648 ∧
          (row : Int) * block.headDim + d < 2147483648 := by
  obtain ⟨batch, head⟩ := heads_nonneg dispatched
  have keys : 0 ≤ block.launch.seqKv := by
    have := dispatched.keys
    omega
  unfold FlashBlock.kvOffset FlashBlock.rowElement FlashBlock.kvPlace
  rw [dispatched.strideK]
  exact stride_offset_exact_iff _ _ _
    (mul_nonneg batch (mul_nonneg (mul_nonneg dispatched.kvHeads.le keys) (Int.natCast_nonneg _)))
    (mul_nonneg head (mul_nonneg keys (Int.natCast_nonneg _)))
    (add_nonneg (mul_nonneg (Int.natCast_nonneg _) (Int.natCast_nonneg _)) (Int.natCast_nonneg _))

/-! ## The tile that is read -/

def source (block : FlashBlock R) : SharedArray → Option (Int → R)
  | .k => some block.K
  | .v => some block.V
  | _ => none

theorem scores_read_inside {array : SharedArray} {data : Int → R}
    (origin : source block array = some data) {kvTile tid index : Nat}
    (read : .read array index ∈ block.scores kvTile tid) :
    index < block.bc * block.headDim := by
  unfold FlashBlock.scores at read
  obtain ⟨j, column, read⟩ := List.mem_flatMap.mp read
  split at read
  case isTrue => simp at read
  case isFalse =>
    simp only [List.mem_append, List.mem_flatMap, List.mem_cons, List.not_mem_nil, or_false,
      Access.read.injEq, reduceCtorEq] at read
    obtain ⟨d, element, ⟨rfl, -⟩ | ⟨-, rfl⟩⟩ := read
    · cases origin
    · exact row_major_lt (List.mem_range.mp column) (List.mem_range.mp element)

theorem output_read_inside {array : SharedArray} {data : Int → R}
    (origin : source block array = some data) {tid index : Nat}
    (read : .read array index ∈ block.output tid) :
    index < block.bc * block.headDim := by
  have other : array ≠ .s := by
    rintro rfl
    cases origin
  unfold FlashBlock.output at read
  simp only [List.mem_append, List.mem_map, List.mem_flatMap, List.mem_cons, List.not_mem_nil,
    or_false, false_or, Access.read.injEq, reduceCtorEq, Ne.symm other, other, false_and, and_false,
    exists_false] at read
  obtain ⟨d, element, j, column, -, rfl⟩ := read
  exact row_major_lt (List.mem_range.mp column) (List.mem_range.mp element)

theorem output_reads_all (block : FlashBlock R) (tid : Nat) {index : Nat} (wide : 0 < block.headDim)
    (inside : index < block.bc * block.headDim) : .read .v index ∈ block.output tid := by
  unfold FlashBlock.output
  refine List.mem_append_right _ (List.mem_flatMap.mpr ⟨index % block.headDim,
    List.mem_range.mpr (Nat.mod_lt index wide), List.mem_flatMap.mpr ⟨index / block.headDim,
      List.mem_range.mpr (Nat.div_lt_of_lt_mul (by rwa [Nat.mul_comm])), ?_⟩⟩)
  rw [Nat.div_add_mod']
  exact List.mem_cons_of_mem _ (List.mem_singleton.mpr rfl)

/-! ## Segments -/

variable [Zero R]

theorem flat_map_three {α β : Type*} (first second third : α → β) (items : List α) (n k : Nat)
    (small : k < 3) :
    (items.flatMap fun item => [first item, second item, third item])[3 * n + k]? =
      items[n]?.bind fun item => [first item, second item, third item][k]? := by
  induction items generalizing n with
  | nil => simp
  | cons item items ih =>
      rw [List.flatMap_cons]
      cases n with
      | zero =>
          rw [Nat.mul_zero, Nat.zero_add, List.getElem?_append_left (by simpa using small)]
          rfl
      | succ n =>
          rw [List.getElem?_append_right (by simp; omega), List.getElem?_cons_succ, ← ih n]
          congr 1
          simp only [List.length_cons, List.length_nil]
          omega

theorem segment_iteration (block : FlashBlock R) (tid n k : Nat) (small : k < 3) :
    block.segment tid (3 * n + k + 1) =
      if block.Active tid ∧ n < (block.kvTiles tid).length then
        [block.loadKv n tid, block.scores n tid, block.output tid].getD k []
      else [] := by
  unfold FlashBlock.segment FlashBlock.segments
  by_cases active : block.Active tid
  · rw [if_pos active, List.getD_cons_succ, List.getD_eq_getElem?_getD,
      flat_map_three _ _ _ _ n k small, kv_tiles_range block tid, List.length_range]
    by_cases inside : n < (block.kvTiles tid).length
    · rw [if_pos ⟨active, inside⟩, List.getElem?_range inside, List.getD_eq_getElem?_getD]
      rfl
    · rw [if_neg fun both => inside both.2, List.getElem?_eq_none (by simpa using inside)]
      rfl
  · rw [if_neg active, if_neg fun both => active both.1]
    rfl

theorem mem_load_tile {array other : SharedArray} {data : Int → R} {kvTile tid index : Nat}
    {value : R} :
    .load array index value ∈ block.loadTile other data kvTile tid ↔ array = other ∧
      index ∈ strided tid (block.bc * block.headDim) block.blockDim ∧
      value = block.tileValue data kvTile index := by
  unfold FlashBlock.loadTile
  rw [List.mem_map]
  constructor
  · rintro ⟨i, member, same⟩
    simp only [Access.load.injEq, Nat.div_add_mod'] at same
    obtain ⟨rfl, rfl, rfl⟩ := same
    exact ⟨rfl, member, rfl⟩
  · rintro ⟨rfl, member, rfl⟩
    refine ⟨index, member, ?_⟩
    simp only [Nat.div_add_mod']

theorem mem_load_kv {array : SharedArray} {data : Int → R} (origin : source block array = some data)
    {kvTile tid index : Nat} {value : R} :
    .load array index value ∈ block.loadKv kvTile tid ↔
      index ∈ strided tid (block.bc * block.headDim) block.blockDim ∧
      value = block.tileValue data kvTile index := by
  unfold FlashBlock.loadKv
  rw [List.mem_append, mem_load_tile, mem_load_tile]
  cases array <;> cases origin <;> simp

theorem load_value {writer n : Nat} {array : SharedArray} {data : Int → R}
    (origin : source block array = some data) {index : Nat} {value : R}
    (loaded : .load array index value ∈ block.segment writer (3 * n + 1)) :
    value = block.tileValue data n index := by
  rw [segment_iteration block writer n 0 (by decide)] at loaded
  split at loaded
  case isTrue => exact ((mem_load_kv origin).mp loaded).2
  case isFalse => cases loaded

theorem read_in_tile {array : SharedArray} {data : Int → R} (origin : source block array = some data)
    {tid n index : Nat}
    (read : .read array index ∈ block.segment tid (3 * n + 2) ++ block.segment tid (3 * n + 3)) :
    n < (block.kvTiles tid).length ∧ index < block.bc * block.headDim := by
  rw [segment_iteration block tid n 1 (by decide), segment_iteration block tid n 2 (by decide)]
    at read
  split at read
  case isTrue iterates =>
    refine ⟨iterates.2, ?_⟩
    rcases List.mem_append.mp read with scored | weighed
    · exact scores_read_inside origin scored
    · exact output_read_inside origin weighed
  case isFalse => cases read

theorem value_is_read (dispatched : Dispatched block) {tid n index : Nat}
    (active : block.Active tid) (iterates : n < (block.kvTiles tid).length)
    (inside : index < block.bc * block.headDim) :
    .read .v index ∈ block.segment tid (3 * n + 2) ++ block.segment tid (3 * n + 3) := by
  refine List.mem_append_right _ ?_
  rw [segment_iteration block tid n 2 (by decide), if_pos ⟨active, iterates⟩]
  exact output_reads_all block tid (block_fits_tile _ dispatched.tile).2.2.1 inside

/-! ## The values of a tile -/

theorem tile_value_exact (dispatched : Dispatched block)
    (counted : block.launch.seqKv + block.bc ≤ 2147483648) {tid : Nat} (fits : OffsetsFit block tid)
    (data : Int → R) {n i : Nat} (iterates : n < (block.kvTiles tid).length)
    (inside : i < block.bc * block.headDim) :
    block.tileValue data n i = block.tileElement data n i := by
  have wide : 0 < block.headDim := (block_fits_tile _ dispatched.tile).2.2.1
  have row : i / block.headDim < block.bc := Nat.div_lt_of_lt_mul (by rwa [Nat.mul_comm])
  have col := Nat.mod_lt i wide
  unfold FlashBlock.tileValue FlashBlock.tileElement
  dsimp only
  split
  case isTrue exists_ =>
    have seen := (lt_rows_seen_iff dispatched counted tid (n * block.bc + i / block.headDim)).mpr
      ⟨exists_, by rwa [row_major_div row]⟩
    have last : (((n * block.bc + i / block.headDim : Nat) : Int) + 1) * block.headDim ≤
        rowsSeen block tid * block.headDim :=
      mul_le_mul_of_nonneg_right seen (Int.natCast_nonneg _)
    rw [add_mul, one_mul] at last
    have rows := fits.rows
    rw [(kv_address_iff dispatched _ _).mpr ⟨fits.batch, fits.head, by omega⟩]
  case isFalse => rfl

/-! ## The rows that are served -/

/-- Whatever a thread reads of `sK` and `sV` in an iteration was written in the
same iteration by a thread of the block, with the element that belongs there; and
all threads of the block that did not return take part in the same barriers. -/
structure RowServed (block : FlashBlock R) (tid : Nat) : Prop where
  loaded : ∀ n array data index, source block array = some data →
    .read array index ∈ block.segment tid (3 * n + 2) ++ block.segment tid (3 * n + 3) →
    (∃ writer < block.blockDim,
      .load array index (block.tileElement data n index) ∈ block.segment writer (3 * n + 1)) ∧
    ∀ writer < block.blockDim, ∀ value,
      .load array index value ∈ block.segment writer (3 * n + 1) →
      value = block.tileElement data n index
  together : ∀ other < block.blockDim, block.Active other →
    (block.segments other).length = (block.segments tid).length

theorem barriers_uniform (dispatched : Dispatched block) {tid other : Nat}
    (inside : tid < block.blockDim) (active : block.Active tid) (inside' : other < block.blockDim)
    (active' : block.Active other) :
    (block.segments other).length = (block.segments tid).length := by
  unfold FlashBlock.segments
  rw [if_pos active, if_pos active', kv_tiles_uniform dispatched inside inside']
  simp

theorem loaded_when_active (dispatched : Dispatched block)
    (full : ∀ writer < block.blockDim, block.Active writer) {tid : Nat}
    (inside : tid < block.blockDim) {n : Nat} (iterates : n < (block.kvTiles tid).length)
    {array : SharedArray} {data : Int → R} (origin : source block array = some data) {index : Nat}
    (small : index < block.bc * block.headDim) :
    ∃ writer < block.blockDim,
      .load array index (block.tileValue data n index) ∈ block.segment writer (3 * n + 1) := by
  have positive : 0 < block.blockDim := Nat.zero_lt_of_lt inside
  have dealt := Nat.mod_lt index positive
  refine ⟨index % block.blockDim, dealt, ?_⟩
  rw [segment_iteration block _ n 0 (by decide), if_pos ⟨full _ dealt,
    kv_tiles_uniform dispatched inside dealt ▸ iterates⟩]
  exact (mem_load_kv origin).mpr ⟨strided_covers positive small, rfl⟩

omit [Zero R] in
theorem all_active_of_full (dispatched : Dispatched block)
    (whole : ((block.qTile + 1) * block.br : Nat) ≤ block.launch.seqQ) :
    ∀ writer < block.blockDim, block.Active writer := by
  intro writer below
  have row := row_lt dispatched below
  unfold FlashBlock.Active FlashBlock.qRow
  rw [Nat.succ_mul] at whole
  omega

theorem served_without_tiles (dispatched : Dispatched block) {tid : Nat}
    (inside : tid < block.blockDim) (active : block.Active tid)
    (none : (block.kvTiles tid).length = 0) : RowServed block tid := by
  refine ⟨fun n array data index origin read => ?_, fun other below active' =>
    barriers_uniform dispatched inside active below active'⟩
  have iterates := (read_in_tile origin read).1
  omega

theorem served_of_full (dispatched : Dispatched block)
    (counted : block.launch.seqKv + block.bc ≤ 2147483648) {tid : Nat}
    (inside : tid < block.blockDim) (active : block.Active tid)
    (whole : ((block.qTile + 1) * block.br : Nat) ≤ block.launch.seqQ)
    (fits : OffsetsFit block tid) : RowServed block tid := by
  refine ⟨fun n array data index origin read => ?_, fun other below active' =>
    barriers_uniform dispatched inside active below active'⟩
  obtain ⟨iterates, small⟩ := read_in_tile origin read
  rw [← tile_value_exact dispatched counted fits data iterates small]
  exact ⟨loaded_when_active dispatched (all_active_of_full dispatched whole) inside iterates origin
    small, fun writer _ value loaded => load_value origin loaded⟩

/-- The first element that is dealt to a row past `S_q` is read by every row, and
no thread that loads has it. -/
theorem missing_when_partial (dispatched : Dispatched block)
    (counted : block.launch.seqKv + block.bc ≤ 2147483648) {tid : Nat} (active : block.Active tid)
    (short : block.launch.seqQ < ((block.qTile + 1) * block.br : Nat)) : ¬RowServed block tid := by
  intro served
  obtain ⟨-, -, -, fits⟩ := block_fits_tile _ dispatched.tile
  have threads := dispatched.threads
  have row := active
  unfold FlashBlock.Active FlashBlock.qRow at row
  rw [Nat.succ_mul] at short
  obtain ⟨rows, present⟩ :
      ∃ rows : Nat, block.launch.seqQ = (block.qTile * block.br + rows : Nat) :=
    ⟨(block.launch.seqQ - (block.qTile * block.br : Nat)).toNat, by omega⟩
  have below : 32 * rows < block.blockDim := by omega
  have read := value_is_read dispatched active (kv_tiles_nonempty dispatched counted tid)
    (below.trans_le (threads ▸ fits))
  obtain ⟨⟨writer, -, loaded⟩, -⟩ := served.loaded 0 .v block.V _ rfl read
  rw [segment_iteration block writer 0 0 (by decide)] at loaded
  split at loaded
  case isTrue writes =>
    obtain ⟨dealt, -⟩ := (mem_load_kv rfl).mp loaded
    obtain ⟨-, turn, same⟩ := (mem_strided (Nat.zero_lt_of_lt below)).mp dealt
    -- the element lies in the first round, so it is dealt to its own number
    have first : turn = 0 := by
      by_contra later
      have := Nat.le_mul_of_pos_right block.blockDim (Nat.pos_of_ne_zero later)
      omega
    subst first
    have returned := writes.1
    unfold FlashBlock.Active FlashBlock.qRow FlashBlock.row at returned
    omega
  case isFalse => cases loaded

theorem served_value (dispatched : Dispatched block)
    (counted : block.launch.seqKv + block.bc ≤ 2147483648) {tid : Nat} (active : block.Active tid)
    (served : RowServed block tid) {row d : Nat} (seen : (row : Int) < rowsSeen block tid)
    (col : d < block.headDim) :
    block.V (block.kvOffset + FlashBlock.rowElement row block.launch.strideK.2.2 d) =
      block.V (block.kvPlace row d) := by
  have wide : 0 < block.bc := (block_fits_tile _ dispatched.tile).2.1
  obtain ⟨present, iterates⟩ := (lt_rows_seen_iff dispatched counted tid row).mp seen
  have read := value_is_read dispatched active iterates (row_major_lt (Nat.mod_lt row wide) col)
  obtain ⟨⟨writer, -, loaded⟩, -⟩ := served.loaded _ .v block.V _ rfl read
  have same := load_value rfl loaded
  unfold FlashBlock.tileElement FlashBlock.tileValue at same
  simp only [row_major_div col, row_major_mod col, Nat.div_add_mod', if_pos present] at same
  exact same.symm

/-- The last element that a thread goes through shows every product that is lost: V
holds something there and nothing elsewhere. -/
theorem fits_when_served [Nontrivial R] (dispatched : Dispatched block)
    (counted : block.launch.seqKv + block.bc ≤ 2147483648) {tid : Nat} (active : block.Active tid)
    (served : ∀ V, RowServed { block with V } tid) : OffsetsFit block tid := by
  obtain ⟨x, other⟩ := exists_ne (0 : R)
  have cols : 0 < block.headDim := (block_fits_tile _ dispatched.tile).2.2.1
  have first := (lt_rows_seen_iff dispatched counted tid 0).mpr
    ⟨dispatched.keys, by
      rw [Nat.zero_div]
      exact kv_tiles_nonempty dispatched counted tid⟩
  obtain ⟨row, last⟩ : ∃ row : Nat, rowsSeen block tid = row + 1 :=
    ⟨(rowsSeen block tid - 1).toNat, by omega⟩
  obtain ⟨d, width⟩ := Nat.exists_eq_succ_of_ne_zero cols.ne'
  have marked : Dispatched { block with V := fun i => if i = block.kvPlace row d then x else 0 } :=
    ⟨dispatched.tile, dispatched.threads, dispatched.strideK, dispatched.qHeads,
      dispatched.kvHeads, dispatched.keys⟩
  have seen : (row : Int) < rowsSeen block tid := by omega
  have col : d < block.headDim := by omega
  have same : (if block.kvOffset + FlashBlock.rowElement row block.launch.strideK.2.2 d =
      block.kvPlace row d then x else 0) =
        if block.kvPlace row d = block.kvPlace row d then x else 0 :=
    served_value marked counted active (served _) seen col
  rw [if_pos rfl] at same
  have found : block.kvOffset + FlashBlock.rowElement row block.launch.strideK.2.2 d =
      block.kvPlace row d := by
    by_contra elsewhere
    exact other (same.symm.trans (if_neg elsewhere))
  obtain ⟨batch, head, index⟩ := (kv_address_iff dispatched row d).mp found
  refine ⟨batch, head, ?_⟩
  have whole : ((row : Int) + 1) * block.headDim = row * block.headDim + d + 1 := by
    rw [width, add_mul, one_mul]
    push_cast
    ring
  rw [last, whole]
  omega

theorem full_block_served_iff [Nontrivial R] (dispatched : Dispatched block)
    (counted : block.launch.seqKv + block.bc ≤ 2147483648) {tid : Nat}
    (inside : tid < block.blockDim) (active : block.Active tid) :
    (∀ K V, RowServed { block with K, V } tid) ↔
      ((block.qTile + 1) * block.br : Nat) ≤ block.launch.seqQ ∧ OffsetsFit block tid := by
  constructor
  · intro served
    refine ⟨?_, fits_when_served dispatched counted active (served block.K)⟩
    by_contra short
    exact missing_when_partial dispatched counted active (not_le.mp short) (served block.K block.V)
  · rintro ⟨whole, fits⟩ K V
    have same : Dispatched { block with K, V } := ⟨dispatched.tile, dispatched.threads,
      dispatched.strideK, dispatched.qHeads, dispatched.kvHeads, dispatched.keys⟩
    exact served_of_full same counted inside active whole ⟨fits.batch, fits.head, fits.rows⟩

/-- A row of a dispatched block is served, whatever K and V hold, exactly when the block
has no row past `S_q` and no product behind its addresses is lost; or when the number
of tiles is lost, so that there is nothing to serve. -/
theorem row_served_iff [LT R] [DecidableLT R] [Nontrivial R] (block : FlashBlock R)
    {invSqrt : Int → R} {maxSmem : Nat} {batch seqQ seqKv : Int} {cfg : AttnCfg R}
    (launched : dispatchFlashAttn invSqrt maxSmem batch seqQ seqKv cfg = .ok block.launch)
    (qHeads : 0 < cfg.numQHeads) (kvHeads : 0 < cfg.numKvHeads) (keys : 1 ≤ seqKv)
    (int : seqKv < 2147483648) {tid : Nat} (inside : tid < block.blockDim)
    (active : block.Active tid) :
    (∀ K V, RowServed { block with K, V } tid) ↔
      2147483648 < seqKv + block.launch.tile.bc ∨
        (((block.qTile + 1) * block.launch.tile.br : Nat) ≤ seqQ ∧ OffsetsFit block tid) := by
  have carried := launch_of_dispatch launched
  have dispatched := dispatched_of_launch carried qHeads kvHeads keys
  obtain rfl := carried.sameSeqQ
  obtain rfl := carried.sameSeqKv
  by_cases lost : 2147483648 < block.launch.seqKv + block.bc
  · refine iff_of_true (fun K V => ?_) (.inl lost)
    have same : Dispatched { block with K, V } := ⟨dispatched.tile, dispatched.threads,
      dispatched.strideK, dispatched.qHeads, dispatched.kvHeads, dispatched.keys⟩
    refine served_without_tiles same inside active (Nat.eq_zero_of_not_pos fun some => ?_)
    have counted := ((kv_tiles_length block tid 0).mp some).1
    rw [tile_count_lost dispatched int lost] at counted
    exact Nat.lt_irrefl 0 counted
  · rw [full_block_served_iff dispatched (not_lt.mp lost) inside active]
    exact (or_iff_right lost).symm

def oneHead : AttnCfg ℚ :=
  { numQHeads := 1, numKvHeads := 1, headDim := 64, causal := true, scale := 1, br := 32, bc := 64 }

def firstBlock (launch : Launch ℚ) : FlashBlock ℚ :=
  { launch, qTile := 0, bh := 0, Q := fun _ => 1, K := fun _ => 1, V := fun _ => 1 }

theorem one_head_launches (seqQ seqKv : Int) :
    ∃ launch, dispatchFlashAttn (fun _ => 1) 65536 1 seqQ seqKv oneHead = .ok launch :=
  (default_tiles_launch_iff _ _ _ _ _ oneHead rfl rfl).mpr (.inl rfl)

theorem first_row {launch : Launch ℚ} {seqQ seqKv : Int} (rows : 0 < seqQ) (keys : 1 ≤ seqKv)
    (carried : LaunchOf 1 seqQ seqKv oneHead launch) :
    Dispatched (firstBlock launch) ∧ 0 < (firstBlock launch).blockDim ∧
      (firstBlock launch).Active 0 := by
  have dispatched : Dispatched (firstBlock launch) :=
    dispatched_of_launch carried (by decide) (by decide) keys
  have wide := (block_fits_tile _ carried.tile).1
  have sameRows := carried.sameSeqQ
  refine ⟨dispatched, ?_, ?_⟩
  · rw [dispatched.threads]
    exact Nat.mul_pos wide (by decide)
  · unfold FlashBlock.Active FlashBlock.qRow FlashBlock.row firstBlock
    dsimp only
    omega

theorem row_served_full_block : ∃ launch,
    dispatchFlashAttn (fun _ => 1) 65536 1 32 100 oneHead = .ok launch ∧
      ∀ K V, RowServed { firstBlock launch with K, V } 0 := by
  obtain ⟨launch, launched⟩ := one_head_launches 32 100
  have carried := launch_of_dispatch launched
  obtain ⟨-, inside, active⟩ := first_row (by decide) (by decide) carried
  have narrow : ∀ tile ∈ launchBranches, tile.br ≤ 32 := by decide
  have fits := narrow _ carried.tile
  have dim : (launch.tile.headDim : Int) = 64 := carried.headDim.symm
  refine ⟨launch, launched, (row_served_iff (firstBlock launch) launched (by decide) (by decide)
    (by decide) (by decide) inside active).mpr (.inr ⟨?_, ?_, ?_, ?_⟩)⟩
  · change ((0 + 1) * launch.tile.br : Nat) ≤ (32 : Int)
    omega
  · unfold FlashBlock.b firstBlock
    norm_num
  · unfold FlashBlock.hkv FlashBlock.hq kvHead firstBlock
    norm_num
  · have seen : rowsSeen (firstBlock launch) 0 ≤ 100 := by
      rw [← carried.sameSeqKv]
      unfold rowsSeen
      split
      · exact min_le_left _ _
      · exact le_refl _
    have width : ((firstBlock launch).headDim : Int) = 64 := dim
    rw [width]
    omega

/-- With one query row the thread of element 32 has returned, and the row reads
the element. -/
theorem lone_row_reads_unloaded : ∃ launch,
    dispatchFlashAttn (fun _ => 1) 65536 1 1 1 oneHead = .ok launch ∧
      (firstBlock launch).Active 0 ∧ ¬RowServed (firstBlock launch) 0 := by
  obtain ⟨launch, launched⟩ := one_head_launches 1 1
  have carried := launch_of_dispatch launched
  obtain ⟨dispatched, inside, active⟩ := first_row (by decide) (by decide) carried
  have tiles : ∀ tile ∈ launchBranches, 1 < tile.br ∧ tile.bc ≤ 64 := by decide
  obtain ⟨several, narrow⟩ := tiles _ carried.tile
  have sameRows := carried.sameSeqQ
  have sameKeys := carried.sameSeqKv
  refine ⟨launch, launched, active, missing_when_partial dispatched ?_ active ?_⟩
  · change launch.seqKv + (launch.tile.bc : Int) ≤ 2147483648
    omega
  · change launch.seqQ < ((0 + 1) * launch.tile.br : Nat)
    omega

end AmpFormal.FlashAttnCoverage
