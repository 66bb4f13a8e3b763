import AmpFormal.MatmulProduct
import AmpFormal.WmmaKernel

/-!
# The tensor-core product is the product

The staging tiles are filled like the tiles of the FP32 kernel with tiles of 16, and one
collective multiplication adds what that kernel adds in 16 steps. With a library that
does what it documents, and matrices whose `int` indices are not lost, the two kernels
therefore leave the same matrix.
-/

namespace AmpFormal.WmmaProduct

open AmpFormal.BarrierPhases AmpFormal.IntIndexing AmpFormal.MatmulKernel
open AmpFormal.MatmulProduct AmpFormal.MatrixLayouts AmpFormal.PhaseRules AmpFormal.WmmaKernel

set_option autoImplicit false

variable {R : Type*} (kernel : Wmma R)

/-- The FP32 kernel with the same arguments and tiles of 16. -/
def tiled : Matmul R := sixteens kernel.A kernel.B kernel.M kernel.N kernel.K

theorem shift_four (i : Nat) : i >>> 4 = i / 16 := Nat.shiftRight_eq_div_pow i 4

theorem mask_four (i : Nat) : i &&& 15 = i % 16 := Nat.and_two_pow_sub_one_eq_mod i 4

theorem mem_shared {body : Nat → WmmaOp} {actor : kernel.Actor} {op : WmmaOp}
    (member : op ∈ kernel.shared body actor) : ∃ i < 256, op = body i := by
  cases actor with
  | none => exact nomatch member
  | some lane =>
      obtain ⟨i, dealt, rfl⟩ := List.mem_map.mp member
      exact ⟨i, ((mem_strided kernel.positive).mp dealt).1, rfl⟩

theorem shared_covers (body : Nat → WmmaOp) {i : Nat} (inside : i < 256) :
    ∃ actor, body i ∈ kernel.shared body actor :=
  ⟨some ⟨i % kernel.lanes, Nat.mod_lt i kernel.positive⟩,
    List.mem_map_of_mem (strided_covers kernel.positive inside)⟩

variable [CommSemiring R]

def cellValue (block : Block) (k : Nat) : StagingArray × Nat × Nat → R
  | (.a, r, c) => tileA (tiled kernel) block k r c
  | (.b, r, c) => tileB (tiled kernel) block k r c
  | (.c, _, _) => 0

structure Accumulates (block : Block) (n : Nat) (s : WmmaState kernel.lib) : Prop where
  sums : ∀ r c : Fin 16, kernel.lib.storeMatrix s.fc r c =
    ∑ x ∈ Finset.range n, term (tiled kernel) (block.1 * 16 + r) (block.2 * 16 + c) x
  unwritten : s.stores = []

def Staged (block : Block) (k : Nat) (s : WmmaState kernel.lib) : Prop :=
  ∀ r < 16, ∀ c < 16, s.cells (.a, r, c) = some (tileA (tiled kernel) block k r c) ∧
    s.cells (.b, r, c) = some (tileB (tiled kernel) block k r c)

def target : WmmaOp → StagingArray × Nat × Nat
  | .stageA _ i => (.a, i / 16, i % 16)
  | .stageB _ i => (.b, i / 16, i % 16)
  | _ => (.c, 0, 0)

variable {kernel} (fits : MatricesFit kernel.M kernel.N kernel.K)

include fits in
theorem stage_step (block : Block) (k n : Nat) (actor : kernel.Actor) {op : WmmaOp}
    (member : op ∈ kernel.stagePhase k actor) :
    Fills (kernel.step block) WmmaState.cells (cellValue kernel block k)
      (Accumulates kernel block n) actor op (target op) := by
  intro s accumulated
  rcases List.mem_append.mp member with first | second
  · obtain ⟨i, inside, rfl⟩ := mem_shared kernel first
    refine ⟨{ s with
      cells := Function.update s.cells (.a, i / 16, i % 16)
        (some (tileA (tiled kernel) block k (i / 16) (i % 16))) },
      ?_, ⟨accumulated.sums, accumulated.unwritten⟩, rfl⟩
    unfold Wmma.step writeTile
    dsimp only
    rw [shift_four, mask_four, read_or_zero_at_eq fits.a, Option.bind_eq_bind, Option.bind_some,
      if_pos (by omega)]
    rfl
  · obtain ⟨i, inside, rfl⟩ := mem_shared kernel second
    refine ⟨{ s with
      cells := Function.update s.cells (.b, i / 16, i % 16)
        (some (tileB (tiled kernel) block k (i / 16) (i % 16))) },
      ?_, ⟨accumulated.sums, accumulated.unwritten⟩, rfl⟩
    unfold Wmma.step writeTile
    dsimp only
    rw [shift_four, mask_four, read_or_zero_at_eq fits.b, Option.bind_eq_bind, Option.bind_some,
      if_pos (by omega)]
    rfl

include fits in
theorem stage_triple (block : Block) (k n : Nat) :
    PhaseTriple (kernel.step block) (Accumulates kernel block n) (kernel.stagePhase k)
      fun s => Staged kernel block k s ∧ Accumulates kernel block n s := by
  have filled := fill_triple (kernel.stagePhase k) WmmaState.cells (cellValue kernel block k)
    (Accumulates kernel block n) (fun _ => target) fun actor op member =>
      stage_step fits block k n actor member
  intro order interleaves s accumulated
  obtain ⟨final, executed, kept, stored⟩ := filled order interleaves s accumulated
  refine ⟨final, executed, fun r row c col => ?_, kept⟩
  have inside : r * 16 + c < 256 := row_major_lt (m := 16) row col
  obtain ⟨first, loadsA⟩ := shared_covers kernel (.stageA k) inside
  obtain ⟨second, loadsB⟩ := shared_covers kernel (.stageB k) inside
  have a := stored first _ (List.mem_append_left _ loadsA)
  have b := stored second _ (List.mem_append_right _ loadsB)
  dsimp only [target] at a b
  rw [row_major_div col, row_major_mod col] at a b
  exact ⟨a, b⟩

/-! ## The collective phases -/

omit [CommSemiring R] in
theorem whole_tile_eq {array : StagingArray} {s : WmmaState kernel.lib} {value : Nat → Nat → R}
    (filled : ∀ r < 16, ∀ c < 16, s.cells (array, r, c) = some (value r c)) :
    wholeTile array s = some fun r c : Fin 16 => value r c := by
  have read : ∀ r c : Fin 16, readTile array r c s = some (value r c) := by
    intro r c
    unfold readTile
    rw [if_pos ⟨r.isLt, c.isLt⟩]
    exact filled r r.isLt c c.isLt
  unfold wholeTile
  rw [dif_pos fun r c => by rw [read r c]; rfl]
  simp only [read, Option.get_some]

theorem collective_execute (block : Block) {ops : List WmmaOp}
    {order : List (kernel.Actor × WmmaOp)} (interleaves : Interleaves (kernel.collective ops) order)
    (s : WmmaState kernel.lib) :
    execute (kernel.step block) order s = execute (kernel.step block) (ops.map (Prod.mk none)) s := by
  have solo : ∀ other ≠ none, kernel.collective ops other = [] := by
    intro other different
    cases other with
    | none => exact absurd rfl different
    | some lane => rfl
  rw [solo_order interleaves solo]
  rfl

/-- The warp adds the products over one tile. -/
theorem mma_triple (laws : FragmentLaws kernel.lib) (block : Block) (k : Nat) :
    PhaseTriple (kernel.step block)
      (fun s => Staged kernel block k s ∧ Accumulates kernel block k s)
      (kernel.collective [.loadA, .loadB, .mma]) (Accumulates kernel block (k + 16)) := by
  rintro order interleaves s ⟨staged, accumulated⟩
  let tA : Tile R := fun r c => tileA (tiled kernel) block k r c
  let tB : Tile R := fun r c => tileB (tiled kernel) block k r c
  have a : wholeTile .a s = some tA := whole_tile_eq fun r row c col => (staged r row c col).1
  have b : wholeTile .b { s with fa := some (kernel.lib.loadA tA) } = some tB :=
    whole_tile_eq fun r row c col => (staged r row c col).2
  rw [collective_execute block interleaves]
  refine ⟨{ s with
    fa := some (kernel.lib.loadA tA)
    fb := some (kernel.lib.loadB tB)
    fc := kernel.lib.mmaSync (kernel.lib.loadA tA) (kernel.lib.loadB tB) s.fc }, ?_, fun r c => ?_,
    accumulated.unwritten⟩
  · simp only [List.map_cons, List.map_nil, execute, Wmma.step, a, b, Option.bind_eq_bind,
      Option.bind_some]
  · dsimp only
    rw [laws.store_mma, accumulated.sums r c, add_comm, Finset.sum_range_add,
      ← Fin.sum_univ_eq_sum_range]
    rfl

structure Collected (kernel : Wmma R) (block : Block) (s : WmmaState kernel.lib) : Prop where
  sums : ∀ r < 16, ∀ c < 16, s.cells (.c, r, c) = some
    (∑ x ∈ Finset.range kernel.K, term (tiled kernel) (block.1 * 16 + r) (block.2 * 16 + c) x)
  unwritten : s.stores = []

theorem sum_terms_past (kernel : Wmma R) (i j : Nat) {n : Nat} (all : kernel.K ≤ n) :
    ∑ x ∈ Finset.range n, term (tiled kernel) i j x =
      ∑ x ∈ Finset.range kernel.K, term (tiled kernel) i j x := by
  rw [← Finset.sum_subset (Finset.range_mono all)]
  intro x _ outside
  rw [Finset.mem_range] at outside
  rw [term, aVal, if_neg fun both => outside both.2, zero_mul]

theorem collect_triple (block : Block) {n : Nat} (all : kernel.K ≤ n) :
    PhaseTriple (kernel.step block) (Accumulates kernel block n) (kernel.collective [.storeC])
      (Collected kernel block) := by
  intro order interleaves s accumulated
  rw [collective_execute block interleaves]
  refine ⟨putTile .c (kernel.lib.storeMatrix s.fc) s, rfl, fun r row c col => ?_,
    accumulated.unwritten⟩
  unfold putTile
  dsimp only
  rw [dif_pos ⟨rfl, row, col⟩, accumulated.sums, sum_terms_past kernel _ _ all]

/-! ## The output -/

def product (kernel : Wmma R) (i j : Nat) : R :=
  ∑ x ∈ Finset.range kernel.K, kernel.A (i * kernel.K + x) * kernel.B (x * kernel.N + j)

def Scattered (kernel : Wmma R) (block : Block) (s : WmmaState kernel.lib) : Prop :=
  ∀ entry, entry ∈ s.stores ↔ ∃ r < 16, ∃ c < 16, block.1 * 16 + r < kernel.M ∧
    block.2 * 16 + c < kernel.N ∧ entry =
      ((block.1 * 16 + r) * kernel.N + (block.2 * 16 + c),
        product kernel (block.1 * 16 + r) (block.2 * 16 + c))

def entryOf (kernel : Wmma R) (block : Block) : WmmaOp → Option (Nat × R)
  | .scatter i =>
      if block.1 * 16 + i / 16 < kernel.M ∧ block.2 * 16 + i % 16 < kernel.N then
        some ((block.1 * 16 + i / 16) * kernel.N + (block.2 * 16 + i % 16),
          product kernel (block.1 * 16 + i / 16) (block.2 * 16 + i % 16))
      else none
  | _ => none

include fits in
theorem scatter_step (block : Block) (actor : kernel.Actor) {i : Nat} (inside : i < 256)
    {s : WmmaState kernel.lib} (collected : ∀ r < 16, ∀ c < 16, s.cells (.c, r, c) = some
      (∑ x ∈ Finset.range kernel.K, term (tiled kernel) (block.1 * 16 + r) (block.2 * 16 + c) x)) :
    kernel.step block actor (.scatter i) s =
      some { s with stores := s.stores ++ (entryOf kernel block (.scatter i)).toList } := by
  unfold Wmma.step entryOf
  dsimp only
  rw [shift_four, mask_four]
  by_cases inRange : block.1 * 16 + i / 16 < kernel.M ∧ block.2 * 16 + i % 16 < kernel.N
  · have value := sum_terms (tiled kernel) (n := kernel.K) inRange.1 inRange.2 (le_refl _)
    rw [if_pos inRange, if_pos inRange]
    unfold readTile
    rw [if_pos (by omega), collected _ (by omega) _ (by omega), value, Option.bind_eq_bind,
      Option.bind_some, write_at_row_major inRange.1 inRange.2 fits.c]
    rfl
  · rw [if_neg inRange, if_neg inRange, Option.toList_none, List.append_nil]

include fits in
theorem scatter_triple (block : Block) :
    PhaseTriple (kernel.step block) (Collected kernel block) (kernel.shared .scatter)
      (Scattered kernel block) := by
  intro order interleaves start collected
  obtain ⟨final, executed, -, stores⟩ := execute_invariant (kernel.step block)
    (I := fun done s => s.cells = start.cells ∧
      s.stores = done.filterMap fun entry => entryOf kernel block entry.2)
    ⟨rfl, collected.unwritten⟩
    (fun before actor op after s (split : order = _) so_far => by
      have listed : (actor, op) ∈ order := by
        rw [split]
        simp
      obtain ⟨i, inside, rfl⟩ := mem_shared kernel (interleaves.mem_iff.mp listed)
      refine ⟨_, scatter_step fits block actor inside ?_, so_far.1, ?_⟩
      · rw [so_far.1]
        exact collected.sums
      · rw [List.filterMap_append, ← so_far.2]
        cases written : entryOf kernel block (.scatter i) <;> simp [written])
  refine ⟨final, executed, fun entry => ?_⟩
  rw [stores, List.mem_filterMap]
  constructor
  · rintro ⟨⟨actor, op⟩, listed, written⟩
    obtain ⟨i, inside, rfl⟩ := mem_shared kernel (interleaves.mem_iff.mp listed)
    unfold entryOf at written
    dsimp only at written
    split at written
    case isTrue inRange =>
      exact ⟨i / 16, by omega, i % 16, by omega, inRange.1, inRange.2,
        (Option.some.inj written).symm⟩
    case isFalse => cases written
  · rintro ⟨r, row, c, col, inRow, inCol, rfl⟩
    obtain ⟨actor, dealt⟩ := shared_covers kernel .scatter (row_major_lt (m := 16) row col)
    refine ⟨(actor, _), interleaves.mem_iff.mpr dealt, ?_⟩
    unfold entryOf
    dsimp only
    rw [row_major_div col, row_major_mod col, if_pos ⟨inRow, inCol⟩]

include fits in
theorem phases_from_triple (laws : FragmentLaws kernel.lib) (block : Block)
    (inside : kernel.InGrid block) (count k : Nat) (all : kernel.K ≤ k + count * 16) :
    RunTriple (kernel.step block) (Accumulates kernel block k)
      (kernel.phasesFrom block (List.range' k count 16)) (Scattered kernel block) := by
  induction count generalizing k with
  | zero =>
      have tile : block.1 * 16 < kernel.M ∧ block.2 * 16 < kernel.N := by
        obtain ⟨row, col⟩ := inside
        omega
      rw [Nat.zero_mul, Nat.add_zero] at all
      unfold Wmma.phasesFrom
      dsimp only [List.range']
      rw [if_pos tile]
      exact run_triple_cons (collect_triple block all)
        (run_triple_cons (scatter_triple fits block) (run_triple_nil fun _ holds => holds))
  | succ count ih =>
      refine run_triple_cons (stage_triple fits block k k)
        (run_triple_cons (mma_triple laws block k) (ih (k + 16) ?_))
      rw [Nat.succ_mul] at all
      omega

include fits in
theorem run_block_scatters (laws : FragmentLaws kernel.lib) (block : Block)
    (inside : kernel.InGrid block) (orders : List (List (kernel.Actor × WmmaOp)))
    (each : List.Forall₂ Interleaves (kernel.phases block) orders) :
    ∃ final, kernel.runBlock block orders = some final ∧ Scattered kernel block final := by
  have all : kernel.K ≤ 0 + (kernel.K - 0 + 16 - 1) / 16 * 16 := by omega
  exact phases_from_triple fits laws block inside _ 0 all orders each kernel.initial
    ⟨fun r c => by rw [Finset.sum_range_zero]; exact laws.store_fill 0 r c, rfl⟩

/-! ## The grid -/

/-- On either backend, with a library that keeps its laws, in any order of the threads
between the barriers and of the blocks, the launch leaves the product in `C` and writes
nothing else. No access is out of range. -/
theorem wmma_is_product {lib : FragmentLibrary R} (laws : FragmentLaws lib) (backend : GpuBackend)
    (A B : Nat → R) {M N K : Nat} (fits : MatricesFit M N K)
    (counters : M + 15 < 2147483648 ∧ N + 15 < 2147483648 ∧ K + 15 < 2147483648)
    (orders : Block →
      List (List ((launchMatmulBf16 lib backend A B M N K counters).Actor × WmmaOp)))
    (scheduled : ∀ block, (launchMatmulBf16 lib backend A B M N K counters).InGrid block →
      List.Forall₂ Interleaves ((launchMatmulBf16 lib backend A B M N K counters).phases block)
        (orders block)) :
    ∃ final : Block → WmmaState lib,
      (∀ block, (launchMatmulBf16 lib backend A B M N K counters).InGrid block →
        (launchMatmulBf16 lib backend A B M N K counters).runBlock block (orders block) =
          some (final block)) ∧
      ∀ log : List (Block × (Nat × R)),
        Interleaves (fun block =>
          if (launchMatmulBf16 lib backend A B M N K counters).InGrid block then
            (final block).stores else []) log →
        ∀ memory : Nat → R,
          (∀ i < M, ∀ j < N, applyWrites (log.map Prod.snd) memory (i * N + j) =
            ∑ x ∈ Finset.range K, A (i * K + x) * B (x * N + j)) ∧
          ∀ address, (∀ i < M, ∀ j < N, address ≠ i * N + j) →
            applyWrites (log.map Prod.snd) memory address = memory address := by
  have results : ∀ block, ∃ final : WmmaState lib,
      (launchMatmulBf16 lib backend A B M N K counters).InGrid block →
      (launchMatmulBf16 lib backend A B M N K counters).runBlock block (orders block) =
        some final ∧
        Scattered (launchMatmulBf16 lib backend A B M N K counters) block final := by
    intro block
    by_cases inside : (launchMatmulBf16 lib backend A B M N K counters).InGrid block
    · have fits' : MatricesFit (launchMatmulBf16 lib backend A B M N K counters).M
          (launchMatmulBf16 lib backend A B M N K counters).N
          (launchMatmulBf16 lib backend A B M N K counters).K := fits
      obtain ⟨final, ran, scattered⟩ := run_block_scatters fits' laws block inside _
        (scheduled block inside)
      exact ⟨final, fun _ => ⟨ran, scattered⟩⟩
    · exact ⟨(launchMatmulBf16 lib backend A B M N K counters).initial,
        fun contrary => absurd contrary inside⟩
  choose final result using results
  refine ⟨final, fun block inside => (result block inside).1, fun log interleaves memory => ?_⟩
  refine matrix_memory (fun i j => ∑ x ∈ Finset.range K, A (i * K + x) * B (x * N + j))
    (fun block inside entry member => ?_) (fun i row j col => ?_) interleaves memory
  · obtain ⟨r, -, c, -, row, col, rfl⟩ := ((result block inside).2 entry).mp member
    exact ⟨block.1 * 16 + r, row, block.2 * 16 + c, col, rfl⟩
  · have inGrid : (launchMatmulBf16 lib backend A B M N K counters).InGrid (i / 16, j / 16) := by
      unfold Wmma.InGrid launchMatmulBf16
      dsimp only
      omega
    refine ⟨(i / 16, j / 16), inGrid, ?_⟩
    refine ((result _ inGrid).2 _).mpr ⟨i % 16, by omega, j % 16, by omega, ?_⟩
    rw [Nat.div_add_mod', Nat.div_add_mod']
    exact ⟨row, col, rfl⟩

def tileLibrary : FragmentLibrary Nat where
  FragA := Tile Nat
  FragB := Tile Nat
  FragC := Tile Nat
  fillFragment x := fun _ _ => x
  loadA := id
  loadB := id
  mmaSync fa fb fc := fun r c => (∑ k, fa r k * fb k c) + fc r c
  storeMatrix := id

theorem tile_library_laws : FragmentLaws tileLibrary where
  store_fill _ _ _ := rfl
  store_mma _ _ _ _ _ := rfl

/-- A product of ones on one wavefront, one thread after another. -/
abbrev ones : Wmma Nat :=
  launchMatmulBf16 tileLibrary .hip (fun _ => 1) (fun _ => 1) 2 2 3 (by decide)

def onesOrders : List (List (ones.Actor × WmmaOp)) :=
  (ones.phases (0, 0)).map (oneByOne (none :: (List.finRange 64).map some))

theorem wmma_ones : ∃ final, ones.runBlock (0, 0) onesOrders = some final ∧
    applyWrites final.stores (fun _ => 0) (1 * 2 + 1) = 3 := by
  have single : ∀ block, ones.InGrid block → block = (0, 0) := by
    rintro ⟨row, col⟩ ⟨inRow, inCol⟩
    exact Prod.ext (Nat.lt_one_iff.mp inRow) (Nat.lt_one_iff.mp inCol)
  obtain ⟨final, ran, memory⟩ := wmma_is_product tile_library_laws .hip (fun _ => 1) (fun _ => 1)
    (M := 2) (N := 2) (K := 3) ⟨by decide, by decide, by decide⟩ (by decide)
    (fun _ => onesOrders) (fun block inside => by
      rw [single block inside]
      exact one_by_one_orders (by decide) (by decide) _)
  have interleaves : Interleaves (fun block => if ones.InGrid block then (final block).stores else [])
      ((final (0, 0)).stores.map (Prod.mk (0, 0))) := by
    have order := one_by_one_interleaves (List.nodup_singleton ((0, 0) : Block))
      fun block missing => (if_neg fun inside => missing (List.mem_singleton.mpr (single block inside))
        : (if ones.InGrid block then (final block).stores else []) = [])
    unfold oneByOne at order
    rw [List.flatMap_singleton] at order
    exact order
  have written := (memory _ interleaves fun _ => 0).1 1 (by decide) 1 (by decide)
  rw [List.map_map, Function.comp_def, List.map_id'] at written
  exact ⟨final (0, 0), ran (0, 0) (by decide), written⟩

end AmpFormal.WmmaProduct
