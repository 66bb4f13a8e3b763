import AmpFormal.MatmulProduct
import AmpFormal.ParityCheck
import AmpFormal.PhaseRules

/-!
# The dumps of two machines

A transcription of `parity_dump.cpp`: every tile configuration is launched several
times on the same matrices, the last result is compared with the CPU reference and
written to a dump. The threads and the blocks of a launch come in any order, the
device memory holds anything before the first launch, and the timings are whatever
they are. The text of a number is `printed`, any function. A `float` is a rational.
-/

namespace AmpFormal.ParityDump

open AmpFormal.BarrierPhases AmpFormal.MatmulKernel AmpFormal.MatmulProduct
open AmpFormal.MatrixLayouts AmpFormal.PhaseRules
open AmpFormal.ExactFloats AmpFormal.ExactFloats.IeeeValue AmpFormal.ErrorFolds
open AmpFormal.ParityCheck

set_option autoImplicit false

/-! ## One launch -/

inductive Launches {R : Type*} [CommSemiring R] (kernel : Matmul R) (memory : Nat → R) :
    (Nat → R) → Prop
  | ran {orders : Block → List (List (Thread kernel × MatmulOp))}
      {final : Block → BlockState R kernel} {log : List (Block × (Nat × R))}
      (scheduled : ∀ block, kernel.InGrid block →
        List.Forall₂ Interleaves (kernel.phases block) (orders block))
      (executed : ∀ block, kernel.InGrid block →
        kernel.runBlock block (orders block) = some (final block))
      (interleaves : Interleaves
        (fun block => if kernel.InGrid block then (final block).stores else []) log) :
      Launches kernel memory (applyWrites (log.map Prod.snd) memory)

section Launch

variable {R : Type*} [CommSemiring R] {kernel : Matmul R} {memory after : Nat → R}

def element (kernel : Matmul R) (i j : Nat) : R :=
  ∑ x ∈ Finset.range kernel.K, kernel.A (i * kernel.K + x) * kernel.B (x * kernel.N + j)

theorem written_entry {block : Block} {s : BlockState R kernel} (written : Written kernel block s)
    {thread : Thread kernel} (row : kernel.row block thread < kernel.M)
    (col : kernel.col block thread < kernel.N) {entry : Nat × R} (member : entry ∈ s.stores)
    (place : entry.1 = address kernel block thread) :
    entry = (address kernel block thread,
      element kernel (kernel.row block thread) (kernel.col block thread)) := by
  have kept : entry ∈ s.stores.filter fun entry => entry.1 = address kernel block thread :=
    List.mem_filter.mpr ⟨member, decide_eq_true place⟩
  rw [written.value thread row col, List.mem_singleton] at kept
  exact kept

/-- Whatever was in `C`, a launch leaves the product there. -/
theorem launches_product (launched : Launches kernel memory after) {i j : Nat}
    (row : i < kernel.M) (col : j < kernel.N) :
    after (i * kernel.N + j) = element kernel i j := by
  cases launched with
  | @ran orders final log scheduled executed interleaves =>
      have results : ∀ block, kernel.InGrid block → Written kernel block (final block) := by
        intro block inside
        obtain ⟨own, ran, written⟩ := run_block_writes kernel block _ (scheduled block inside)
        cases (executed block inside).symm.trans ran
        exact written
      refine (matrix_memory (element kernel) ?_ ?_ interleaves memory).1 i row j col
      · intro block inside entry stored
        obtain ⟨thread, row, col, place⟩ := (results block inside).only entry stored
        exact ⟨kernel.row block thread, row, kernel.col block thread, col,
          written_entry (results block inside) row col stored place⟩
      · intro i row j col
        obtain ⟨block, thread, inGrid, rfl, rfl⟩ := exists_owner kernel row col
        have value := (results block inGrid).value thread row col
        have stored := List.mem_singleton_self (address kernel block thread,
          element kernel (kernel.row block thread) (kernel.col block thread))
        change _ = [(_, element kernel _ _)] at value
        rw [← value] at stored
        exact ⟨block, inGrid, (List.mem_filter.mp stored).1⟩

theorem launch_exists (kernel : Matmul R) (memory : Nat → R) :
    ∃ after, Launches kernel memory after := by
  let threads : List (Thread kernel) := List.finRange kernel.bm ×ˢ List.finRange kernel.bn
  let blocks : List Block := List.range ((kernel.M + kernel.bm - 1) / kernel.bm) ×ˢ
    List.range ((kernel.N + kernel.bn - 1) / kernel.bn)
  have inGrid : ∀ block, block ∈ blocks ↔ kernel.InGrid block := by
    rintro ⟨x, y⟩
    exact List.pair_mem_product.trans (and_congr List.mem_range List.mem_range)
  have scheduled : ∀ block, List.Forall₂ Interleaves (kernel.phases block)
      ((kernel.phases block).map (oneByOne threads)) := fun block =>
    one_by_one_orders ((List.nodup_finRange _).product (List.nodup_finRange _))
      (fun thread => List.pair_mem_product.mpr ⟨List.mem_finRange _, List.mem_finRange _⟩) _
  have results := fun block => run_block_writes kernel block _ (scheduled block)
  choose final result using results
  have distinct : blocks.Nodup := List.nodup_range.product List.nodup_range
  have interleaves : Interleaves
      (fun block => if kernel.InGrid block then (final block).stores else [])
      (oneByOne blocks fun block => if kernel.InGrid block then (final block).stores else []) :=
    one_by_one_interleaves distinct fun block missing =>
      if_neg fun inside => missing ((inGrid block).mpr inside)
  exact ⟨_, .ran (fun block _ => scheduled block) (fun block _ => (result block).1) interleaves⟩

end Launch

/-! ## One tile configuration -/

structure Problem where
  M : Nat
  N : Nat
  K : Nat
  A : Nat → ℚ
  B : Nat → ℚ

namespace Problem

def cpuReferenceGemm (problem : Problem) : List ℚ :=
  (List.range problem.M).flatMap fun i => (List.range problem.N).map fun j =>
    (List.range problem.K).foldl
      (fun acc k => acc + problem.A (i * problem.K + k) * problem.B (k * problem.N + j)) 0

end Problem

structure TileRun where
  bm : Nat
  bn : Nat
  bk : Nat
  gflops : Value
  maxRelErrVsCpu : Value
  output : List ℚ

/-- `WARMUP` and `REPS`. -/
def launchCount : Nat := 3 + 20

/-- `run_tile`: `contents t` is what `dC` holds after `t` launches. -/
structure RunTile (problem : Problem) (cfg : TileCfg) (run : TileRun) : Prop where
  launched : ∃ (kernel : Matmul ℚ) (contents : Nat → Nat → ℚ),
    launchMatmul cfg problem.A problem.B problem.M problem.N problem.K = .ok kernel ∧
      (∀ t < launchCount, Launches kernel (contents t) (contents (t + 1))) ∧
      run.output = (List.range (problem.M * problem.N)).map (contents launchCount)
  tile : (run.bm, run.bn, run.bk) = (cfg.bm, cfg.bn, cfg.bk)
  error : run.maxRelErrVsCpu =
    (errorFold (run.output.map .finite) (problem.cpuReferenceGemm.map .finite)).maxRelErr

/-- `tiles[]` of `main`. -/
def dumpTiles : List TileCfg := [⟨16, 16, 16⟩, ⟨32, 16, 16⟩, ⟨32, 32, 16⟩, ⟨32, 32, 32⟩]

/-- `write_json`, as `parity_check.py` reads it back. -/
def writeJson (printed : ℚ → ℚ) (problem : Problem) (seed : Int) (runs : List TileRun) : Dump :=
  { M := problem.M, N := problem.N, K := problem.K, seed
    tiles := runs.map fun run =>
      { bm := run.bm, bn := run.bn, bk := run.bk, gflops := run.gflops
        output := run.output.map fun x => .finite (printed x) } }

/-! ## The product in a dump -/

section Output

variable {problem : Problem} {cfg : TileCfg} {run : TileRun}

theorem buffer_is_reference {contents : Nat → ℚ}
    (held : ∀ i < problem.M, ∀ j < problem.N, contents (i * problem.N + j) =
      ∑ x ∈ Finset.range problem.K,
        problem.A (i * problem.K + x) * problem.B (x * problem.N + j)) :
    (List.range (problem.M * problem.N)).map contents = problem.cpuReferenceGemm := by
  have rows : ∀ m ≤ problem.M, (List.range (m * problem.N)).map contents =
      (List.range m).flatMap fun i => (List.range problem.N).map fun j =>
        (List.range problem.K).foldl
          (fun acc k => acc + problem.A (i * problem.K + k) * problem.B (k * problem.N + j)) 0 := by
    intro m below
    induction m with
    | zero => rw [Nat.zero_mul]; rfl
    | succ m ih =>
        rw [Nat.succ_mul, List.range_add, List.map_append, ih (Nat.le_of_succ_le below),
          List.range_succ, List.flatMap_append, List.flatMap_singleton, List.map_map]
        congr 1
        apply List.map_congr_left
        intro j column
        rw [Function.comp_apply, held m below j (List.mem_range.mp column)]
        exact (foldl_add_range
          (fun k => problem.A (m * problem.K + k) * problem.B (k * problem.N + j)) _).symm
  exact rows problem.M le_rfl

theorem run_output (ran : RunTile problem cfg run) : run.output = problem.cpuReferenceGemm := by
  obtain ⟨kernel, contents, launched, steps, copied⟩ := ran.launched
  have last : Launches kernel (contents 22) (contents launchCount) := steps 22 (by decide)
  unfold launchMatmul at launched
  split at launched
  case isFalse => cases launched
  case isTrue known =>
    cases launched
    rw [copied]
    apply buffer_is_reference
    intro i row j col
    exact launches_product last row col

end Output

/-! ## Two dumps of one problem -/

section Dumps

variable {problem : Problem} {printed : ℚ → ℚ} {seed : Int}

theorem fold_zeros {values : List Value} (zeros : ∀ value ∈ values, value = .finite 0) :
    values.foldl keepMax (.finite 0) = .finite 0 := by
  induction values with
  | nil => rfl
  | cons value rest ih =>
      obtain ⟨zero, later⟩ := List.forall_mem_cons.mp zeros
      rw [List.foldl_cons, zero, keep_max_finite, max_self]
      exact ih later

theorem abs_err_self (q : ℚ) : absErr (.finite q) (.finite q) = .finite 0 := by
  change IeeeValue.finite |q - q| = _
  rw [sub_self, abs_zero]

theorem rel_err_self (q : ℚ) : relErr (.finite q) (.finite q) = .finite 0 := by
  rw [rel_err_finite, sub_self, abs_zero, zero_div]

theorem pairs_self (xs : List ℚ) {pair : Value × Value}
    (member : pair ∈ (xs.map IeeeValue.finite).zip (xs.map IeeeValue.finite)) :
    ∃ q, pair = (.finite q, .finite q) := by
  rw [List.zip_map, List.zip_eq_zipWith, List.zipWith_self, List.map_map] at member
  obtain ⟨q, _, rfl⟩ := List.mem_map.mp member
  exact ⟨q, rfl⟩

theorem error_fold_self (xs : List ℚ) :
    (errorFold (xs.map .finite) (xs.map .finite)).maxRelErr = .finite 0 := by
  unfold errorFold
  rw [error_fold_rel]
  apply fold_zeros
  intro value member
  obtain ⟨pair, inside, rfl⟩ := List.mem_map.mp member
  obtain ⟨q, rfl⟩ := pairs_self xs inside
  exact rel_err_self q

theorem py_max_zeros {values : List Value} (nonempty : values ≠ [])
    (zeros : ∀ value ∈ values, value = .finite 0) : pyMax values = some (.finite 0) := by
  cases values with
  | nil => exact absurd rfl nonempty
  | cons first rest =>
      obtain ⟨zero, later⟩ := List.forall_mem_cons.mp zeros
      rw [pyMax, zero, fold_zeros later]

theorem max_err_self {xs : List ℚ} (nonempty : xs ≠ []) :
    maxAbsErr (xs.map .finite) (xs.map .finite) = some (.finite 0) ∧
      maxRelErr (xs.map .finite) (xs.map .finite) = some (.finite 0) := by
  have pairs : (xs.map IeeeValue.finite).zip (xs.map IeeeValue.finite) ≠ [] := by
    rw [ne_eq, List.zip_eq_nil_iff, or_self, List.map_eq_nil_iff]
    exact nonempty
  constructor
  · apply py_max_zeros (List.map_eq_nil_iff.not.mpr pairs)
    intro value member
    obtain ⟨pair, inside, rfl⟩ := List.mem_map.mp member
    obtain ⟨q, rfl⟩ := pairs_self xs inside
    exact abs_err_self q
  · apply py_max_zeros (List.map_eq_nil_iff.not.mpr pairs)
    intro value member
    obtain ⟨pair, inside, rfl⟩ := List.mem_map.mp member
    obtain ⟨q, rfl⟩ := pairs_self xs inside
    exact rel_err_self q

/-- The key under which `parity_check.py` looks a configuration up. -/
def configKey (cfg : TileCfg) : TileKey := (cfg.bm, cfg.bn, cfg.bk)

def Identical (cfg : TileCfg) (row : Row) : Prop :=
  ∃ gflopsA gflopsB ratio,
    row = .compared (configKey cfg) gflopsA gflopsB ratio (.finite 0) (.finite 0) true

/-- A tile of a dump: its key, and the reference as it is printed. -/
structure Holds (printed : ℚ → ℚ) (problem : Problem) (cfg : TileCfg) (t : Tile) : Prop where
  key : tileKey t = configKey cfg
  output : t.output = (problem.cpuReferenceGemm.map printed).map .finite

theorem compare_tile_identical {tilesB : TileKey → Option Tile} {cfg : TileCfg} {ta tb : Tile}
    (nonempty : problem.cpuReferenceGemm ≠ []) (loop : ParityLoop)
    (holdsA : Holds printed problem cfg ta) (holdsB : Holds printed problem cfg tb)
    (partner : tilesB (configKey cfg) = some tb) :
    ∃ row, loop.compareTile tilesB ta = some (loop.print row) ∧ Identical cfg row := by
  obtain ⟨absErr, relErr⟩ := max_err_self (List.map_eq_nil_iff.not.mpr nonempty)
  unfold ParityLoop.compareTile
  rw [holdsA.key, partner]
  dsimp only
  have small : less (.finite 0) relErrThreshold = true := by decide +kernel
  rw [holdsA.output, holdsB.output, if_neg (not_not.mpr rfl), absErr, relErr]
  dsimp only [ParityLoop.record]
  rw [small, holdsA.key]
  exact ⟨_, rfl, _, _, _, rfl⟩

theorem compare_tiles_identical {tilesB : TileKey → Option Tile} {cfgs : List TileCfg}
    {tiles : List Tile} (nonempty : problem.cpuReferenceGemm ≠ [])
    (holds : List.Forall₂ (Holds printed problem) cfgs tiles)
    (partner : ∀ cfg ∈ cfgs, ∃ tb, tilesB (configKey cfg) = some tb ∧ Holds printed problem cfg tb)
    (loop : ParityLoop) :
    ∃ rows, loop.compareTiles tilesB tiles = some { loop with rows := loop.rows ++ rows } ∧
      List.Forall₂ Identical cfgs rows := by
  induction holds generalizing loop with
  | nil => exact ⟨[], by rw [List.append_nil]; rfl, .nil⟩
  | cons head tail ih =>
      obtain ⟨⟨tb, found, holdsB⟩, later⟩ := List.forall_mem_cons.mp partner
      obtain ⟨row, step, identical⟩ := compare_tile_identical nonempty loop head holdsB found
      obtain ⟨rows, run, rest⟩ := ih later (loop.print row)
      refine ⟨row :: rows, ?_, .cons identical rest⟩
      rw [ParityLoop.compareTiles, step]
      dsimp only
      rw [run, ParityLoop.print, List.append_assoc]
      rfl

theorem dumped_tiles {cfgs : List TileCfg} {runs : List TileRun}
    (ran : List.Forall₂ (RunTile problem) cfgs runs) :
    List.Forall₂ (Holds printed problem) cfgs (writeJson printed problem seed runs).tiles := by
  unfold writeJson
  rw [List.forall₂_map_right_iff]
  refine ran.imp fun cfg run ranTile => ⟨?_, ?_⟩
  · obtain ⟨bm, bn, bk⟩ := Prod.mk.inj ranTile.tile |>.imp id Prod.mk.inj
    dsimp only [tileKey, configKey]
    rw [bm, bn, bk]
  · dsimp only
    rw [run_output ranTile, List.map_map]
    rfl

theorem holds_keys {cfgs : List TileCfg} {tiles : List Tile}
    (holds : List.Forall₂ (Holds printed problem) cfgs tiles) :
    tiles.map tileKey = cfgs.map configKey := by
  induction holds with
  | nil => rfl
  | cons head _ ih => rw [List.map_cons, List.map_cons, head.key, ih]

theorem holds_partner {cfgs : List TileCfg} {tiles : List Tile}
    (holds : List.Forall₂ (Holds printed problem) cfgs tiles)
    (distinct : (cfgs.map configKey).Nodup) {cfg : TileCfg} (member : cfg ∈ cfgs) :
    ∃ tb, tilesByKey tiles (configKey cfg) = some tb ∧ Holds printed problem cfg tb := by
  obtain ⟨i, below, rfl⟩ := List.mem_iff_getElem.mp member
  have inside : i < tiles.length := holds.length_eq ▸ below
  have tile := holds.get below inside
  refine ⟨tiles[i], ?_, tile⟩
  rw [tiles_by_key_iff (holds_keys holds ▸ distinct)]
  exact ⟨List.getElem_mem inside, tile.key⟩

theorem reference_nonempty (elements : 0 < problem.M * problem.N) :
    problem.cpuReferenceGemm ≠ [] := by
  have rows : 0 < problem.M := Nat.pos_of_mul_pos_right elements
  have cols : 0 < problem.N := Nat.pos_of_mul_pos_left elements
  exact List.ne_nil_of_mem (List.mem_flatMap.mpr ⟨0, List.mem_range.mpr rows,
    List.mem_map_of_mem (List.mem_range.mpr cols)⟩)

theorem run_error {cfgs : List TileCfg} {runs : List TileRun}
    (ran : List.Forall₂ (RunTile problem) cfgs runs) {run : TileRun} (member : run ∈ runs) :
    run.maxRelErrVsCpu = .finite 0 := by
  obtain ⟨i, below, rfl⟩ := List.mem_iff_getElem.mp member
  have ranTile := ran.get (ran.length_eq ▸ below) below
  dsimp only [List.get_eq_getElem] at ranTile
  rw [ranTile.error, run_output ranTile]
  exact error_fold_self _

/-- Two machines that run one problem agree: every tile of both dumps is compared, no
element differs, whatever the schedules of their threads and blocks were. -/
theorem dumps_agree (elements : 0 < problem.M * problem.N) {runsA runsB : List TileRun}
    (ranA : List.Forall₂ (RunTile problem) dumpTiles runsA)
    (ranB : List.Forall₂ (RunTile problem) dumpTiles runsB) :
    (∀ run ∈ runsA ++ runsB, run.maxRelErrVsCpu = .finite 0) ∧
      ∃ loop, main (writeJson printed problem seed runsA) (writeJson printed problem seed runsB) =
          .finished loop ∧
        loop.failures = 0 ∧ List.Forall₂ Identical dumpTiles loop.rows := by
  constructor
  · intro run member
    obtain inA | inB := List.mem_append.mp member
    · exact run_error ranA inA
    · exact run_error ranB inB
  · have nonempty := reference_nonempty elements
    have holdsA : List.Forall₂ (Holds printed problem) dumpTiles
        (writeJson printed problem seed runsA).tiles := dumped_tiles ranA
    have holdsB : List.Forall₂ (Holds printed problem) dumpTiles
        (writeJson printed problem seed runsB).tiles := dumped_tiles ranB
    obtain ⟨rows, run, identical⟩ := compare_tiles_identical nonempty holdsA
      (fun cfg member => holds_partner holdsB (by decide) member) {}
    refine ⟨{ rows }, ?_, rfl, identical⟩
    unfold main
    rw [if_neg fun differ => differ rfl, run]
    rfl

end Dumps

/-! ## Runs exist -/

theorem run_exists (problem : Problem) (gflops : Value) {cfg : TileCfg}
    (known : cfg ∈ dispatchFp32) : ∃ run, RunTile problem cfg run := by
  have launched : ∃ kernel, launchMatmul cfg problem.A problem.B problem.M problem.N problem.K =
      .ok kernel := ⟨_, dif_pos known⟩
  obtain ⟨kernel, launched⟩ := launched
  choose next launch using launch_exists kernel
  let contents (t : Nat) : Nat → ℚ := next^[t] fun _ => 0
  have steps : ∀ t, Launches kernel (contents t) (contents (t + 1)) := by
    intro t
    dsimp only [contents]
    rw [Function.iterate_succ_apply']
    exact launch _
  let output := (List.range (problem.M * problem.N)).map (contents launchCount)
  let maxRelErrVsCpu :=
    (errorFold (output.map .finite) (problem.cpuReferenceGemm.map .finite)).maxRelErr
  exact ⟨{ bm := cfg.bm, bn := cfg.bn, bk := cfg.bk, gflops, maxRelErrVsCpu, output },
    ⟨kernel, contents, launched, fun t _ => steps t, rfl⟩, rfl, rfl⟩

theorem runs_exist (problem : Problem) (gflops : Value) :
    ∃ runs, List.Forall₂ (RunTile problem) dumpTiles runs := by
  have each : ∀ cfg, ∃ run, cfg ∈ dumpTiles → RunTile problem cfg run := by
    intro cfg
    by_cases known : cfg ∈ dumpTiles
    · obtain ⟨run, ran⟩ := run_exists problem gflops known
      exact ⟨run, fun _ => ran⟩
    · exact ⟨⟨0, 0, 0, gflops, gflops, []⟩, fun inside => absurd inside known⟩
  choose run ran using each
  refine ⟨dumpTiles.map run, ?_⟩
  rw [List.forall₂_map_right_iff, List.forall₂_same]
  exact ran

def twoElements : Problem := { M := 1, N := 2, K := 3, A := fun _ => 2, B := fun index => index }

/-- Two machines of different speeds. -/
theorem dumps_agree_two_elements : ∃ runsA runsB : List TileRun,
    (∀ run ∈ runsA ++ runsB, run.maxRelErrVsCpu = .finite 0) ∧
      ∃ loop, main (writeJson (fun x => x) twoElements 42 runsA)
          (writeJson (fun x => x) twoElements 42 runsB) = .finished loop ∧
        loop.failures = 0 ∧ List.Forall₂ Identical dumpTiles loop.rows := by
  obtain ⟨runsA, ranA⟩ := runs_exist twoElements (.finite 5)
  obtain ⟨runsB, ranB⟩ := runs_exist twoElements (.finite 7)
  exact ⟨runsA, runsB, dumps_agree (by decide) ranA ranB⟩

end AmpFormal.ParityDump
