import AmpFormal.MatmulProduct
import AmpFormal.PhaseRules
import AmpFormal.SyclKernel

/-!
# The SYCL product is the product

In a work-group of the launch the kernel is the FP32 kernel with tiles of 16, operation
by operation: each item loads the one index that is dealt to it.
-/

namespace AmpFormal.SyclProduct

open AmpFormal.BarrierPhases AmpFormal.IntIndexing AmpFormal.MatmulKernel
open AmpFormal.MatmulProduct AmpFormal.MatrixLayouts AmpFormal.PhaseRules AmpFormal.SyclKernel
open AmpFormal.SyclKernel.SyclGemm AmpFormal.WrappedInts

set_option autoImplicit false

variable {R : Type*} (gemm : SyclGemm R)

/-! ## The FP32 kernel -/

def fp32 : Matmul R := sixteens gemm.A gemm.B gemm.M gemm.N gemm.K

def asBlockState (s : TiledState R) : BlockState R (fp32 gemm) :=
  { sA := s.lA, sB := s.lB, acc := s.acc, stores := s.stores }

/-- The operation of the FP32 kernel; an item loads the index that is its number. -/
def asMatmulOp (item : Item) : TiledOp → MatmulOp
  | .loadA t => .loadA t (item.1 * 16 + item.2)
  | .loadB t => .loadB t (item.1 * 16 + item.2)
  | .multiply k => .multiply k
  | .store => .store

theorem deal_one (item : Item) :
    strided (item.1 * 16 + item.2) (16 * 16) (16 * 16) = [(item.1 * 16 + item.2 : Nat)] := by
  have once : (16 * 16 - (item.1.val * 16 + item.2.val) + 16 * 16 - 1) / (16 * 16) = 1 := by
    have row := item.1.isLt
    have col := item.2.isLt
    omega
  unfold strided
  rw [once]
  rfl

theorem map_two_reads {α β γ δ : Type*} (view : γ → δ) (first : Option α)
    (second : α → Option β) (result : α → β → γ) :
    (first.bind fun a => (second a).bind fun b => some (result a b)).map view =
      first.bind fun a => (second a).bind fun b => some (view (result a b)) := by
  cases first with
  | none => rfl
  | some a =>
      rw [Option.bind_some, Option.bind_some]
      cases second a with
      | none => rfl
      | some b => rfl

theorem phases_as_fp32 (group : Group) (ts : List Nat) :
    (gemm.phasesFrom group ts).map (fun program item => (program item).map (asMatmulOp item)) =
      (fp32 gemm).phasesFrom group ts := by
  induction ts with
  | nil =>
      have stored : (fun item => (gemm.storePhase group item).map (asMatmulOp item)) =
          (fp32 gemm).storePhase group := by
        funext item
        unfold SyclGemm.storePhase
        rw [apply_ite (List.map (asMatmulOp item))]
        rfl
      exact congrArg (fun program => [program]) stored
  | cons t rest ih =>
      have loaded : (fun item => [TiledOp.loadA t, TiledOp.loadB t].map (asMatmulOp item)) =
          (fp32 gemm).loadPhase t := by
        funext item
        have one := deal_one item
        unfold Matmul.loadPhase
        change _ = (strided (item.1 * 16 + item.2) (16 * 16) (16 * 16)).map (MatmulOp.loadA t) ++
          (strided (item.1 * 16 + item.2) (16 * 16) (16 * 16)).map (MatmulOp.loadB t)
        rw [one]
        rfl
      have multiplied : (fun item : Item => ((List.range 16).map TiledOp.multiply).map
          (asMatmulOp item)) = (fp32 gemm).multiplyPhase := by
        funext item
        rw [List.map_map]
        rfl
      unfold SyclGemm.phasesFrom Matmul.phasesFrom
      rw [List.map_cons, List.map_cons, loaded, multiplied, ih]
      rfl

variable [CommSemiring R]

theorem read_a_eq (fits : gemm.M * gemm.K ≤ 2147483648) (row t lc : Nat) :
    gemm.readA row t lc = readOrZero gemm.M gemm.K gemm.A row (t + lc) := by
  have index : toInt32 (toInt32 (toInt32 (row * gemm.K) + t) + lc) =
      rowMajorIndex row (t + lc) gemm.K := by
    unfold rowMajorIndex
    rw [to_int32_add, to_int32_add, add_assoc, to_int32_add, Nat.cast_add]
  rw [← read_or_zero_int fits]
  unfold SyclGemm.readA readOrZeroAt
  rw [index]

theorem step_as_fp32 (fits : MatricesFit gemm.M gemm.N gemm.K) {group : Group}
    (inside : ∀ item, row group item < gemm.M ∧ col group item < gemm.N) (item : Item)
    (op : TiledOp) (s : TiledState R) :
    (fp32 gemm).step group item (asMatmulOp item op) (asBlockState gemm s) =
      (gemm.step group item op s).map (asBlockState gemm) := by
  have quotient : (item.1.val * 16 + item.2.val) / 16 = item.1 := row_major_div item.2.isLt
  have rest : (item.1.val * 16 + item.2.val) % 16 = item.2 := row_major_mod item.2.isLt
  cases op with
  | loadA t =>
      simp only [Matmul.step, asMatmulOp, fp32, sixteens, quotient, rest, SyclGemm.step,
        read_a_eq gemm fits.a]
      exact (map_two_reads (asBlockState gemm) _ _ fun _ cells => { s with lA := cells }).symm
  | loadB t =>
      simp only [Matmul.step, asMatmulOp, fp32, sixteens, quotient, rest, SyclGemm.step,
        read_or_zero_int fits.b]
      exact (map_two_reads (asBlockState gemm) _ _ fun _ cells => { s with lB := cells }).symm
  | multiply k =>
      exact (map_two_reads (asBlockState gemm) _ _ fun a b =>
        { s with acc := Function.update s.acc item (s.acc item + a * b) }).symm
  | store =>
      have stored := write_at_row_major (inside item).1 (inside item).2 fits.c (s.acc item) s.stores
      simp only [SyclGemm.step, stored]
      rfl

/-- A work-group ends as the block of the FP32 kernel does. -/
theorem run_group_writes (fits : MatricesFit gemm.M gemm.N gemm.K) {group : Group}
    (inside : ∀ item, row group item < gemm.M ∧ col group item < gemm.N)
    (orders : List (List (Item × TiledOp)))
    (each : List.Forall₂ Interleaves (gemm.phases group) orders) :
    ∃ final, gemm.runGroup group orders = some final ∧
      Written (fp32 gemm) group (asBlockState gemm final) := by
  have own : List.Forall₂ Interleaves
      ((gemm.phases group).map fun program (item : Item) => (program item).map (asMatmulOp item))
      (orders.map (translated asMatmulOp)) := by
    rw [List.forall₂_map_left_iff, List.forall₂_map_right_iff]
    exact each.imp fun _ _ interleaves => translated_interleaves interleaves
  have scheduled : List.Forall₂ Interleaves ((fp32 gemm).phases group)
      (orders.map (translated asMatmulOp)) := by
    change List.Forall₂ Interleaves ((fp32 gemm).phasesFrom group (strided 0 gemm.K 16)) _
    rw [← phases_as_fp32]
    exact own
  obtain ⟨final, ran, written⟩ := run_block_writes (fp32 gemm) group _ scheduled
  have viewed := run_translated (step_as_fp32 gemm fits inside) orders SyclGemm.initial
  change (fp32 gemm).runBlock group (orders.map (translated asMatmulOp)) = _ at viewed
  rw [ran] at viewed
  obtain ⟨own, ranOwn, rfl⟩ := Option.map_eq_some_iff.mp viewed.symm
  exact ⟨own, ranOwn, written⟩

/-! ## The grid -/

section Groups

variable {gemm} {groups group : Group}

omit [CommSemiring R] in
theorem launch_tiles (launched : launchMatmulSyclBf16 gemm = some groups) :
    groups.1 * 16 = gemm.M ∧ groups.2 * 16 = gemm.N := by
  unfold launchMatmulSyclBf16 at launched
  split at launched
  case isTrue => cases launched
  case isFalse whole =>
    cases launched
    dsimp only
    omega

omit [CommSemiring R] in
theorem items_inside (launched : launchMatmulSyclBf16 gemm = some groups)
    (inRange : InRange groups group) (item : Item) :
    row group item < gemm.M ∧ col group item < gemm.N := by
  obtain ⟨rows, cols⟩ := launch_tiles launched
  obtain ⟨inRow, inCol⟩ := inRange
  have r := item.1.isLt
  have c := item.2.isLt
  unfold row col
  omega

def product (gemm : SyclGemm R) (i j : Nat) : R :=
  ∑ x ∈ Finset.range gemm.K, gemm.A (i * gemm.K + x) * gemm.B (x * gemm.N + j)

theorem mem_written (launched : launchMatmulSyclBf16 gemm = some groups)
    (inRange : InRange groups group) {final : TiledState R}
    (written : Written (fp32 gemm) group (asBlockState gemm final)) (entry : Nat × R) :
    entry ∈ final.stores ↔ ∃ item : Item, entry =
      (row group item * gemm.N + col group item,
        product gemm (row group item) (col group item)) := by
  have inside := items_inside launched inRange
  have one : ∀ item : Item, (final.stores.filter fun entry =>
      entry.1 = address (fp32 gemm) group item) =
        [(row group item * gemm.N + col group item,
          product gemm (row group item) (col group item))] :=
    fun item => written.value item (inside item).1 (inside item).2
  constructor
  · intro member
    obtain ⟨item, -, -, place⟩ := written.only entry member
    have kept : entry ∈ final.stores.filter fun entry =>
        entry.1 = address (fp32 gemm) group item :=
      List.mem_filter.mpr ⟨member, decide_eq_true place⟩
    rw [one item, List.mem_singleton] at kept
    exact ⟨item, kept⟩
  · rintro ⟨item, rfl⟩
    have kept := List.mem_singleton_self (row group item * gemm.N + col group item,
      product gemm (row group item) (col group item))
    rw [← one item] at kept
    exact (List.mem_filter.mp kept).1

end Groups

/-- A launch that the runtime lets through: in any order of the items between the
barriers no access is without a result, and in any order of the work-groups it leaves
the product in `C` and writes nothing else. -/
theorem sycl_matmul_is_product {gemm : SyclGemm R} (fits : MatricesFit gemm.M gemm.N gemm.K)
    {groups : Group} (launched : launchMatmulSyclBf16 gemm = some groups)
    (orders : Group → List (List (Item × TiledOp)))
    (scheduled : ∀ group, InRange groups group →
      List.Forall₂ Interleaves (gemm.phases group) (orders group)) :
    ∃ final : Group → TiledState R,
      (∀ group, InRange groups group →
        gemm.runGroup group (orders group) = some (final group)) ∧
      ∀ log : List (Group × (Nat × R)),
        Interleaves (fun group => if InRange groups group then (final group).stores else [])
          log →
        ∀ memory : Nat → R,
          (∀ i < gemm.M, ∀ j < gemm.N, applyWrites (log.map Prod.snd) memory (i * gemm.N + j) =
            ∑ x ∈ Finset.range gemm.K, gemm.A (i * gemm.K + x) * gemm.B (x * gemm.N + j)) ∧
          ∀ address, (∀ i < gemm.M, ∀ j < gemm.N, address ≠ i * gemm.N + j) →
            applyWrites (log.map Prod.snd) memory address = memory address := by
  obtain ⟨rows, cols⟩ := launch_tiles launched
  have results : ∀ group, ∃ final, InRange groups group →
      gemm.runGroup group (orders group) = some final ∧
        Written (fp32 gemm) group (asBlockState gemm final) := by
    intro group
    by_cases inRange : InRange groups group
    · obtain ⟨final, ran, written⟩ := run_group_writes gemm fits (items_inside launched inRange) _
        (scheduled group inRange)
      exact ⟨final, fun _ => ⟨ran, written⟩⟩
    · exact ⟨SyclGemm.initial, fun contrary => absurd contrary inRange⟩
  choose final result using results
  refine ⟨final, fun group inRange => (result group inRange).1, fun log interleaves memory => ?_⟩
  refine matrix_memory (product gemm) (fun group inRange entry member => ?_)
    (fun i inRow j inCol => ?_) interleaves memory
  · obtain ⟨item, rfl⟩ := (mem_written launched inRange (result group inRange).2 entry).mp member
    obtain ⟨inRow, inCol⟩ := items_inside launched inRange item
    exact ⟨row group item, inRow, col group item, inCol, rfl⟩
  · have inRange : InRange groups (i / 16, j / 16) := by
      unfold InRange
      omega
    refine ⟨(i / 16, j / 16), inRange, ?_⟩
    refine (mem_written launched inRange (result _ inRange).2 _).mpr
      ⟨(⟨i % 16, by omega⟩, ⟨j % 16, by omega⟩), ?_⟩
    unfold row col
    dsimp only
    rw [Nat.div_add_mod', Nat.div_add_mod']

/-- A product of ones in one work-group, one item after another. -/
abbrev ones : SyclGemm Nat :=
  { M := 16, N := 16, K := 3, counters := by decide, A := fun _ => 1, B := fun _ => 1 }

def onesOrders : List (List (Item × TiledOp)) :=
  (ones.phases (0, 0)).map (oneByOne ((List.finRange 16).product (List.finRange 16)))

theorem sycl_matmul_ones : ∃ final, ones.runGroup (0, 0) onesOrders = some final ∧
    applyWrites final.stores (fun _ => 0) (7 * 16 + 15) = 3 := by
  have launched : launchMatmulSyclBf16 ones = some (1, 1) := rfl
  have single : ∀ group, InRange (1, 1) group → group = (0, 0) := by
    rintro ⟨row, col⟩ ⟨inRow, inCol⟩
    exact Prod.ext (Nat.lt_one_iff.mp inRow) (Nat.lt_one_iff.mp inCol)
  have fits : MatricesFit ones.M ones.N ones.K := ⟨by decide, by decide, by decide⟩
  obtain ⟨final, ran, memory⟩ :=
    sycl_matmul_is_product fits launched (fun _ => onesOrders) (fun group inRange => by
      rw [single group inRange]
      exact one_by_one_orders ((List.nodup_finRange 16).product (List.nodup_finRange 16))
        (fun item => List.mem_product.mpr ⟨List.mem_finRange _, List.mem_finRange _⟩) _)
  have interleaves : Interleaves (fun group => if InRange (1, 1) group then (final group).stores
      else []) ((final (0, 0)).stores.map (Prod.mk (0, 0))) := by
    have order := one_by_one_interleaves (List.nodup_singleton ((0, 0) : Group))
      fun group missing => (if_neg fun inRange => missing (List.mem_singleton.mpr (single group inRange))
        : (if InRange (1, 1) group then (final group).stores else []) = [])
    unfold oneByOne at order
    rw [List.flatMap_singleton] at order
    exact order
  have written := (memory _ interleaves fun _ => 0).1 7 (by decide) 15 (by decide)
  rw [List.map_map, Function.comp_def, List.map_id'] at written
  exact ⟨final (0, 0), ran (0, 0) (by decide), written⟩

end AmpFormal.SyclProduct
