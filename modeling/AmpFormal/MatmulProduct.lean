import AmpFormal.IntIndexing
import AmpFormal.MatmulKernel

/-!
# The tiled product is the product

The loads of an iteration may write a cell from several operations; all of them
write the value that the cell stands for. After the barrier every cell of both
tiles is therefore loaded, whatever the order, and each accumulator gains the
products of its row and column over one tile.
-/

namespace AmpFormal.MatmulProduct

open AmpFormal.BarrierPhases AmpFormal.IntIndexing AmpFormal.MatmulKernel
open AmpFormal.MatrixLayouts

set_option autoImplicit false

variable {R : Type*} (kernel : Matmul R)

/-! ## Indices -/

theorem exists_thread {n : Nat} (below : n < kernel.bm * kernel.bn) :
    ∃ thread, kernel.tid thread = n := by
  refine ⟨(⟨n / kernel.bn, ?_⟩, ⟨n % kernel.bn, Nat.mod_lt n kernel.cols⟩), ?_⟩
  · exact Nat.div_lt_of_lt_mul (by rwa [Nat.mul_comm])
  · exact Nat.div_add_mod' n kernel.bn

/-- The element of `C` that a thread computes. -/
def address (block : Block) (thread : Thread kernel) : Nat :=
  kernel.row block thread * kernel.N + kernel.col block thread

theorem thread_of_address {block : Block} {thread other : Thread kernel}
    (inside : kernel.col block thread < kernel.N) (inside' : kernel.col block other < kernel.N)
    (same : address kernel block other = address kernel block thread) : other = thread := by
  obtain ⟨row, col⟩ := row_major_injective inside' inside same
  unfold Matmul.row at row
  unfold Matmul.col at col
  exact Prod.ext (Fin.ext (by omega)) (Fin.ext (by omega))

theorem block_of_address {block other : Block} {thread thread' : Thread kernel}
    (inside : kernel.col block thread < kernel.N) (inside' : kernel.col other thread' < kernel.N)
    (same : address kernel other thread' = address kernel block thread) : other = block := by
  obtain ⟨row, col⟩ := row_major_injective inside' inside same
  have rows := (row_major_injective thread'.1.isLt thread.1.isLt row).1
  have cols := (row_major_injective thread'.2.isLt thread.2.isLt col).1
  exact Prod.ext rows cols

theorem exists_owner {i j : Nat} (row : i < kernel.M) (col : j < kernel.N) :
    ∃ block thread, kernel.InGrid block ∧ kernel.row block thread = i ∧
      kernel.col block thread = j := by
  refine ⟨(i / kernel.bm, j / kernel.bn), (⟨i % kernel.bm, Nat.mod_lt i kernel.rows⟩,
    ⟨j % kernel.bn, Nat.mod_lt j kernel.cols⟩), ⟨?_, ?_⟩, ?_, ?_⟩
  · exact ceil_div_bound kernel.rows row
  · exact ceil_div_bound kernel.cols col
  · exact Nat.div_add_mod' i kernel.bm
  · exact Nat.div_add_mod' j kernel.bn

theorem mem_store_phase {block : Block} {thread : Thread kernel} {op : MatmulOp} :
    op ∈ kernel.storePhase block thread ↔
      (kernel.row block thread < kernel.M ∧ kernel.col block thread < kernel.N) ∧ op = .store := by
  unfold Matmul.storePhase
  split
  case isTrue inside => simp [inside]
  case isFalse outside => simp [outside]

/-! ## The values of the tiles -/

section Values

variable [CommSemiring R]

def aVal (i x : Nat) : R := if i < kernel.M ∧ x < kernel.K then kernel.A (i * kernel.K + x) else 0

def bVal (x j : Nat) : R := if x < kernel.K ∧ j < kernel.N then kernel.B (x * kernel.N + j) else 0

def term (i j x : Nat) : R := aVal kernel i x * bVal kernel x j

theorem sum_terms {i j n : Nat} (row : i < kernel.M) (col : j < kernel.N) (all : kernel.K ≤ n) :
    ∑ x ∈ Finset.range n, term kernel i j x =
      ∑ x ∈ Finset.range kernel.K, kernel.A (i * kernel.K + x) * kernel.B (x * kernel.N + j) := by
  rw [← Finset.sum_subset (Finset.range_mono all)]
  · refine Finset.sum_congr rfl fun x member => ?_
    have inside := Finset.mem_range.mp member
    rw [term, aVal, bVal, if_pos ⟨row, inside⟩, if_pos ⟨inside, col⟩]
  · intro x _ outside
    rw [Finset.mem_range] at outside
    rw [term, aVal, if_neg (by omega), zero_mul]

def tileA (block : Block) (kb r c : Nat) : R := aVal kernel (block.1 * kernel.bm + r) (kb + c)

def tileB (block : Block) (kb r c : Nat) : R := bVal kernel (kb + r) (block.2 * kernel.bn + c)

theorem read_or_zero_eq {height width r c : Nat} {data : Nat → R} :
    readOrZero height width data r c =
      some (if r < height ∧ c < width then data (r * width + c) else 0) := by
  unfold readOrZero
  split
  case isTrue inside => rw [readGlobal, if_pos (row_major_lt inside.1 inside.2)]
  case isFalse => rfl

/-- With no more elements than an `int` counts, the index of the source finds the same. -/
theorem read_or_zero_int {height width : Nat} (fits : height * width ≤ 2147483648)
    (data : Nat → R) (r c : Nat) :
    readOrZeroAt height width data r c = readOrZero height width data r c := by
  rw [read_or_zero_at_eq fits, read_or_zero_eq]

theorem cell_of_index {height width idx : Nat} (positive : 0 < width)
    (inside : idx < height * width) : idx / width < height ∧ idx % width < width :=
  ⟨Nat.div_lt_of_lt_mul (by rwa [Nat.mul_comm]), Nat.mod_lt idx positive⟩

theorem step_load_a {block : Block} {thread : Thread kernel} {kb idx : Nat}
    (inside : idx < kernel.bm * kernel.bk) (s : BlockState R kernel) :
    kernel.step block thread (.loadA kb idx) s =
      some { s with
        sA := setCell s.sA (idx / kernel.bk) (idx % kernel.bk)
          (tileA kernel block kb (idx / kernel.bk) (idx % kernel.bk)) } := by
  unfold Matmul.step writeCell
  dsimp only
  rw [read_or_zero_eq, Option.bind_eq_bind, Option.bind_some,
    if_pos (cell_of_index kernel.depth inside)]
  rfl

theorem step_load_b {block : Block} {thread : Thread kernel} {kb idx : Nat}
    (inside : idx < kernel.bk * kernel.bn) (s : BlockState R kernel) :
    kernel.step block thread (.loadB kb idx) s =
      some { s with
        sB := setCell s.sB (idx / kernel.bn) (idx % kernel.bn)
          (tileB kernel block kb (idx / kernel.bn) (idx % kernel.bn)) } := by
  unfold Matmul.step writeCell
  dsimp only
  rw [read_or_zero_eq, Option.bind_eq_bind, Option.bind_some,
    if_pos (cell_of_index kernel.cols inside)]
  rfl

end Values

/-! ## The load phase -/

section Load

variable {width : Nat} {value : Nat → Nat → R} {cells : Cells R} {done : List Nat}

/-- The cells of these indices hold the values they stand for. -/
def Holds (width : Nat) (value : Nat → Nat → R) (cells : Cells R) (done : List Nat) : Prop :=
  ∀ idx ∈ done, cells (idx / width) (idx % width) = some (value (idx / width) (idx % width))

theorem holds_set_cell (held : Holds width value cells done) (idx : Nat) :
    Holds width value (setCell cells (idx / width) (idx % width)
      (value (idx / width) (idx % width))) (done ++ [idx]) := by
  intro other member
  unfold setCell
  split
  case isTrue same => rw [same.1, same.2]
  case isFalse different =>
    rcases List.mem_append.mp member with old | new
    · exact held other old
    · rw [List.mem_singleton.mp new] at different
      exact absurd ⟨rfl, rfl⟩ different

theorem holds_append_other (held : Holds width value cells done) :
    Holds width value cells (done ++ []) := by
  rwa [List.append_nil]

end Load

def indexA : MatmulOp → Option Nat
  | .loadA _ idx => some idx
  | _ => none

def indexB : MatmulOp → Option Nat
  | .loadB _ idx => some idx
  | _ => none

theorem mem_load_phase {kb : Nat} {thread : Thread kernel} {op : MatmulOp}
    (member : op ∈ kernel.loadPhase kb thread) :
    (∃ idx < kernel.bm * kernel.bk, op = .loadA kb idx) ∨
      ∃ idx < kernel.bk * kernel.bn, op = .loadB kb idx := by
  have size : 0 < kernel.bm * kernel.bn := Nat.mul_pos kernel.rows kernel.cols
  rcases List.mem_append.mp member with first | second
  · obtain ⟨idx, loaded, rfl⟩ := List.mem_map.mp first
    exact .inl ⟨idx, ((mem_strided size).mp loaded).1, rfl⟩
  · obtain ⟨idx, loaded, rfl⟩ := List.mem_map.mp second
    exact .inr ⟨idx, ((mem_strided size).mp loaded).1, rfl⟩

theorem load_phase_covers {kb : Nat} :
    (∀ idx < kernel.bm * kernel.bk, ∃ thread, .loadA kb idx ∈ kernel.loadPhase kb thread) ∧
      ∀ idx < kernel.bk * kernel.bn, ∃ thread, .loadB kb idx ∈ kernel.loadPhase kb thread := by
  have size : 0 < kernel.bm * kernel.bn := Nat.mul_pos kernel.rows kernel.cols
  constructor
  · intro idx inside
    obtain ⟨thread, number⟩ := exists_thread kernel (Nat.mod_lt idx size)
    refine ⟨thread, List.mem_append_left _ (List.mem_map_of_mem ?_)⟩
    rw [number]
    exact strided_covers size inside
  · intro idx inside
    obtain ⟨thread, number⟩ := exists_thread kernel (Nat.mod_lt idx size)
    refine ⟨thread, List.mem_append_right _ (List.mem_map_of_mem ?_)⟩
    rw [number]
    exact strided_covers size inside

variable [CommSemiring R]

structure Loaded (block : Block) (kb : Nat) (s : BlockState R kernel) : Prop where
  a : ∀ r < kernel.bm, ∀ c < kernel.bk, s.sA r c = some (tileA kernel block kb r c)
  b : ∀ r < kernel.bk, ∀ c < kernel.bn, s.sB r c = some (tileB kernel block kb r c)

structure Accumulated (block : Block) (n : Nat) (s : BlockState R kernel) : Prop where
  sums : ∀ thread, s.acc thread =
    ∑ x ∈ Finset.range n, term kernel (kernel.row block thread) (kernel.col block thread) x
  unwritten : s.stores = []

structure LoadProgress (block : Block) (kb : Nat) (start : BlockState R kernel)
    (done : List (Thread kernel × MatmulOp)) (s : BlockState R kernel) : Prop where
  a : Holds kernel.bk (tileA kernel block kb) s.sA (done.filterMap fun entry => indexA entry.2)
  b : Holds kernel.bn (tileB kernel block kb) s.sB (done.filterMap fun entry => indexB entry.2)
  acc : s.acc = start.acc
  stores : s.stores = start.stores

theorem load_step {block : Block} {kb : Nat} {start s : BlockState R kernel}
    {done : List (Thread kernel × MatmulOp)} {thread : Thread kernel} {op : MatmulOp}
    (member : op ∈ kernel.loadPhase kb thread)
    (progress : LoadProgress kernel block kb start done s) :
    ∃ s', kernel.step block thread op s = some s' ∧
      LoadProgress kernel block kb start (done ++ [(thread, op)]) s' := by
  rcases mem_load_phase kernel member with ⟨idx, inside, rfl⟩ | ⟨idx, inside, rfl⟩
  · refine ⟨_, step_load_a kernel inside s, ?_, ?_, progress.acc, progress.stores⟩
    · rw [List.filterMap_append]
      exact holds_set_cell progress.a idx
    · rw [List.filterMap_append]
      exact holds_append_other progress.b
  · refine ⟨_, step_load_b kernel inside s, ?_, ?_, progress.acc, progress.stores⟩
    · rw [List.filterMap_append]
      exact holds_append_other progress.a
    · rw [List.filterMap_append]
      exact holds_set_cell progress.b idx

theorem load_phase_triple (block : Block) (kb n : Nat) :
    PhaseTriple (kernel.step block) (Accumulated kernel block n) (kernel.loadPhase kb)
      fun s => Loaded kernel block kb s ∧ Accumulated kernel block n s := by
  intro order interleaves start accumulated
  have initial : LoadProgress kernel block kb start [] start :=
    ⟨fun idx member => (nomatch member), fun idx member => (nomatch member), rfl, rfl⟩
  obtain ⟨final, executed, progress⟩ := execute_invariant (kernel.step block) initial
    fun before thread op after s (split : order = _) progress =>
      load_step kernel (interleaves.mem_iff.mp (split ▸ by simp)) progress
  refine ⟨final, executed, ⟨?_, ?_⟩, ?_⟩
  · intro r row c col
    obtain ⟨thread, loaded⟩ := (load_phase_covers kernel).1 (r * kernel.bk + c)
      (row_major_lt row col)
    have cell := progress.a (r * kernel.bk + c)
      (List.mem_filterMap.mpr ⟨_, interleaves.mem_iff.mpr loaded, rfl⟩)
    rwa [row_major_div col, row_major_mod col] at cell
  · intro r row c col
    obtain ⟨thread, loaded⟩ := (load_phase_covers kernel).2 (r * kernel.bn + c)
      (row_major_lt row col)
    have cell := progress.b (r * kernel.bn + c)
      (List.mem_filterMap.mpr ⟨_, interleaves.mem_iff.mpr loaded, rfl⟩)
    rwa [row_major_div col, row_major_mod col] at cell
  · exact ⟨fun thread => by rw [progress.acc, accumulated.sums],
      progress.stores.trans accumulated.unwritten⟩

/-! ## The multiply phase -/

def product (block : Block) (kb : Nat) (thread : Thread kernel) : MatmulOp → R
  | .multiply k => term kernel (kernel.row block thread) (kernel.col block thread) (kb + k)
  | _ => 0

/-- What the operations of a multiply phase have done so far. -/
structure MultiplyProgress (block : Block) (kb : Nat) (start : BlockState R kernel)
    (done : List (Thread kernel × MatmulOp)) (s : BlockState R kernel) : Prop where
  a : s.sA = start.sA
  b : s.sB = start.sB
  acc : ∀ thread, s.acc thread = start.acc thread +
    (((done.filter fun entry => entry.1 = thread).map Prod.snd).map
      (product kernel block kb thread)).sum
  stores : s.stores = start.stores

theorem multiply_step {block : Block} {kb : Nat} {start s : BlockState R kernel}
    {done : List (Thread kernel × MatmulOp)} {thread : Thread kernel} {op : MatmulOp}
    (loaded : Loaded kernel block kb start) (member : op ∈ kernel.multiplyPhase thread)
    (progress : MultiplyProgress kernel block kb start done s) :
    ∃ s', kernel.step block thread op s = some s' ∧
      MultiplyProgress kernel block kb start (done ++ [(thread, op)]) s' := by
  obtain ⟨k, small, rfl⟩ := List.mem_map.mp member
  have inside := List.mem_range.mp small
  have stepped : kernel.step block thread (.multiply k) s = some { s with
      acc := Function.update s.acc thread
        (s.acc thread + product kernel block kb thread (.multiply k)) } := by
    unfold Matmul.step readCell
    dsimp only
    rw [if_pos ⟨thread.1.isLt, inside⟩, if_pos ⟨inside, thread.2.isLt⟩, progress.a, progress.b,
      loaded.a thread.1 thread.1.isLt k inside, loaded.b k inside thread.2 thread.2.isLt]
    rfl
  refine ⟨_, stepped, progress.a, progress.b, fun other => ?_, progress.stores⟩
  dsimp only
  rw [List.filter_append, List.map_append, List.map_append, List.sum_append, ← add_assoc,
    ← progress.acc other]
  by_cases same : thread = other
  · subst same
    simp
  · rw [Function.update_of_ne (Ne.symm same)]
    simp [same]

theorem range_sum (f : Nat → R) (n : Nat) :
    ((List.range n).map f).sum = ∑ k ∈ Finset.range n, f k := by
  induction n with
  | zero => rfl
  | succ n ih => rw [List.range_succ, List.map_append, List.sum_append, ih, Finset.sum_range_succ,
      List.map_singleton, List.sum_singleton]

theorem multiply_phase_triple (block : Block) (kb : Nat) :
    PhaseTriple (kernel.step block)
      (fun s => Loaded kernel block kb s ∧ Accumulated kernel block kb s) kernel.multiplyPhase
      (Accumulated kernel block (kb + kernel.bk)) := by
  rintro order interleaves start ⟨loaded, accumulated⟩
  have initial : MultiplyProgress kernel block kb start [] start :=
    ⟨rfl, rfl, fun thread => by simp, rfl⟩
  obtain ⟨final, executed, progress⟩ := execute_invariant (kernel.step block) initial
    fun before thread op after s (split : order = _) progress =>
      multiply_step kernel loaded (interleaves.mem_iff.mp (split ▸ by simp)) progress
  refine ⟨final, executed, fun thread => ?_, progress.stores.trans accumulated.unwritten⟩
  rw [progress.acc, interleaves thread, accumulated.sums, Finset.sum_range_add,
    Matmul.multiplyPhase, List.map_map, range_sum]
  rfl

/-! ## The store and the whole block -/

structure Written (block : Block) (s : BlockState R kernel) : Prop where
  value : ∀ thread, kernel.row block thread < kernel.M → kernel.col block thread < kernel.N →
    (s.stores.filter fun entry => entry.1 = address kernel block thread) =
    [(address kernel block thread,
      ∑ x ∈ Finset.range kernel.K, kernel.A (kernel.row block thread * kernel.K + x) *
        kernel.B (x * kernel.N + kernel.col block thread))]
  only : ∀ entry ∈ s.stores, ∃ thread, kernel.row block thread < kernel.M ∧
    kernel.col block thread < kernel.N ∧ entry.1 = address kernel block thread

theorem store_phase_triple (block : Block) {n : Nat} (all : kernel.K ≤ n) :
    PhaseTriple (kernel.step block) (Accumulated kernel block n) (kernel.storePhase block)
      (Written kernel block) := by
  intro order interleaves start accumulated
  obtain ⟨final, executed, -, stores⟩ := execute_invariant (kernel.step block)
    (I := fun done s => s.acc = start.acc ∧
      s.stores = done.map fun entry => (address kernel block entry.1, start.acc entry.1))
    ⟨rfl, accumulated.unwritten⟩ fun before thread op after s (split : order = _) progress => by
      obtain ⟨-, rfl⟩ := (mem_store_phase kernel).mp
        (interleaves.mem_iff.mp (split ▸ by simp : (thread, op) ∈ order))
      refine ⟨_, rfl, progress.1, ?_⟩
      rw [progress.2, progress.1, List.map_append]
      rfl
  refine ⟨final, executed, fun thread row col => ?_, fun entry member => ?_⟩
  · have mine := interleaves.filter_eq
      (fun other _ => address kernel block other = address kernel block thread) thread
      fun other op member same => thread_of_address kernel col
        ((mem_store_phase kernel).mp member).1.2 (of_decide_eq_true same)
    rw [stores, List.filter_map]
    refine (congrArg (List.map _) mine).trans ?_
    rw [Matmul.storePhase, if_pos ⟨row, col⟩]
    simp [accumulated.sums, sum_terms kernel row col all, address]
  · rw [stores] at member
    obtain ⟨⟨thread, op⟩, stored, rfl⟩ := List.mem_map.mp member
    obtain ⟨⟨row, col⟩, -⟩ := (mem_store_phase kernel).mp (interleaves.mem_iff.mp stored)
    exact ⟨thread, row, col, rfl⟩

theorem phases_from_triple (block : Block) (count kb : Nat)
    (all : kernel.K ≤ kb + count * kernel.bk) :
    RunTriple (kernel.step block) (Accumulated kernel block kb)
      (kernel.phasesFrom block (List.range' kb count kernel.bk)) (Written kernel block) := by
  induction count generalizing kb with
  | zero =>
      rw [Nat.zero_mul, Nat.add_zero] at all
      exact run_triple_cons (store_phase_triple kernel block all)
        (run_triple_nil fun _ holds => holds)
  | succ count ih =>
      refine run_triple_cons (load_phase_triple kernel block kb kb)
        (run_triple_cons (multiply_phase_triple kernel block kb) (ih (kb + kernel.bk) ?_))
      rw [Nat.succ_mul] at all
      omega

/-- Whatever the orders of its phases, a block computes its tile of the product. -/
theorem run_block_writes (block : Block) (orders : List (List (Thread kernel × MatmulOp)))
    (each : List.Forall₂ Interleaves (kernel.phases block) orders) :
    ∃ final, kernel.runBlock block orders = some final ∧ Written kernel block final := by
  have all : kernel.K ≤ 0 + (kernel.K - 0 + kernel.bk - 1) / kernel.bk * kernel.bk := by
    have whole := Nat.div_add_mod' (kernel.K - 0 + kernel.bk - 1) kernel.bk
    have small := Nat.mod_lt (kernel.K - 0 + kernel.bk - 1) kernel.depth
    omega
  exact phases_from_triple kernel block _ 0 all orders each kernel.initial
    ⟨fun thread => by simp [Matmul.initial], rfl⟩

/-! ## The grid -/

/-- The writes of all blocks of the grid, each block in any order of its phases
and the blocks interleaved in any way: every element of `C` once, with its value,
and nothing else. No access is out of range. -/
theorem tiled_matmul_is_product (orders : Block → List (List (Thread kernel × MatmulOp)))
    (scheduled : ∀ block, kernel.InGrid block →
      List.Forall₂ Interleaves (kernel.phases block) (orders block)) :
    ∃ final : Block → BlockState R kernel,
      (∀ block, kernel.InGrid block →
        kernel.runBlock block (orders block) = some (final block)) ∧
      ∀ log : List (Block × (Nat × R)),
        Interleaves (fun block => if kernel.InGrid block then (final block).stores else []) log →
        (∀ i < kernel.M, ∀ j < kernel.N,
          (log.filter fun entry => entry.2.1 = i * kernel.N + j).map Prod.snd =
            [(i * kernel.N + j, ∑ x ∈ Finset.range kernel.K,
              kernel.A (i * kernel.K + x) * kernel.B (x * kernel.N + j))]) ∧
        ∀ entry ∈ log, ∃ i < kernel.M, ∃ j < kernel.N, entry.2.1 = i * kernel.N + j := by
  have results : ∀ block, ∃ final, kernel.InGrid block →
      kernel.runBlock block (orders block) = some final ∧ Written kernel block final := by
    intro block
    by_cases inside : kernel.InGrid block
    · obtain ⟨final, ran, written⟩ := run_block_writes kernel block _ (scheduled block inside)
      exact ⟨final, fun _ => ⟨ran, written⟩⟩
    · exact ⟨kernel.initial, fun contrary => absurd contrary inside⟩
  choose final result using results
  refine ⟨final, fun block inside => (result block inside).1, fun log interleaves => ⟨?_, ?_⟩⟩
  · intro i row j col
    obtain ⟨block, thread, inside, rfl, rfl⟩ := exists_owner kernel row col
    have written := (result block inside).2
    have mine := interleaves.filter_eq
      (fun _ entry => entry.1 = address kernel block thread) block fun other entry member same => by
        split at member
        case isTrue otherInside =>
          obtain ⟨thread', -, col', found⟩ := (result other otherInside).2.only entry member
          exact block_of_address kernel col col' (found.symm.trans (of_decide_eq_true same))
        case isFalse => cases member
    have own := written.value thread row col
    rw [if_pos inside, own] at mine
    exact (congrArg (List.map Prod.snd) mine).trans rfl
  · rintro ⟨block, entry⟩ member
    have stored := interleaves.mem_iff.mp member
    split at stored
    case isTrue inside =>
      obtain ⟨thread, row, col, found⟩ := (result block inside).2.only entry stored
      exact ⟨_, row, _, col, found⟩
    case isFalse => cases stored

/-- Two threads of a block of 2 x 1, the second always first. -/
theorem tiled_matmul_two_rows : ∃ final : Block → BlockState Nat
      ⟨2, 1, 1, by decide, by decide, by decide, 2, 1, 1, fun i => i + 2, fun _ => 5⟩,
    (final (0, 0)).stores = [(1, 15), (0, 10)] := by
  obtain ⟨final, ran, -⟩ := tiled_matmul_is_product
    ⟨2, 1, 1, by decide, by decide, by decide, 2, 1, 1, fun i => i + 2, fun _ => 5⟩
    (fun _ => [[((1, 0), .loadA 0 1), ((0, 0), .loadA 0 0), ((0, 0), .loadB 0 0)],
      [((1, 0), .multiply 0), ((0, 0), .multiply 0)], [((1, 0), .store), ((0, 0), .store)]])
    (by
      rintro ⟨y, x⟩ ⟨row, col⟩
      obtain rfl : y = 0 := Nat.lt_one_iff.mp row
      obtain rfl : x = 0 := Nat.lt_one_iff.mp col
      exact .cons (by decide) (.cons (by decide) (.cons (by decide) .nil)))
  have stores := congrArg (Option.map BlockState.stores) (ran (0, 0) (by decide))
  exact ⟨final, Option.some.inj (stores.symm.trans (by decide))⟩

end AmpFormal.MatmulProduct
