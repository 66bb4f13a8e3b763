import Mathlib.Algebra.BigOperators.Ring.Finset

/-!
# Matrices in linear buffers

A layout places the entries of a matrix in a buffer, by rows or by columns, with a
leading dimension. Reading a buffer by rows or by columns differs by a transposition,
so a general matrix product that is only implemented for one order serves the other
one when its operands change places.
-/

namespace AmpFormal.MatrixLayouts

set_option autoImplicit false

/-! ## Row-major indices -/

theorem row_major_lt {width i j m : Nat} (row : i < m) (col : j < width) :
    i * width + j < m * width := by
  calc i * width + j < i * width + width := Nat.add_lt_add_left col _
    _ = (i + 1) * width := (Nat.succ_mul i width).symm
    _ ≤ m * width := Nat.mul_le_mul_right width row

theorem row_major_div {width i j : Nat} (col : j < width) : (i * width + j) / width = i := by
  rw [Nat.mul_comm, Nat.mul_add_div (Nat.zero_lt_of_lt col), Nat.div_eq_of_lt col, Nat.add_zero]

theorem row_major_mod {width i j : Nat} (col : j < width) : (i * width + j) % width = j := by
  rw [Nat.mul_comm, Nat.mul_add_mod, Nat.mod_eq_of_lt col]

theorem row_major_injective {i j i' j' width : Nat} (col : j < width) (col' : j' < width)
    (same : i * width + j = i' * width + j') : i = i' ∧ j = j' := by
  have rows := congrArg (· / width) same
  have cols := congrArg (· % width) same
  simp only [row_major_div col, row_major_div col'] at rows
  simp only [row_major_mod col, row_major_mod col'] at cols
  exact ⟨rows, cols⟩

/-! ## Layouts -/

inductive Order where
  | row
  | col
  deriving DecidableEq, Repr

inductive Operation where
  | none
  | transpose
  deriving DecidableEq, Repr

/-- A `rows` by `cols` matrix whose rows (or columns) start `ld` entries apart. -/
structure Layout where
  order : Order
  rows : Nat
  cols : Nat
  ld : Nat
  deriving DecidableEq, Repr

namespace Order

def flip : Order → Order
  | .row => .col
  | .col => .row

end Order

namespace Layout

def address (layout : Layout) (r c : Nat) : Nat :=
  match layout.order with
  | .row => r * layout.ld + c
  | .col => c * layout.ld + r

/-- The entries that follow each other fit in the leading dimension. -/
def Fits (layout : Layout) : Prop :=
  match layout.order with
  | .row => layout.cols ≤ layout.ld
  | .col => layout.rows ≤ layout.ld

def Holds (layout : Layout) (index : Nat) : Prop :=
  ∃ r < layout.rows, ∃ c < layout.cols, index = layout.address r c

def flip (layout : Layout) : Layout :=
  { order := layout.order.flip, rows := layout.cols, cols := layout.rows, ld := layout.ld }

@[simp]
theorem flip_address (layout : Layout) (r c : Nat) :
    layout.flip.address r c = layout.address c r := by
  unfold address flip
  cases layout.order with
  | row => rfl
  | col => rfl

theorem flip_fits (layout : Layout) : layout.flip.Fits ↔ layout.Fits := by
  unfold Fits flip
  cases layout.order with
  | row => rfl
  | col => rfl

theorem flip_holds (layout : Layout) (index : Nat) :
    layout.flip.Holds index ↔ layout.Holds index := by
  constructor
  · rintro ⟨r, row, c, col, place⟩
    exact ⟨c, col, r, row, by rw [place, flip_address]⟩
  · rintro ⟨r, row, c, col, place⟩
    exact ⟨c, col, r, row, by rw [place, flip_address]⟩

theorem packed_holds {rows cols index : Nat}
    (held : Layout.Holds { order := .row, rows, cols, ld := cols } index) :
    index < rows * cols := by
  obtain ⟨r, row, c, col, rfl⟩ := held
  exact row_major_lt row col

/-- No two entries share a place. -/
theorem address_injective {layout : Layout} (fits : layout.Fits) {r c r' c' : Nat}
    (row : r < layout.rows) (col : c < layout.cols) (row' : r' < layout.rows)
    (col' : c' < layout.cols) (same : layout.address r c = layout.address r' c') :
    r = r' ∧ c = c' := by
  unfold address at same
  unfold Fits at fits
  cases order : layout.order with
  | row =>
      simp only [order] at same fits
      exact row_major_injective (Nat.lt_of_lt_of_le col fits) (Nat.lt_of_lt_of_le col' fits) same
  | col =>
      simp only [order] at same fits
      exact (row_major_injective (Nat.lt_of_lt_of_le row fits) (Nat.lt_of_lt_of_le row' fits) same).symm

end Layout

namespace Operation

def rows (op : Operation) (layout : Layout) : Nat :=
  match op with
  | .none => layout.rows
  | .transpose => layout.cols

def cols (op : Operation) (layout : Layout) : Nat :=
  match op with
  | .none => layout.cols
  | .transpose => layout.rows

def address (op : Operation) (layout : Layout) (r c : Nat) : Nat :=
  match op with
  | .none => layout.address r c
  | .transpose => layout.address c r

theorem flip_rows (op : Operation) (layout : Layout) : op.rows layout.flip = op.cols layout := by
  cases op with
  | none => rfl
  | transpose => rfl

theorem flip_cols (op : Operation) (layout : Layout) : op.cols layout.flip = op.rows layout := by
  cases op with
  | none => rfl
  | transpose => rfl

theorem flip_address (op : Operation) (layout : Layout) (r c : Nat) :
    op.address layout.flip r c = op.address layout c r := by
  cases op with
  | none => exact layout.flip_address r c
  | transpose => exact layout.flip_address c r

end Operation

/-! ## Loops over a buffer -/

theorem foldl_add_range {R : Type*} [AddCommMonoid R] (term : Nat → R) (n : Nat) :
    (List.range n).foldl (fun s x => s + term x) 0 = ∑ x ∈ Finset.range n, term x := by
  induction n with
  | zero => rfl
  | succ n ih => rw [List.range_succ, List.foldl_append, ih, Finset.sum_range_succ, List.foldl_cons,
      List.foldl_nil]

section InPlace

variable {R Index : Type*} (place : Index → Nat) (value : Index → R → R)

theorem foldl_update_places (list : List Index) (distinct : (list.map place).Nodup)
    (start : Nat → R) :
    (∀ i ∈ list, list.foldl
        (fun buffer i => Function.update buffer (place i) (value i (buffer (place i)))) start
        (place i) = value i (start (place i))) ∧
      ∀ index, index ∉ list.map place → list.foldl
        (fun buffer i => Function.update buffer (place i) (value i (buffer (place i)))) start
        index = start index := by
  induction list generalizing start with
  | nil =>
      constructor
      · intro i member
        cases member
      · intro index _
        rfl
  | cons first rest ih =>
      obtain ⟨fresh, later⟩ := List.nodup_cons.mp distinct
      obtain ⟨written, kept⟩ := ih later
        (Function.update start (place first) (value first (start (place first))))
      constructor
      · intro i member
        obtain rfl | inRest := List.mem_cons.mp member
        · rw [List.foldl_cons, kept _ fresh, Function.update_self]
        · have apart : place i ≠ place first := by
            intro same
            exact fresh (same ▸ List.mem_map_of_mem inRest)
          rw [List.foldl_cons, written i inRest, Function.update_of_ne apart]
      · intro index outside
        obtain ⟨apart, notLater⟩ := not_or.mp (List.mem_cons.not.mp outside)
        rw [List.foldl_cons, kept index notLater, Function.update_of_ne apart]

end InPlace

/-! ## General products -/

structure Gemm (R : Type*) where
  opA : Operation
  opB : Operation
  alpha : R
  a : Nat → R
  layA : Layout
  b : Nat → R
  layB : Layout
  beta : R
  c : Nat → R
  layC : Layout
  d : Nat → R
  layD : Layout

namespace Gemm

variable {R : Type*}

def depth (call : Gemm R) : Nat := call.opA.cols call.layA

/-- The dimensions match, none is zero, and no leading dimension is too small. -/
structure Valid (call : Gemm R) : Prop where
  rows : call.opA.rows call.layA = call.layD.rows
  cols : call.opB.cols call.layB = call.layD.cols
  inner : call.opB.rows call.layB = call.opA.cols call.layA
  rowsC : call.layC.rows = call.layD.rows
  colsC : call.layC.cols = call.layD.cols
  positive : 0 < call.layD.rows ∧ 0 < call.layD.cols ∧ 0 < call.depth
  fitsA : call.layA.Fits
  fitsB : call.layB.Fits
  fitsC : call.layC.Fits
  fitsD : call.layD.Fits

section Meaning

variable [NonUnitalNonAssocSemiring R]

def entry (call : Gemm R) (i j : Nat) : R :=
  call.alpha * (∑ x ∈ Finset.range call.depth,
      call.a (call.opA.address call.layA i x) * call.b (call.opB.address call.layB x j)) +
    call.beta * call.c (call.layC.address i j)

/-- The entries of D are those of the product, and nothing else is written. -/
structure Computes (call : Gemm R) (result : Nat → R) : Prop where
  entries : ∀ i < call.layD.rows, ∀ j < call.layD.cols,
    result (call.layD.address i j) = call.entry i j
  frame : ∀ index, ¬call.layD.Holds index → result index = call.d index

end Meaning

/-- The transposed product: the operands change places and every buffer is read in the
other order. -/
def swap (call : Gemm R) : Gemm R where
  opA := call.opB
  opB := call.opA
  alpha := call.alpha
  a := call.b
  layA := call.layB.flip
  b := call.a
  layB := call.layA.flip
  beta := call.beta
  c := call.c
  layC := call.layC.flip
  d := call.d
  layD := call.layD.flip

theorem swap_valid {call : Gemm R} (valid : call.Valid) : call.swap.Valid where
  rows := (Operation.flip_rows _ _).trans valid.cols
  cols := (Operation.flip_cols _ _).trans valid.rows
  inner := by
    rw [swap, Operation.flip_rows, Operation.flip_cols]
    exact valid.inner.symm
  rowsC := valid.colsC
  colsC := valid.rowsC
  positive := by
    refine ⟨valid.positive.2.1, valid.positive.1, ?_⟩
    rw [depth, swap, Operation.flip_cols, valid.inner]
    exact valid.positive.2.2
  fitsA := (Layout.flip_fits _).mpr valid.fitsB
  fitsB := (Layout.flip_fits _).mpr valid.fitsA
  fitsC := (Layout.flip_fits _).mpr valid.fitsC
  fitsD := (Layout.flip_fits _).mpr valid.fitsD

theorem swap_entry [NonUnitalNonAssocCommSemiring R] {call : Gemm R} (valid : call.Valid)
    (i j : Nat) : call.swap.entry j i = call.entry i j := by
  have depths : call.swap.depth = call.depth := (Operation.flip_cols _ _).trans valid.inner
  rw [entry, entry, depths]
  congr 1
  · congr 1
    apply Finset.sum_congr rfl
    intro x _
    simp only [swap, Operation.flip_address]
    exact mul_comm _ _
  · simp only [swap, Layout.flip_address]

/-- The transposed product leaves the same buffer. -/
theorem swap_computes [NonUnitalNonAssocCommSemiring R] {call : Gemm R} (valid : call.Valid)
    {result : Nat → R} (computes : call.swap.Computes result) : call.Computes result where
  entries := by
    intro i row j col
    have transposed := computes.entries j col i row
    rw [swap_entry valid] at transposed
    rw [← transposed, swap, Layout.flip_address]
  frame := by
    intro index outside
    apply computes.frame index
    rw [swap, Layout.flip_holds]
    exact outside

/-- The buffer that the product leaves. -/
def result [NonUnitalNonAssocSemiring R] (call : Gemm R) (index : Nat) : R :=
  match ((List.range call.layD.rows).product (List.range call.layD.cols)).find?
      fun place => call.layD.address place.1 place.2 = index with
  | some (i, j) => call.entry i j
  | none => call.d index

theorem result_computes [NonUnitalNonAssocSemiring R] {call : Gemm R} (fits : call.layD.Fits) :
    call.Computes call.result where
  entries := by
    intro i row j col
    rw [result]
    split
    case h_1 i' j' found =>
      have place := List.find?_some found
      obtain ⟨row', col'⟩ := List.pair_mem_product.mp (List.mem_of_find?_eq_some found)
      obtain ⟨rfl, rfl⟩ := Layout.address_injective fits (List.mem_range.mp row')
        (List.mem_range.mp col') row col (of_decide_eq_true place)
      rfl
    case h_2 missing =>
      have free := List.find?_eq_none.mp missing (i, j)
        (List.pair_mem_product.mpr ⟨List.mem_range.mpr row, List.mem_range.mpr col⟩)
      simp at free
  frame := by
    intro index outside
    rw [result]
    split
    case h_1 i' j' found =>
      have place := List.find?_some found
      obtain ⟨row', col'⟩ := List.pair_mem_product.mp (List.mem_of_find?_eq_some found)
      exact absurd ⟨i', List.mem_range.mp row', j', List.mem_range.mp col',
        (of_decide_eq_true place).symm⟩ outside
    case h_2 => rfl

end Gemm

end AmpFormal.MatrixLayouts
