import AmpFormal.GemmVendorModel

/-!
# Both vendor paths compute the row-major product

`cublas_gemm` declares the row-major layouts of the descriptor. `rocblas_gemm_impl`
passes the same buffers as column-major matrices, which are their transposes, and
exchanges the operands and the dimensions: it asks for the transposed product, which
is the same buffer.
-/

namespace AmpFormal.GemmVendorProduct

open AmpFormal.MatrixLayouts AmpFormal.GemmVendorModel

set_option autoImplicit false

variable {R : Type}

/-! ## What the libraries document -/

/-- The product that a call of `cublasLtMatmul` declares. -/
def cublasProduct (args : CublasLtMatmul R) : Gemm R where
  opA := args.desc.transa
  opB := args.desc.transb
  alpha := args.alpha
  a := args.a
  layA := args.layA.layout
  b := args.b
  layB := args.layB.layout
  beta := args.beta
  c := args.c
  layC := args.layC.layout
  d := args.d
  layD := args.layD.layout

structure Plain (desc : CublasOpDesc) : Prop where
  scaleA : desc.scaleA = none
  scaleB : desc.scaleB = none
  scaleD : desc.scaleD = none
  epilogue : desc.epilogue = .default

def columnMajor (op : Operation) (rows cols ld : Nat) : Layout :=
  match op with
  | .none => { order := .col, rows, cols, ld }
  | .transpose => { order := .col, rows := cols, cols := rows, ld }

/-- The product that a call of `rocblas_gemm_ex` declares. -/
def rocblasProduct (args : RocblasGemmEx R) : Gemm R where
  opA := args.transA
  opB := args.transB
  alpha := args.alpha
  a := args.a
  layA := columnMajor args.transA args.m args.k args.lda
  b := args.b
  layB := columnMajor args.transB args.k args.n args.ldb
  beta := args.beta
  c := args.c
  layC := columnMajor .none args.m args.n args.ldc
  d := args.d
  layD := columnMajor .none args.m args.n args.ldd

section Documented

variable [Semiring R]

/-- `cublasLtMatmul` computes the product on the layouts that the call declares. -/
def CublasDocumented (cublasLtMatmul : CublasLtMatmul R → Option (Nat → R)) : Prop :=
  ∀ args, (cublasProduct args).Valid → Plain args.desc →
    ∃ after, cublasLtMatmul args = some after ∧ (cublasProduct args).Computes after

/-- `rocblas_gemm_ex` computes the product on column-major matrices. -/
def RocblasDocumented (rocblas_gemm_ex : RocblasGemmEx R → Option (Nat → R)) : Prop :=
  ∀ args, (rocblasProduct args).Valid →
    ∃ after, rocblas_gemm_ex args = some after ∧ (rocblasProduct args).Computes after

end Documented

/-! ## The product of a descriptor -/

def packed (rows cols : Nat) : Layout := { order := .row, rows, cols, ld := cols }

def rowMajor (d : GemmDesc R) (dA dB dC : Nat → R) : Gemm R where
  opA := operation d.transa
  opB := operation d.transb
  alpha := d.alpha
  a := dA
  layA := if d.transa then packed d.K d.M else packed d.M d.K
  b := dB
  layB := if d.transb then packed d.N d.K else packed d.K d.N
  beta := d.beta
  c := dC
  layC := packed d.M d.N
  d := dC
  layD := packed d.M d.N

section RowMajor

variable {d : GemmDesc R} {dA dB dC : Nat → R}

theorem row_major_depth : (rowMajor d dA dB dC).depth = d.K := by
  cases trans : d.transa <;> simp [Gemm.depth, rowMajor, trans, operation, Operation.cols, packed]

theorem row_major_valid (positive : 0 < d.M ∧ 0 < d.N ∧ 0 < d.K) :
    (rowMajor d dA dB dC).Valid where
  rows := by cases trans : d.transa <;> simp [rowMajor, trans, operation, Operation.rows, packed]
  cols := by cases trans : d.transb <;> simp [rowMajor, trans, operation, Operation.cols, packed]
  inner := by
    cases transA : d.transa <;> cases transB : d.transb <;>
      simp [rowMajor, transA, transB, operation, Operation.rows, Operation.cols, packed]
  rowsC := rfl
  colsC := rfl
  positive := by
    refine ⟨positive.1, positive.2.1, ?_⟩
    rw [row_major_depth]
    exact positive.2.2
  fitsA := by cases trans : d.transa <;> simp [rowMajor, trans, Layout.Fits, packed]
  fitsB := by cases trans : d.transb <;> simp [rowMajor, trans, Layout.Fits, packed]
  fitsC := Nat.le_refl d.N
  fitsD := Nat.le_refl d.N

theorem row_major_denotes [Semiring R] {after : Nat → R}
    (computes : (rowMajor d dA dB dC).Computes after) : Denotes d dA dB dC after where
  entries := by
    intro i row j col
    have written := computes.entries i row j col
    rw [Gemm.entry, row_major_depth] at written
    refine written.trans ?_
    congr 1
    congr 1
    apply Finset.sum_congr rfl
    intro x _
    congr 1
    · cases trans : d.transa <;>
        simp [rowMajor, trans, operation, Operation.address, Layout.address, packed, opA]
    · cases trans : d.transb <;>
        simp [rowMajor, trans, operation, Operation.address, Layout.address, packed, opB]
  frame := by
    intro index outside
    apply computes.frame index
    intro held
    exact Nat.not_lt.mpr outside (Layout.packed_holds held)

theorem packed_either_holds (trans : Bool) (rows cols : Nat) {index : Nat}
    (held : (if trans then packed cols rows else packed rows cols).Holds index) :
    index < rows * cols := by
  cases trans with
  | false => exact Layout.packed_holds held
  | true =>
      rw [Nat.mul_comm]
      exact Layout.packed_holds held

theorem row_major_reads_a {index : Nat} (held : (rowMajor d dA dB dC).layA.Holds index) :
    index < d.M * d.K :=
  packed_either_holds d.transa d.M d.K held

theorem row_major_reads_b {index : Nat} (held : (rowMajor d dA dB dC).layB.Holds index) :
    index < d.K * d.N :=
  packed_either_holds d.transb d.K d.N held

/-! ## The calls -/

structure PlainDesc (d : GemmDesc R) : Prop where
  scaleA : d.dScaleA = none
  scaleB : d.dScaleB = none
  scaleC : d.dScaleC = none
  epilogue : d.epilogue = .none

/-- The data types that a path accepts. -/
def TypesAccepted {Target : Type} (convert : DataType → Option Target) (d : GemmDesc R) : Prop :=
  ∀ dtype ∈ [d.dtypeA, d.dtypeB, d.dtypeC], (convert dtype).isSome = true

theorem cublas_call_product {haveFp8 : Bool} (accepted : TypesAccepted (toCudaDtype haveFp8) d)
    (dA dB dC : Nat → R) :
    ∃ args, cublasCall haveFp8 d dA dB dC = some args ∧
      cublasProduct args = rowMajor d dA dB dC ∧ (PlainDesc d → Plain args.desc) := by
  obtain ⟨dtypeA, foundA⟩ := Option.isSome_iff_exists.mp (accepted d.dtypeA (by simp))
  obtain ⟨dtypeB, foundB⟩ := Option.isSome_iff_exists.mp (accepted d.dtypeB (by simp))
  obtain ⟨dtypeC, foundC⟩ := Option.isSome_iff_exists.mp (accepted d.dtypeC (by simp))
  refine ⟨_, by simp only [cublasCall, foundA, foundB, foundC]; rfl, ?_, ?_⟩
  · cases transA : d.transa <;> cases transB : d.transb <;>
      simp [cublasProduct, rowMajor, transA, transB, packed]
  · intro plain
    exact ⟨plain.scaleA, plain.scaleB, plain.scaleC, by rw [plain.epilogue]; rfl⟩

theorem rocblas_call_product (accepted : TypesAccepted toRocblasDtype d) (dA dB dC : Nat → R) :
    ∃ args, rocblasCall d dA dB dC = some args ∧
      rocblasProduct args = (rowMajor d dA dB dC).swap := by
  obtain ⟨dtypeA, foundA⟩ := Option.isSome_iff_exists.mp (accepted d.dtypeA (by simp))
  obtain ⟨dtypeB, foundB⟩ := Option.isSome_iff_exists.mp (accepted d.dtypeB (by simp))
  obtain ⟨dtypeC, foundC⟩ := Option.isSome_iff_exists.mp (accepted d.dtypeC (by simp))
  refine ⟨_, by simp only [rocblasCall, foundA, foundB, foundC]; rfl, ?_⟩
  cases transA : d.transa <;> cases transB : d.transb <;>
    simp [rocblasProduct, rowMajor, Gemm.swap, transA, transB, packed, operation, columnMajor,
      Layout.flip, Order.flip]

end RowMajor

/-! ## Both paths -/

/-- Every index that a product reads is inside its buffer. -/
structure ReadsInside (call : Gemm R) (sizeA sizeB sizeC : Nat) : Prop where
  a : ∀ index, call.layA.Holds index → index < sizeA
  b : ∀ index, call.layB.Holds index → index < sizeB
  c : ∀ index, call.layC.Holds index → index < sizeC

section Paths

variable [CommSemiring R] {d : GemmDesc R}

theorem rocblas_path_denotes {rocblas_gemm_ex : RocblasGemmEx R → Option (Nat → R)}
    (rocblas : RocblasDocumented rocblas_gemm_ex) (positive : 0 < d.M ∧ 0 < d.N ∧ 0 < d.K)
    (accepted : TypesAccepted toRocblasDtype d) (dA dB dC : Nat → R) :
    ∃ args after, rocblasCall d dA dB dC = some args ∧
      rocblasGemmImpl rocblas_gemm_ex d dA dB dC = some after ∧ Denotes d dA dB dC after ∧
      ReadsInside (rocblasProduct args) (d.K * d.N) (d.M * d.K) (d.M * d.N) := by
  have valid : (rowMajor d dA dB dC).Valid := row_major_valid positive
  obtain ⟨args, called, product⟩ := rocblas_call_product accepted dA dB dC
  obtain ⟨after, done, computes⟩ := rocblas args (product ▸ Gemm.swap_valid valid)
  rw [product] at computes
  refine ⟨args, after, called, ?_, row_major_denotes (Gemm.swap_computes valid computes), ?_⟩
  · rw [rocblasGemmImpl, called]
    exact done
  · rw [product]
    constructor
    · intro index held
      exact row_major_reads_b ((Layout.flip_holds _ _).mp held)
    · intro index held
      exact row_major_reads_a ((Layout.flip_holds _ _).mp held)
    · intro index held
      exact Layout.packed_holds ((Layout.flip_holds (packed d.M d.N) _).mp held)

theorem cublas_path_denotes {cublasLtMatmul : CublasLtMatmul R → Option (Nat → R)}
    (cublas : CublasDocumented cublasLtMatmul) (positive : 0 < d.M ∧ 0 < d.N ∧ 0 < d.K)
    {haveFp8 : Bool} (accepted : TypesAccepted (toCudaDtype haveFp8) d) (plain : PlainDesc d)
    (dA dB dC : Nat → R) :
    ∃ args after, cublasCall haveFp8 d dA dB dC = some args ∧
      cublasGemm cublasLtMatmul haveFp8 d dA dB dC = some after ∧ Denotes d dA dB dC after ∧
      ReadsInside (cublasProduct args) (d.M * d.K) (d.K * d.N) (d.M * d.N) := by
  have valid : (rowMajor d dA dB dC).Valid := row_major_valid positive
  obtain ⟨args, called, product, plainCall⟩ := cublas_call_product accepted dA dB dC
  obtain ⟨after, done, computes⟩ := cublas args (product ▸ valid) (plainCall plain)
  rw [product] at computes
  refine ⟨args, after, called, ?_, row_major_denotes computes, ?_⟩
  · rw [cublasGemm, called]
    exact done
  · rw [product]
    constructor
    · intro index held
      exact row_major_reads_a held
    · intro index held
      exact row_major_reads_b held
    · intro index held
      exact Layout.packed_holds held

end Paths

/-- On row-major buffers, `rocblas_gemm_impl` and `cublas_gemm` leave the product that
the descriptor says and read nothing outside. The first operand of rocBLAS is B. -/
theorem vendor_paths_denote_product [CommSemiring R]
    {rocblas_gemm_ex : RocblasGemmEx R → Option (Nat → R)}
    (rocblas : RocblasDocumented rocblas_gemm_ex)
    {cublasLtMatmul : CublasLtMatmul R → Option (Nat → R)}
    (cublas : CublasDocumented cublasLtMatmul) (haveFp8 : Bool) (d : GemmDesc R)
    (dA dB dC : Nat → R) (positive : 0 < d.M ∧ 0 < d.N ∧ 0 < d.K) :
    (TypesAccepted toRocblasDtype d → ∃ args after, rocblasCall d dA dB dC = some args ∧
      rocblasGemmImpl rocblas_gemm_ex d dA dB dC = some after ∧ Denotes d dA dB dC after ∧
      ReadsInside (rocblasProduct args) (d.K * d.N) (d.M * d.K) (d.M * d.N)) ∧
    (TypesAccepted (toCudaDtype haveFp8) d → PlainDesc d →
      ∃ args after, cublasCall haveFp8 d dA dB dC = some args ∧
        cublasGemm cublasLtMatmul haveFp8 d dA dB dC = some after ∧ Denotes d dA dB dC after ∧
        ReadsInside (cublasProduct args) (d.M * d.K) (d.K * d.N) (d.M * d.N)) :=
  ⟨fun accepted => rocblas_path_denotes rocblas positive accepted dA dB dC,
    fun accepted plain => cublas_path_denotes cublas positive accepted plain dA dB dC⟩

theorem rocblas_result_documented [Semiring R] :
    RocblasDocumented fun args : RocblasGemmEx R => some (rocblasProduct args).result :=
  fun _ valid => ⟨_, rfl, Gemm.result_computes valid.fitsD⟩

theorem cublas_result_documented [Semiring R] :
    CublasDocumented fun args : CublasLtMatmul R => some (cublasProduct args).result :=
  fun _ valid _ => ⟨_, rfl, Gemm.result_computes valid.fitsD⟩

def transposedA : GemmDesc ℤ where
  M := 3
  N := 4
  K := 2
  dtypeA := .fp32
  dtypeB := .fp32
  dtypeC := .fp32
  alpha := 2
  beta := 1
  dScaleA := none
  dScaleB := none
  dScaleC := none
  dAmaxC := none
  transa := true
  transb := false
  epilogue := .none
  dBias := none

theorem vendor_paths_denote_transposed_product :
    ∃ rocblas cublas : Nat → ℤ,
      rocblasGemmImpl (fun args => some (rocblasProduct args).result) transposedA
        (fun i => i) (fun i => i * i) (fun _ => 1) = some rocblas ∧
      cublasGemm (fun args => some (cublasProduct args).result) false transposedA
        (fun i => i) (fun i => i * i) (fun _ => 1) = some cublas ∧
      Denotes transposedA (fun i => i) (fun i => i * i) (fun _ => 1) rocblas ∧
      Denotes transposedA (fun i => i) (fun i => i * i) (fun _ => 1) cublas := by
  obtain ⟨rocblasPath, cublasPath⟩ := vendor_paths_denote_product rocblas_result_documented
    cublas_result_documented false transposedA (fun i => i) (fun i => i * i) (fun _ => 1)
    (by decide)
  have accepted : TypesAccepted toRocblasDtype transposedA := by
    unfold TypesAccepted
    decide
  have cudaAccepted : TypesAccepted (toCudaDtype false) transposedA := by
    unfold TypesAccepted
    decide
  obtain ⟨-, rocblas, -, rocblasDone, rocblasDenotes, -⟩ := rocblasPath accepted
  obtain ⟨-, cublas, -, cublasDone, cublasDenotes, -⟩ :=
    cublasPath cudaAccepted ⟨rfl, rfl, rfl, rfl⟩
  exact ⟨rocblas, cublas, rocblasDone, cublasDone, rocblasDenotes, cublasDenotes⟩

end AmpFormal.GemmVendorProduct
