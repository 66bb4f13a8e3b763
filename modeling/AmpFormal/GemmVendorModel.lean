import AmpFormal.MatrixLayouts
import Mathlib.Data.Nat.Basic

/-!
# The vendor GEMM backend

A transcription of `VendorGemm`: the descriptor, the two calls of a vendor library
with the arguments that the code passes, and the fallback loops. Buffers hold exact
numbers, so a data type only decides whether a path takes the call. The libraries are
parameters; what they document is stated over `MatrixLayouts`. An exception is `none`.
Dimensions are natural numbers: none is negative, and no index overflows an `int`.
-/

namespace AmpFormal.GemmVendorModel

open AmpFormal.MatrixLayouts

set_option autoImplicit false

inductive DataType where
  | fp32
  | bf16
  | fp16
  | fp8e4m3
  | fp8e5m2
  | int8
  | int4
  | int32
  deriving DecidableEq, Repr

inductive GemmEpilogue where
  | none
  | relu
  | bias
  | gelu
  deriving DecidableEq, Repr

abbrev Pointer := Option Nat

structure GemmDesc (R : Type) where
  M : Nat
  N : Nat
  K : Nat
  dtypeA : DataType
  dtypeB : DataType
  dtypeC : DataType
  alpha : R
  beta : R
  dScaleA : Pointer
  dScaleB : Pointer
  dScaleC : Pointer
  dAmaxC : Pointer
  transa : Bool
  transb : Bool
  epilogue : GemmEpilogue
  dBias : Pointer

variable {R : Type}

/-! ## cuBLASLt -/

inductive CudaDataType where
  | r32f
  | r16bf
  | r16f
  | r8i
  | r32i
  | r8fE4m3
  | r8fE5m2
  deriving DecidableEq, Repr

/-- `to_cuda_dtype`; the FP8 types are there when the build has them. -/
def toCudaDtype (haveFp8 : Bool) : DataType → Option CudaDataType
  | .fp32 => some .r32f
  | .bf16 => some .r16bf
  | .fp16 => some .r16f
  | .int8 => some .r8i
  | .int32 => some .r32i
  | .fp8e4m3 => if haveFp8 then some .r8fE4m3 else none
  | .fp8e5m2 => if haveFp8 then some .r8fE5m2 else none
  | .int4 => none

inductive CublasComputeType where
  | compute32f
  | compute16f
  | compute32i
  deriving DecidableEq, Repr

def computeTypeFor (a c : DataType) : CublasComputeType :=
  if c = .fp32 then .compute32f
  else if a = .fp16 ∧ c = .fp16 then .compute16f
  else if a = .int8 then .compute32i
  else .compute32f

inductive CublasEpilogue where
  | default
  | relu
  | bias
  | gelu
  deriving DecidableEq, Repr

def toCublasEpilogue : GemmEpilogue → CublasEpilogue
  | .relu => .relu
  | .bias => .bias
  | .gelu => .gelu
  | .none => .default

/-- `cublasLtMatmulDesc_t` with the attributes that the code sets. -/
structure CublasOpDesc where
  computeType : CublasComputeType
  scaleType : CudaDataType
  transa : Operation
  transb : Operation
  scaleA : Pointer
  scaleB : Pointer
  scaleD : Pointer
  amaxD : Pointer
  epilogue : CublasEpilogue
  bias : Pointer
  deriving DecidableEq, Repr

structure CublasLayout where
  type : CudaDataType
  layout : Layout
  deriving DecidableEq, Repr

/-- The arguments of `cublasLtMatmul`; the algorithm and the workspace do not show in
the result. -/
structure CublasLtMatmul (R : Type) where
  desc : CublasOpDesc
  alpha : R
  a : Nat → R
  layA : CublasLayout
  b : Nat → R
  layB : CublasLayout
  beta : R
  c : Nat → R
  layC : CublasLayout
  d : Nat → R
  layD : CublasLayout

def operation (trans : Bool) : Operation := if trans then .transpose else .none

/-- The call that `VendorGemm::cublas_gemm` makes. -/
def cublasCall (haveFp8 : Bool) (d : GemmDesc R) (dA dB dC : Nat → R) :
    Option (CublasLtMatmul R) := do
  let dtypeA ← toCudaDtype haveFp8 d.dtypeA
  let dtypeB ← toCudaDtype haveFp8 d.dtypeB
  let dtypeC ← toCudaDtype haveFp8 d.dtypeC
  let lda := if d.transa then d.M else d.K
  let ldb := if d.transb then d.K else d.N
  let ldc := d.N
  let layA : CublasLayout :=
    { type := dtypeA
      layout := { order := .row, rows := if d.transa then d.K else d.M,
                  cols := if d.transa then d.M else d.K, ld := lda } }
  let layB : CublasLayout :=
    { type := dtypeB
      layout := { order := .row, rows := if d.transb then d.N else d.K,
                  cols := if d.transb then d.K else d.N, ld := ldb } }
  let layC : CublasLayout :=
    { type := dtypeC, layout := { order := .row, rows := d.M, cols := d.N, ld := ldc } }
  some
    { desc :=
        { computeType := computeTypeFor d.dtypeA d.dtypeC
          scaleType := .r32f
          transa := operation d.transa
          transb := operation d.transb
          scaleA := d.dScaleA
          scaleB := d.dScaleB
          scaleD := d.dScaleC
          amaxD := d.dAmaxC
          epilogue := toCublasEpilogue d.epilogue
          bias := if d.epilogue = .bias then d.dBias else none }
      alpha := d.alpha
      a := dA
      layA
      b := dB
      layB
      beta := d.beta
      c := dC
      layC
      d := dC
      layD := layC }

/-- `VendorGemm::cublas_gemm`: what it leaves in C. -/
def cublasGemm (cublasLtMatmul : CublasLtMatmul R → Option (Nat → R)) (haveFp8 : Bool)
    (d : GemmDesc R) (dA dB dC : Nat → R) : Option (Nat → R) :=
  (cublasCall haveFp8 d dA dB dC).bind cublasLtMatmul

/-! ## rocBLAS -/

inductive RocblasDatatype where
  | f32r
  | bf16r
  | f16r
  | i8r
  | i32r
  deriving DecidableEq, Repr

def toRocblasDtype : DataType → Option RocblasDatatype
  | .fp32 => some .f32r
  | .bf16 => some .bf16r
  | .fp16 => some .f16r
  | .int8 => some .i8r
  | .int32 => some .i32r
  | .fp8e4m3 | .fp8e5m2 | .int4 => none

/-- The arguments of `rocblas_gemm_ex`. -/
structure RocblasGemmEx (R : Type) where
  transA : Operation
  transB : Operation
  m : Nat
  n : Nat
  k : Nat
  alpha : R
  a : Nat → R
  aType : RocblasDatatype
  lda : Nat
  b : Nat → R
  bType : RocblasDatatype
  ldb : Nat
  beta : R
  c : Nat → R
  cType : RocblasDatatype
  ldc : Nat
  d : Nat → R
  dType : RocblasDatatype
  ldd : Nat
  computeType : RocblasDatatype

/-- The call that `VendorGemm::rocblas_gemm_impl` makes. -/
def rocblasCall (d : GemmDesc R) (dA dB dC : Nat → R) : Option (RocblasGemmEx R) := do
  let dtA ← toRocblasDtype d.dtypeA
  let dtB ← toRocblasDtype d.dtypeB
  let dtC ← toRocblasDtype d.dtypeC
  let dtCo ← toRocblasDtype .fp32
  let opA := operation d.transa
  let opB := operation d.transb
  let lda := if d.transa then d.M else d.K
  let ldb := if d.transb then d.K else d.N
  let ldc := d.N
  -- C_rm^T = B_rm^T * A_rm^T: the operands and M, N change places
  some
    { transA := opB
      transB := opA
      m := d.N
      n := d.M
      k := d.K
      alpha := d.alpha
      a := dB
      aType := dtB
      lda := ldb
      b := dA
      bType := dtA
      ldb := lda
      beta := d.beta
      c := dC
      cType := dtC
      ldc
      d := dC
      dType := dtC
      ldd := ldc
      computeType := dtCo }

/-- `VendorGemm::rocblas_gemm_impl`: what it leaves in C. -/
def rocblasGemmImpl (rocblas_gemm_ex : RocblasGemmEx R → Option (Nat → R)) (d : GemmDesc R)
    (dA dB dC : Nat → R) : Option (Nat → R) :=
  (rocblasCall d dA dB dC).bind rocblas_gemm_ex

/-! ## The fallback -/

section Fallback

variable [Semiring R]

def fallbackDot (d : GemmDesc R) (A B : Nat → R) (i j : Nat) : R :=
  (List.range d.K).foldl (fun s k => s + A (i * d.K + k) * B (k * d.N + j)) 0

def fallbackEntry (d : GemmDesc R) (A B : Nat → R) (i : Nat) (C : Nat → R) (j : Nat) : Nat → R :=
  Function.update C (i * d.N + j) (d.alpha * fallbackDot d A B i j + d.beta * C (i * d.N + j))

/-- `VendorGemm::fallback_gemm`: what it leaves in C. -/
def fallbackGemm (d : GemmDesc R) (dA dB dC : Nat → R) : Nat → R :=
  if d.dtypeA ≠ .fp32 then dC
  else
    (List.range d.M).foldl (fun C i => (List.range d.N).foldl (fallbackEntry d dA dB i) C) dC

/-! ## The dispatch -/

inductive Backend where
  | cublas
  | rocblas
  | other
  deriving DecidableEq, Repr

def gemm (cublasLtMatmul : CublasLtMatmul R → Option (Nat → R))
    (rocblas_gemm_ex : RocblasGemmEx R → Option (Nat → R)) (backend : Backend) (haveFp8 : Bool)
    (vendorAvailable : Bool) (d : GemmDesc R) (dA dB dC : Nat → R) : Option (Nat → R) :=
  if vendorAvailable then
    match backend with
    | .cublas => cublasGemm cublasLtMatmul haveFp8 d dA dB dC
    | .rocblas => rocblasGemmImpl rocblas_gemm_ex d dA dB dC
    | .other => some (fallbackGemm d dA dB dC)
  else some (fallbackGemm d dA dB dC)

end Fallback

/-! ## What the descriptor says -/

/-- The entries of op(A) and op(B) in their row-major buffers. -/
def opA (d : GemmDesc R) (dA : Nat → R) (i x : Nat) : R :=
  if d.transa then dA (x * d.M + i) else dA (i * d.K + x)

def opB (d : GemmDesc R) (dB : Nat → R) (x j : Nat) : R :=
  if d.transb then dB (j * d.K + x) else dB (x * d.N + j)

/-- The row-major buffer C holds alpha op(A) op(B) + beta C, and nothing else changed. -/
structure Denotes [Semiring R] (d : GemmDesc R) (dA dB dC after : Nat → R) : Prop where
  entries : ∀ i < d.M, ∀ j < d.N, after (i * d.N + j) =
    d.alpha * (∑ x ∈ Finset.range d.K, opA d dA i x * opB d dB x j) + d.beta * dC (i * d.N + j)
  frame : ∀ index, d.M * d.N ≤ index → after index = dC index

end AmpFormal.GemmVendorModel
