import AmpFormal.GemmVendorProduct
import AmpFormal.IntIndexing
import Mathlib.Data.List.Nodup
import Mathlib.Algebra.BigOperators.Pi

/-!
# The fallback and the descriptor

The loops of `fallback_gemm` write every element of C once, from its old value. They
read A and B as if neither was transposed. That is what the descriptor says exactly
when alpha is zero or each transposed operand is stored as a single row or column.
-/

namespace AmpFormal.GemmFallback

open AmpFormal.GemmVendorModel AmpFormal.GemmVendorProduct AmpFormal.IntIndexing
open AmpFormal.MatrixLayouts

set_option autoImplicit false

variable {R : Type}

/-! ## Transposed vectors -/

section Operands

variable {d : GemmDesc R}

theorem op_a_idle (idle : d.transa = true → d.M = 1 ∨ d.K = 1) (dA : Nat → R) {i x : Nat}
    (row : i < d.M) (inner : x < d.K) : opA d dA i x = dA (i * d.K + x) := by
  unfold opA
  split
  case isFalse => rfl
  case isTrue trans =>
    obtain one | one := idle trans
    · obtain rfl : i = 0 := by omega
      rw [one, Nat.mul_one, Nat.zero_mul, Nat.zero_add, Nat.add_zero]
    · obtain rfl : x = 0 := by omega
      rw [one, Nat.mul_one, Nat.zero_mul, Nat.zero_add, Nat.add_zero]

theorem op_b_idle (idle : d.transb = true → d.K = 1 ∨ d.N = 1) (dB : Nat → R) {x j : Nat}
    (inner : x < d.K) (col : j < d.N) : opB d dB x j = dB (x * d.N + j) := by
  unfold opB
  split
  case isFalse => rfl
  case isTrue trans =>
    obtain one | one := idle trans
    · obtain rfl : x = 0 := by omega
      rw [one, Nat.mul_one, Nat.zero_mul, Nat.zero_add, Nat.add_zero]
    · obtain rfl : j = 0 := by omega
      rw [one, Nat.mul_one, Nat.zero_mul, Nat.zero_add, Nat.add_zero]

end Operands

/-! ## What the loops leave -/

variable [CommSemiring R]

theorem fallback_dot_sum (d : GemmDesc R) (A B : Nat → R) (i j : Nat) :
    fallbackDot d A B i j = ∑ x ∈ Finset.range d.K, A (i * d.K + x) * B (x * d.N + j) :=
  foldl_add_range (fun x => A (i * d.K + x) * B (x * d.N + j)) d.K

/-! ## Machine indices -/

section Indices

/-- The loops with their `int` indices, over arrays of the sizes of the matrices. -/
def intFallbackDot (d : GemmDesc R) (A B : Nat → R) (i j : Nat) : Option R :=
  (List.range d.K).foldlM (fun s k => do
    let a ← readAt (d.M * d.K) A (rowMajorIndex i k d.K)
    let b ← readAt (d.K * d.N) B (rowMajorIndex k j d.N)
    some (s + a * b)) 0

def intFallbackEntry (d : GemmDesc R) (A B : Nat → R) (i : Nat) (C : Nat → R) (j : Nat) :
    Option (Nat → R) := do
  let s ← intFallbackDot d A B i j
  let old ← readAt (d.M * d.N) C (rowMajorIndex i j d.N)
  setAt (d.M * d.N) (rowMajorIndex i j d.N) (d.alpha * s + d.beta * old) C

def intFallbackGemm (d : GemmDesc R) (dA dB dC : Nat → R) : Option (Nat → R) :=
  if d.dtypeA ≠ .fp32 then some dC
  else (List.range d.M).foldlM
    (fun C i => (List.range d.N).foldlM (intFallbackEntry d dA dB i) C) dC

variable {d : GemmDesc R} (fits : MatricesFit d.M d.N d.K)

include fits in
theorem int_fallback_dot {i j : Nat} (row : i < d.M) (col : j < d.N) (A B : Nat → R) :
    intFallbackDot d A B i j = some (fallbackDot d A B i j) := by
  refine foldlM_some (fun k listed s => ?_) 0
  have inner := List.mem_range.mp listed
  rw [read_at_row_major row inner fits.a, read_at_row_major inner col fits.b]
  rfl

include fits in
/-- In matrices of no more elements than an `int` counts no index is lost. -/
theorem int_fallback_gemm (dA dB dC : Nat → R) :
    intFallbackGemm d dA dB dC = some (fallbackGemm d dA dB dC) := by
  unfold intFallbackGemm fallbackGemm
  split
  case isTrue => rfl
  case isFalse =>
    refine foldlM_some (fun i rows C => foldlM_some (fun j cols C => ?_) C) dC
    have row := List.mem_range.mp rows
    have col := List.mem_range.mp cols
    unfold intFallbackEntry
    rw [int_fallback_dot fits row col, read_at_row_major row col fits.c]
    exact set_at_row_major row col fits.c _ C

end Indices

theorem fallback_pairs (d : GemmDesc R) (single : d.dtypeA = .fp32) (dA dB dC : Nat → R) :
    fallbackGemm d dA dB dC = ((List.range d.M).product (List.range d.N)).foldl
      (fun C pair => fallbackEntry d dA dB pair.1 C pair.2) dC := by
  rw [fallbackGemm, if_neg (not_not.mpr single), List.product, List.foldl_flatMap]
  simp only [List.foldl_map]

theorem pairs_nodup (rows cols : Nat) :
    (((List.range rows).product (List.range cols)).map
      fun pair => pair.1 * cols + pair.2).Nodup := by
  apply List.Nodup.map_on
  · rintro ⟨i, j⟩ member ⟨i', j'⟩ member' same
    have col := List.mem_range.mp (List.pair_mem_product.mp member).2
    have col' := List.mem_range.mp (List.pair_mem_product.mp member').2
    obtain ⟨rfl, rfl⟩ := row_major_injective col col' same
    rfl
  · exact List.nodup_range.product List.nodup_range

theorem fallback_result (d : GemmDesc R) (single : d.dtypeA = .fp32) (dA dB dC : Nat → R) :
    (∀ i < d.M, ∀ j < d.N, fallbackGemm d dA dB dC (i * d.N + j) =
      d.alpha * (∑ x ∈ Finset.range d.K, dA (i * d.K + x) * dB (x * d.N + j)) +
        d.beta * dC (i * d.N + j)) ∧
      ∀ index, d.M * d.N ≤ index → fallbackGemm d dA dB dC index = dC index := by
  obtain ⟨written, kept⟩ := foldl_update_places
    (fun pair : Nat × Nat => pair.1 * d.N + pair.2)
    (fun pair old => d.alpha * fallbackDot d dA dB pair.1 pair.2 + d.beta * old)
    ((List.range d.M).product (List.range d.N)) (pairs_nodup d.M d.N) dC
  rw [fallback_pairs d single]
  constructor
  · intro i row j col
    have entry := written (i, j)
      (List.pair_mem_product.mpr ⟨List.mem_range.mpr row, List.mem_range.mpr col⟩)
    rw [fallback_dot_sum] at entry
    exact entry
  · intro index outside
    apply kept index
    intro member
    obtain ⟨⟨i, j⟩, pair, rfl⟩ := List.mem_map.mp member
    obtain ⟨row, col⟩ := List.pair_mem_product.mp pair
    exact absurd (row_major_lt (List.mem_range.mp row) (List.mem_range.mp col))
      (Nat.not_lt.mpr outside)

/-! ## When this is what the descriptor says -/

/-- All data types FP32, no epilogue, no dimension zero. -/
structure PlainFp32 (d : GemmDesc R) : Prop where
  a : d.dtypeA = .fp32
  b : d.dtypeB = .fp32
  c : d.dtypeC = .fp32
  epilogue : d.epilogue = .none
  positive : 0 < d.M ∧ 0 < d.N ∧ 0 < d.K

/-- Alpha is zero, or each transposed operand is a single row or column. -/
def TransposeIdle (d : GemmDesc R) : Prop :=
  d.alpha = 0 ∨ ((d.transa = true → d.M = 1 ∨ d.K = 1) ∧ (d.transb = true → d.K = 1 ∨ d.N = 1))

section Idle

variable {d : GemmDesc R}

theorem idle_denotes (domain : PlainFp32 d) (idle : TransposeIdle d) (dA dB dC : Nat → R) :
    Denotes d dA dB dC (fallbackGemm d dA dB dC) := by
  obtain ⟨entries, frame⟩ := fallback_result d domain.a dA dB dC
  refine ⟨?_, frame⟩
  intro i row j col
  rw [entries i row j col]
  obtain zero | ⟨idleA, idleB⟩ := idle
  · rw [zero, zero_mul, zero_mul]
  · congr 2
    apply Finset.sum_congr rfl
    intro x inner
    have inner := Finset.mem_range.mp inner
    rw [op_a_idle idleA dA row inner, op_b_idle idleB dB inner col]

/-- The buffer with a one at the second place. -/
def secondPlace (index : Nat) : R := if index = 1 then 1 else 0

/-- In a transposed A with two rows and columns, the second place is another entry. -/
theorem denotes_idle_a (domain : PlainFp32 d) (trans : d.transa = true) (rows : d.M ≠ 1)
    (inner : d.K ≠ 1)
    (denotes : Denotes d secondPlace (fun _ => 1) (fun _ => 0)
      (fallbackGemm d secondPlace (fun _ => 1) (fun _ => 0))) : d.alpha = 0 := by
  obtain ⟨positiveM, positiveN, positiveK⟩ := domain.positive
  have said := denotes.entries 1 (by omega) 0 positiveN
  rw [(fallback_result d domain.a _ _ _).1 1 (by omega) 0 positiveN] at said
  have read : ∑ x ∈ Finset.range d.K, (secondPlace (1 * d.K + x) : R) * 1 = 0 := by
    apply Finset.sum_eq_zero
    intro x _
    rw [secondPlace, if_neg (by omega), zero_mul]
  have meant : ∑ x ∈ Finset.range d.K, opA d secondPlace 1 x * opB d (fun _ => (1 : R)) x 0 = 1 := by
    rw [Finset.sum_eq_single_of_mem 0 (Finset.mem_range.mpr positiveK)]
    · simp [opA, opB, trans, secondPlace]
    · intro x _ different
      have apart : x * d.M + 1 ≠ 1 := by
        intro same
        have zero := Nat.mul_eq_zero.mp (Nat.add_right_cancel (same.trans (Nat.zero_add 1).symm))
        omega
      have blank : opA d secondPlace 1 x = (0 : R) := by
        rw [opA, if_pos trans, secondPlace, if_neg apart]
      rw [blank, zero_mul]
  rw [read, meant] at said
  simpa using said.symm

theorem denotes_idle_b (domain : PlainFp32 d) (trans : d.transb = true) (inner : d.K ≠ 1)
    (cols : d.N ≠ 1)
    (denotes : Denotes d (fun _ => 1) secondPlace (fun _ => 0)
      (fallbackGemm d (fun _ => 1) secondPlace (fun _ => 0))) : d.alpha = 0 := by
  obtain ⟨positiveM, positiveN, positiveK⟩ := domain.positive
  have said := denotes.entries 0 positiveM 0 positiveN
  rw [(fallback_result d domain.a _ _ _).1 0 positiveM 0 positiveN] at said
  have read : ∑ x ∈ Finset.range d.K, (1 : R) * secondPlace (x * d.N + 0) = 0 := by
    apply Finset.sum_eq_zero
    intro x _
    have apart : x * d.N + 0 ≠ 1 := by
      intro same
      exact cols (Nat.eq_one_of_mul_eq_one_left same)
    rw [secondPlace, if_neg apart, mul_zero]
  have meant : ∑ x ∈ Finset.range d.K, opA d (fun _ => (1 : R)) 0 x * opB d secondPlace x 0 = 1 := by
    rw [Finset.sum_eq_single_of_mem 1 (Finset.mem_range.mpr (by omega))]
    · simp [opA, opB, trans, secondPlace]
    · intro x _ different
      simp [opB, trans, secondPlace, different]
  rw [read, meant] at said
  simpa using said.symm

theorem denotes_idle (domain : PlainFp32 d)
    (denotes : ∀ dA dB dC, Denotes d dA dB dC (fallbackGemm d dA dB dC)) : TransposeIdle d := by
  by_cases zero : d.alpha = 0
  · exact .inl zero
  · refine .inr ⟨?_, ?_⟩
    · intro trans
      by_contra both
      obtain ⟨rows, inner⟩ := not_or.mp both
      exact zero (denotes_idle_a domain trans rows inner (denotes _ _ _))
    · intro trans
      by_contra both
      obtain ⟨inner, cols⟩ := not_or.mp both
      exact zero (denotes_idle_b domain trans inner cols (denotes _ _ _))

end Idle

/-- For every content of the buffers the fallback leaves what the descriptor says
exactly when no transposition matters. -/
theorem fallback_denotes_iff (d : GemmDesc R) (domain : PlainFp32 d) :
    (∀ dA dB dC, Denotes d dA dB dC (fallbackGemm d dA dB dC)) ↔ TransposeIdle d := by
  constructor
  · intro denotes
    exact denotes_idle domain denotes
  · intro idle dA dB dC
    exact idle_denotes domain idle dA dB dC

def transposedRow : GemmDesc ℤ := { transposedA with M := 1 }

theorem fallback_denotes_iff_row :
    (∀ dA dB dC, Denotes transposedRow dA dB dC (fallbackGemm transposedRow dA dB dC)) ↔
      TransposeIdle transposedRow :=
  fallback_denotes_iff transposedRow ⟨rfl, rfl, rfl, rfl, by decide⟩

def transposedSquare : GemmDesc ℤ := { transposedA with M := 2, N := 2, K := 2 }

/-- The second place of A goes to the first row instead of the second. -/
theorem fallback_ignores_transposition :
    PlainFp32 transposedSquare ∧
      ¬Denotes transposedSquare secondPlace (fun _ => 1) (fun _ => 0)
        (fallbackGemm transposedSquare secondPlace (fun _ => 1) fun _ => 0) := by
  have domain : PlainFp32 transposedSquare := ⟨rfl, rfl, rfl, rfl, by decide⟩
  refine ⟨domain, ?_⟩
  intro denotes
  have zero := denotes_idle_a domain rfl (by decide) (by decide) denotes
  exact absurd zero (by decide)

/-! ## The choice of the path -/

section Paths

variable {d : GemmDesc R} {dA dB dC : Nat → R}

theorem denotes_unique {left right : Nat → R} (leftDenotes : Denotes d dA dB dC left)
    (rightDenotes : Denotes d dA dB dC right) : left = right := by
  funext index
  by_cases inside : index < d.M * d.N
  · have positive : 0 < d.N := Nat.pos_of_mul_pos_left (Nat.zero_lt_of_lt inside)
    have row : index / d.N < d.M := (Nat.div_lt_iff_lt_mul positive).mpr inside
    have col : index % d.N < d.N := Nat.mod_lt index positive
    have leftEntry := leftDenotes.entries (index / d.N) row (index % d.N) col
    have rightEntry := rightDenotes.entries (index / d.N) row (index % d.N) col
    rw [Nat.div_add_mod'] at leftEntry rightEntry
    rw [leftEntry, rightEntry]
  · have outside := Nat.not_lt.mp inside
    rw [leftDenotes.frame index outside, rightDenotes.frame index outside]

variable {rocblas_gemm_ex : RocblasGemmEx R → Option (Nat → R)}
  {cublasLtMatmul : CublasLtMatmul R → Option (Nat → R)}

/-- Whether a vendor library is found makes no difference exactly when no
transposition matters. -/
theorem gemm_paths_agree_iff (rocblas : RocblasDocumented rocblas_gemm_ex)
    (cublas : CublasDocumented cublasLtMatmul) (backend : Backend) (vendor : backend ≠ .other)
    (haveFp8 : Bool) (domain : PlainFp32 d) (plain : PlainDesc d) :
    (∀ dA dB dC, gemm cublasLtMatmul rocblas_gemm_ex backend haveFp8 true d dA dB dC =
      gemm cublasLtMatmul rocblas_gemm_ex backend haveFp8 false d dA dB dC) ↔ TransposeIdle d := by
  have single : ∀ dtype ∈ [d.dtypeA, d.dtypeB, d.dtypeC], dtype = .fp32 := by
    simp [domain.a, domain.b, domain.c]
  have product : ∀ dA dB dC, ∃ after,
      gemm cublasLtMatmul rocblas_gemm_ex backend haveFp8 true d dA dB dC = some after ∧
        Denotes d dA dB dC after := by
    intro dA dB dC
    cases backend with
    | cublas =>
        have accepted : TypesAccepted (toCudaDtype haveFp8) d := by
          intro dtype member
          rw [single dtype member]
          rfl
        obtain ⟨-, after, -, done, denotes, -⟩ :=
          cublas_path_denotes cublas domain.positive accepted plain dA dB dC
        exact ⟨after, done, denotes⟩
    | rocblas =>
        have accepted : TypesAccepted toRocblasDtype d := by
          intro dtype member
          rw [single dtype member]
          rfl
        obtain ⟨-, after, -, done, denotes, -⟩ :=
          rocblas_path_denotes rocblas domain.positive accepted dA dB dC
        exact ⟨after, done, denotes⟩
    | other => exact absurd rfl vendor
  constructor
  · intro agree
    apply denotes_idle domain
    intro dA dB dC
    obtain ⟨after, done, denotes⟩ := product dA dB dC
    have same := agree dA dB dC
    rw [done] at same
    obtain rfl : after = fallbackGemm d dA dB dC := Option.some.inj same
    exact denotes
  · intro idle dA dB dC
    obtain ⟨after, done, denoted⟩ := product dA dB dC
    rw [done, denotes_unique denoted (idle_denotes domain idle dA dB dC)]
    rfl

end Paths

end AmpFormal.GemmFallback
