import AmpFormal.FlashAttnKernel
import AmpFormal.FlashAttnRow
import AmpFormal.MatrixLayouts
import AmpFormal.OnlineSoftmax

/-!
# The softmax loop computes exact attention

After the tiles before a boundary the accumulators keep the softmax average of the
unmasked keys before it. The first tile holds the key 0, which is never masked, so
the maximum leaves the sentinel there and masked scores weigh nothing from then on.
Behind the causal boundary every key is masked.
-/

namespace AmpFormal.FlashAttnSoftmax

open AmpFormal.FlashAttnRow AmpFormal.FlashAttnRow.AttnRow AmpFormal.MatrixLayouts
open AmpFormal.OnlineSoftmax AmpFormal.FlashAttnKernel AmpFormal.WrappedInts

set_option autoImplicit false

/-- `expf(a - b)` over the real numbers. The sentinel stands for minus infinity: it has
no weight against any other number. -/
noncomputable def expDiff (a b : ℝ) : ℝ :=
  if a = sentinel ∧ b ≠ sentinel then 0 else Real.exp (a - b)

theorem exp_diff_of_ne {a : ℝ} (real : a ≠ sentinel) (b : ℝ) : expDiff a b = Real.exp (a - b) :=
  if_neg fun both => real both.1

theorem exp_diff_sentinel {b : ℝ} (real : b ≠ sentinel) : expDiff sentinel b = 0 :=
  if_pos ⟨rfl, real⟩

variable (row : AttnRow ℝ)

/-- The score of a key that is not masked. -/
def score (j : Nat) : ℝ := (∑ d ∈ Finset.range row.headDim, row.q d * row.k j d) * row.scale

def keysBefore (bound : Nat) : Finset Nat := (Finset.range bound).filter fun j => ¬row.Masked j

def tileKeys (kvStart : Nat) : Finset Nat :=
  (Finset.Ico kvStart (kvStart + row.bc)).filter fun j => ¬row.Masked j

/-! ## Keys and tiles -/

theorem keys_before_union (kvStart : Nat) :
    keysBefore row kvStart ∪ tileKeys row kvStart = keysBefore row (kvStart + row.bc) := by
  rw [keysBefore, tileKeys, keysBefore, ← Finset.filter_union]
  congr 1
  rw [Finset.range_eq_Ico, Finset.range_eq_Ico]
  exact Finset.Ico_union_Ico_eq_Ico (Nat.zero_le kvStart) (Nat.le_add_right kvStart row.bc)

theorem keys_before_disjoint (kvStart : Nat) :
    Disjoint (keysBefore row kvStart) (tileKeys row kvStart) := by
  apply Finset.disjoint_filter_filter
  rw [Finset.disjoint_left]
  intro j before inside
  exact absurd (Finset.mem_range.mp before) (Nat.not_lt.mpr (Finset.mem_Ico.mp inside).1)

/-- Past a boundary that masks everything behind it, no key is missing. -/
theorem keys_before_all {bound : Nat} (behind : ∀ j, bound ≤ j → row.Masked j) :
    keysBefore row bound = keysBefore row row.seqKv := by
  ext j
  simp only [keysBefore, Finset.mem_filter, Finset.mem_range]
  constructor
  · rintro ⟨-, unmasked⟩
    refine ⟨?_, unmasked⟩
    by_contra outside
    exact unmasked (.inl (Nat.not_lt.mp outside))
  · rintro ⟨-, unmasked⟩
    refine ⟨?_, unmasked⟩
    by_contra outside
    exact unmasked (behind j (Nat.not_lt.mp outside))

theorem first_key_unmasked (keys : 1 ≤ row.seqKv) : ¬row.Masked 0 := by
  rintro (outside | ⟨-, later⟩)
  · omega
  · exact absurd later (Nat.not_lt_zero _)

/-! ## One tile -/

variable {row}

theorem s_s_unmasked {kvStart j : Nat} (unmasked : ¬row.Masked (kvStart + j)) :
    row.sS kvStart j = score row (kvStart + j) := by
  have inside : kvStart + j < row.seqKv := Nat.not_le.mp fun outside => unmasked (.inl outside)
  rw [sS, if_neg unmasked, dot, score, foldl_add_range]
  congr 1
  apply Finset.sum_congr rfl
  intro d _
  rw [sK, if_pos inside]

theorem tile_sum (kvStart : Nat) {mNew : ℝ} (real : mNew ≠ sentinel)
    (scores : ∀ j, ¬row.Masked j → score row j ≠ sentinel) (value : Nat → ℝ) :
    ∑ j ∈ Finset.range row.bc, expDiff (row.sS kvStart j) mNew * value (kvStart + j) =
      weighted (score row) value mNew (tileKeys row kvStart) := by
  rw [weighted, tileKeys, Finset.sum_filter, Finset.sum_Ico_eq_sum_range, Nat.add_sub_cancel_left]
  apply Finset.sum_congr rfl
  intro j _
  by_cases masked : row.Masked (kvStart + j)
  · rw [if_neg (not_not.mpr masked), sS, if_pos masked, exp_diff_sentinel real, zero_mul]
  · rw [if_pos masked, s_s_unmasked masked, exp_diff_of_ne (scores _ masked)]

theorem l_tile_mass {kvStart : Nat} {mNew : ℝ} (real : mNew ≠ sentinel)
    (scores : ∀ j, ¬row.Masked j → score row j ≠ sentinel) :
    row.lTile expDiff kvStart mNew = mass (score row) mNew (tileKeys row kvStart) := by
  have sums := tile_sum kvStart real scores fun _ => 1
  rw [lTile, foldl_add_range]
  simpa only [weighted, mass, mul_one] using sums

theorem pv_weighted {kvStart : Nat} {mNew : ℝ} (real : mNew ≠ sentinel)
    (scores : ∀ j, ¬row.Masked j → score row j ≠ sentinel) (d : Nat) :
    row.pv expDiff kvStart mNew d =
      weighted (score row) (fun j => row.v j d) mNew (tileKeys row kvStart) := by
  rw [pv, foldl_add_range, ← tile_sum kvStart real scores]
  apply Finset.sum_congr rfl
  intro j _
  by_cases inside : kvStart + j < row.seqKv
  · rw [sV, if_pos inside]
  · -- a zero row of V, and a key without weight
    have masked : row.Masked (kvStart + j) := .inl (Nat.not_lt.mp inside)
    rw [sS, if_pos masked, exp_diff_sentinel real, zero_mul, zero_mul]

theorem foldl_max_ge (f : Nat → ℝ) (list : List Nat) (base : ℝ) :
    base ≤ list.foldl (fun m j => max m (f j)) base ∧
      ∀ j ∈ list, f j ≤ list.foldl (fun m j => max m (f j)) base := by
  induction list generalizing base with
  | nil => exact ⟨le_refl base, fun j member => nomatch member⟩
  | cons first rest ih =>
      obtain ⟨kept, later⟩ := ih (max base (f first))
      refine ⟨(le_max_left _ _).trans kept, ?_⟩
      intro j member
      obtain rfl | inRest := List.mem_cons.mp member
      · exact (le_max_right _ _).trans kept
      · exact later j inRest

/-! ## The loop -/

structure Before (row : AttnRow ℝ) (kvTile : Nat) (state : RowState ℝ) : Prop where
  keeps : ∀ d, Keeps (score row) (fun j => row.v j d) (keysBefore row (kvTile * row.bc))
    state.m state.l (state.o d)
  first : kvTile = 0 → state.l = 0
  later : 0 < kvTile → sentinel < state.m

theorem start_before (row : AttnRow ℝ) : Before row 0 start := by
  have nothing : keysBefore row (0 * row.bc) = ∅ := by
    rw [Nat.zero_mul]
    rfl
  refine ⟨?_, fun _ => rfl, fun later => absurd later (Nat.lt_irrefl 0)⟩
  intro d
  rw [nothing]
  exact keeps_empty sentinel

section Step

variable {state : RowState ℝ} {kvTile : Nat}

/-- The maximum is a real score from the first tile on. -/
theorem max_above_sentinel (keys : 1 ≤ row.seqKv) (tiles : 1 ≤ row.bc)
    (scores : ∀ j, ¬row.Masked j → sentinel < score row j) (before : Before row kvTile state) :
    sentinel < max state.m (row.mTile (kvTile * row.bc)) := by
  obtain rfl | later := Nat.eq_zero_or_pos kvTile
  · have unmasked := first_key_unmasked row keys
    have listed := (foldl_max_ge (row.sS (0 * row.bc)) (List.range row.bc) sentinel).2 0
      (List.mem_range.mpr tiles)
    have first : row.sS (0 * row.bc) 0 = score row 0 := by
      rw [Nat.zero_mul]
      exact s_s_unmasked unmasked
    rw [first] at listed
    exact lt_max_of_lt_right ((scores 0 unmasked).trans_le listed)
  · exact lt_max_of_lt_left (before.later later)

theorem tile_step_before (keys : 1 ≤ row.seqKv) (tiles : 1 ≤ row.bc)
    (scores : ∀ j, ¬row.Masked j → sentinel < score row j) (before : Before row kvTile state) :
    Before row (kvTile + 1) (row.tileStep expDiff state kvTile) := by
  have larger := max_above_sentinel keys tiles scores before
  have real : ∀ j, ¬row.Masked j → score row j ≠ sentinel :=
    fun j unmasked => (scores j unmasked).ne'
  have rescales : expDiff state.m (max state.m (row.mTile (kvTile * row.bc))) * state.l =
      Real.exp (state.m - max state.m (row.mTile (kvTile * row.bc))) * state.l := by
    obtain rfl | later := Nat.eq_zero_or_pos kvTile
    · rw [before.first rfl, mul_zero, mul_zero]
    · rw [exp_diff_of_ne (before.later later).ne']
  refine ⟨?_, fun impossible => absurd impossible (Nat.succ_ne_zero kvTile), fun _ => larger⟩
  intro d
  have absorbed := keeps_absorb (before.keeps d) (keys_before_disjoint row (kvTile * row.bc))
    (max state.m (row.mTile (kvTile * row.bc))) rescales
  rw [keys_before_union, ← Nat.succ_mul] at absorbed
  rw [tileStep]
  simp only [l_tile_mass larger.ne' real, pv_weighted larger.ne' real]
  exact absorbed

end Step

structure Finished (row : AttnRow ℝ) (state : RowState ℝ) : Prop where
  keeps : ∀ d, Keeps (score row) (fun j => row.v j d) (keysBefore row row.seqKv)
    state.m state.l (state.o d)

theorem tile_count_covers (tiles : 1 ≤ row.bc) : row.seqKv ≤ row.tileCount * row.bc := by
  rw [tileCount]
  have whole := Nat.div_add_mod' (row.seqKv + row.bc - 1) row.bc
  have small := Nat.mod_lt (row.seqKv + row.bc - 1) tiles
  omega

theorem kv_loop_finished (keys : 1 ≤ row.seqKv) (tiles : 1 ≤ row.bc)
    (scores : ∀ j, ¬row.Masked j → sentinel < score row j) (count kvTile : Nat)
    (total : kvTile + count = row.tileCount) {state : RowState ℝ}
    (before : Before row kvTile state) :
    Finished row (row.kvLoop expDiff (List.range' kvTile count) state) := by
  induction count generalizing kvTile state with
  | zero =>
      have behind : ∀ j, kvTile * row.bc ≤ j → row.Masked j := by
        intro j past
        have covered := tile_count_covers tiles
        rw [← total, Nat.add_zero] at covered
        exact .inl (covered.trans past)
      have all := before.keeps
      rw [keys_before_all row behind] at all
      exact ⟨all⟩
  | succ count ih =>
      rw [List.range'_succ, kvLoop]
      split
      case isTrue stops =>
        have behind : ∀ j, kvTile * row.bc ≤ j → row.Masked j := by
          intro j past
          exact .inr ⟨stops.1, Nat.lt_of_lt_of_le stops.2 past⟩
        have all := before.keeps
        rw [keys_before_all row behind] at all
        exact ⟨all⟩
      case isFalse =>
        exact ih (kvTile + 1) (by omega) (tile_step_before keys tiles scores before)

theorem run_finished (row : AttnRow ℝ) (keys : 1 ≤ row.seqKv) (tiles : 1 ≤ row.bc)
    (scores : ∀ j, ¬row.Masked j → sentinel < score row j) : Finished row (row.run expDiff) := by
  rw [run, List.range_eq_range']
  exact kv_loop_finished keys tiles scores row.tileCount 0 (Nat.zero_add _) (start_before row)

/-! ## Exact attention -/

def attended (row : AttnRow ℝ) : Finset Nat :=
  (Finset.range row.seqKv).filter fun j => row.causal = true → j ≤ row.qRow

theorem keys_before_attended (row : AttnRow ℝ) : keysBefore row row.seqKv = attended row := by
  ext j
  simp only [keysBefore, attended, Finset.mem_filter, Finset.mem_range, Masked, not_or, not_le,
    not_and, not_lt]
  constructor
  · rintro ⟨inside, -, causal⟩
    exact ⟨inside, causal⟩
  · rintro ⟨inside, causal⟩
    exact ⟨inside, inside, causal⟩

theorem attended_nonempty {row : AttnRow ℝ} (keys : 1 ≤ row.seqKv) : (attended row).Nonempty := by
  refine ⟨0, ?_⟩
  simp only [attended, Finset.mem_filter, Finset.mem_range]
  exact ⟨keys, fun _ => Nat.zero_le _⟩

noncomputable def sumExp (row : AttnRow ℝ) : ℝ := ∑ j ∈ attended row, Real.exp (score row j)

/-- The results that the row writes are those of exact attention. -/
structure ExactAttention (row : AttnRow ℝ) (state : RowState ℝ) : Prop where
  output : ∀ d, state.o d = (∑ j ∈ attended row, Real.exp (score row j) * row.v j d) / sumExp row
  logSumExp : state.m + Real.log state.l = Real.log (sumExp row)
  lse : state.lse Real.log = Real.log (sumExp row)

theorem finished_exact (row : AttnRow ℝ) (keys : 1 ≤ row.seqKv) {state : RowState ℝ}
    (finished : Finished row state) : ExactAttention row state := by
  have kept := finished.keeps
  rw [keys_before_attended] at kept
  have sum := keeps_log_sum_exp (kept 0) (attended_nonempty keys)
  refine ⟨fun d => keeps_softmax (kept d), sum, ?_⟩
  have positive : 0 < state.l := by
    rw [(kept 0).mass]
    exact mass_pos _ _ (attended_nonempty keys)
  rw [RowState.lse, if_pos positive]
  exact sum

/-- The loop over the KV tiles computes exact attention over the unmasked keys, with
any tile size. -/
theorem online_softmax_exact (row : AttnRow ℝ) (keys : 1 ≤ row.seqKv) (tiles : 1 ≤ row.bc)
    (scores : ∀ j, ¬row.Masked j → sentinel < score row j) :
    ExactAttention row (row.run expDiff) ∧
      ∀ bc, 1 ≤ bc → (({ row with bc }).run expDiff).o = (row.run expDiff).o ∧
        (({ row with bc }).run expDiff).m + Real.log (({ row with bc }).run expDiff).l =
          (row.run expDiff).m + Real.log (row.run expDiff).l := by
  have exactly := finished_exact row keys (run_finished row keys tiles scores)
  refine ⟨exactly, ?_⟩
  intro bc other
  have same : ExactAttention row (({ row with bc }).run expDiff) := by
    have resized := finished_exact { row with bc } keys
      (run_finished { row with bc } keys other scores)
    exact ⟨resized.output, resized.logSumExp, resized.lse⟩
  constructor
  · funext d
    rw [same.output, exactly.output]
  · rw [same.logSumExp, exactly.logSumExp]

/-- The second of three queries: the last key is masked, and the last tile is partial. -/
def causalRow : AttnRow ℝ where
  bc := 2
  headDim := 1
  seqKv := 3
  qRow := 1
  causal := true
  scale := 1
  q := fun _ => 1
  k := fun j _ => j
  v := fun j _ => j

theorem online_softmax_exact_causal : ExactAttention causalRow (causalRow.run expDiff) := by
  have scores : ∀ j, ¬causalRow.Masked j → sentinel < score causalRow j := by
    intro j _
    have value : score causalRow j = j := by simp [score, causalRow]
    have below : (sentinel : ℝ) < 0 := by norm_num [sentinel]
    rw [value]
    exact below.trans_le (Nat.cast_nonneg j)
  exact (online_softmax_exact causalRow (by decide) (by decide) scores).1

/-! ## The rows of a block -/

def rowOf (block : FlashBlock ℝ) (tid : Nat) : AttnRow ℝ where
  bc := block.bc
  headDim := block.headDim
  seqKv := block.launch.seqKv.toNat
  qRow := block.qRow tid
  causal := block.launch.causal
  scale := block.launch.scale
  q := fun d => block.Q (block.qPlace (block.qRow tid) d)
  k := fun j d => block.K (block.kvPlace j d)
  v := fun j d => block.V (block.kvPlace j d)

section Block

variable (block : FlashBlock ℝ) (tid : Nat)

theorem row_of_masked (kvTile j : Nat) :
    (rowOf block tid).Masked (kvTile * block.bc + j) ↔ block.Masked kvTile tid j := by
  unfold AttnRow.Masked FlashBlock.Masked rowOf
  rw [Int.toNat_le]

theorem row_of_tiles {kvTile r d : Nat} (inside : d < block.headDim) :
    block.tileElement block.K kvTile (r * block.headDim + d) =
        (rowOf block tid).sK (kvTile * block.bc) r d ∧
      block.tileElement block.V kvTile (r * block.headDim + d) =
        (rowOf block tid).sV (kvTile * block.bc) r d := by
  simp only [FlashBlock.tileElement, sK, sV, rowOf, row_major_div inside, row_major_mod inside,
    Int.lt_toNat]
  exact ⟨trivial, trivial⟩

theorem kv_loop_tiles (row : AttnRow ℝ) (tiles : List Nat) (state : RowState ℝ) :
    row.kvLoop expDiff tiles state =
      (tiles.takeWhile fun kvTile => ¬(row.causal = true ∧ row.qRow < kvTile * row.bc)).foldl
        (row.tileStep expDiff) state := by
  induction tiles generalizing state with
  | nil => rfl
  | cons kvTile rest ih =>
      rw [kvLoop]
      by_cases stops : row.causal = true ∧ row.qRow < kvTile * row.bc
      · rw [if_pos stops, List.takeWhile_cons_of_neg (by simp [stops])]
        rfl
      · rw [if_neg stops, List.takeWhile_cons_of_pos (by simp [stops]), List.foldl_cons, ih]

/-- The loop goes through the tiles of the thread. -/
theorem row_of_run (keys : 1 ≤ block.launch.seqKv)
    (counted : block.launch.seqKv + block.bc ≤ 2147483648) :
    (rowOf block tid).run expDiff =
      (block.kvTiles tid).foldl ((rowOf block tid).tileStep expDiff) start := by
  have tiles : (rowOf block tid).tileCount = block.tileCount := by
    obtain ⟨n, same⟩ := Int.eq_ofNat_of_zero_le (Int.le_trans Int.one_nonneg keys)
    have cast : (n : Int) + block.bc - 1 = ((n + block.bc - 1 : Nat) : Int) := by omega
    rw [AttnRow.tileCount, FlashBlock.tileCount, rowOf, to_int32_of_range (by omega) (by omega)]
    simp only [same, cast, Int.toNat_natCast]
    rfl
  rw [AttnRow.run, kv_loop_tiles, tiles]
  rfl

end Block

end AmpFormal.FlashAttnSoftmax
