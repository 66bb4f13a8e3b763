import AmpFormal.HalvingTermination
import AmpFormal.MinimumSelection

/-!
# Successive halving and grid search agree

When `measure` depends on the configuration alone, a round narrows the candidates:
the sorted list starts with a minimum, and at least its first item survives. The
grid search keeps the first candidate that scores lower than all before it.
-/

namespace AmpFormal.HalvingSearch

open AmpFormal.ExactFloats AmpFormal.HalvingModel AmpFormal.HalvingRuns
open AmpFormal.HalvingTermination AmpFormal.MinimumSelection

set_option autoImplicit false

variable {Cfg Score : Type*} {tuner : Tuner Cfg Score} {f : Cfg → Score} {candidates : List Cfg}
  {maxReps : ℤ} {eta : IeeeValue ℚ}

theorem measure_alive_scores (stable : ∀ n c reps, tuner.measure n c reps = f c) (reps : ℤ)
    (alive : List (Item Cfg Score)) (totalEvals : ℤ) (measured : List ℤ) :
    ∀ it ∈ (measureAlive tuner reps alive totalEvals measured).1, it.score = f it.cfg := by
  induction alive generalizing totalEvals measured with
  | nil =>
      intro it member
      cases member
  | cons first rest ih =>
      intro it member
      unfold measureAlive at member
      rcases List.mem_cons.mp member with rfl | later
      · exact stable _ _ _
      · exact ih _ _ it later

/-! ## Halving -/

section Halving

variable [LinearOrder Score] {before after : Halving Cfg Score}

/-- A round keeps a configuration of minimal score, whatever the sort does with ties. -/
theorem halve_narrows (sorts : Sorts tuner.sort)
    (stable : ∀ n c reps, tuner.measure n c reps = f c) (several : 1 < before.alive.length)
    (moved : halve tuner maxReps eta before = some after) :
    Narrows f (before.alive.map Item.cfg) (after.alive.map Item.cfg) := by
  have survivors := (halve_effect sorts moved).alive
  obtain ⟨configurations, -⟩ := measure_alive_effect tuner before.reps before.alive
    before.totalEvals before.measured
  have scores := measure_alive_scores stable before.reps before.alive before.totalEvals
    before.measured
  generalize (measureAlive tuner before.reps before.alive before.totalEvals before.measured).1 =
    items at survivors configurations scores
  have permuted := (sorts.perm items).map Item.cfg
  have ordered : ((tuner.sort items).map Item.cfg).Pairwise fun a b => f a ≤ f b := by
    rw [List.pairwise_map]
    apply (sorts.sorted items).imp_of_mem
    intro a b aMember bMember less
    rwa [scores a ((sorts.perm items).mem_iff.mp aMember),
      scores b ((sorts.perm items).mem_iff.mp bMember)] at less
  have nonempty : before.alive.map Item.cfg ≠ [] := by
    intro empty
    rw [List.map_eq_nil_iff.mp empty, List.length_nil] at several
    omega
  have positive : 0 < max 1 (before.alive.length / tuner.toSize eta) := by omega
  rw [configurations] at permuted
  rw [survivors, List.map_take]
  exact narrows_take permuted ordered nonempty positive

variable [Zero Score]

omit [LinearOrder Score] in
theorem start_configurations (candidates : List Cfg) (minReps : ℤ) :
    (startHalving candidates minReps : Halving Cfg Score).alive.map Item.cfg = candidates := by
  unfold startHalving
  rw [List.map_map]
  exact List.map_id candidates

theorem loop_finds_minimum (sorts : Sorts tuner.sort)
    (stable : ∀ n c reps, tuner.measure n c reps = f c) (nonempty : candidates ≠ []) {fuel : ℕ}
    {minReps : ℤ} {final : Halving Cfg Score} {survivor : Item Cfg Score}
    (ended : halvingLoop tuner maxReps eta fuel (startHalving candidates minReps) =
      .returned final) (survives : final.alive = [survivor]) :
    IsMinimum f candidates survivor.cfg := by
  have initial : Narrows f candidates
      ((startHalving candidates minReps : Halving Cfg Score).alive.map Item.cfg) := by
    rw [start_configurations]
    exact narrows_refl nonempty
  obtain ⟨narrowed, -⟩ := loop_invariant
    (motive := fun state => Narrows f candidates (state.alive.map Item.cfg))
    (fun before after several prior moved =>
      narrows_trans prior (halve_narrows sorts stable several moved)) initial ended
  rw [survives, List.map_singleton] at narrowed
  exact narrows_singleton narrowed

end Halving

/-! ## Grid search -/

section Grid

variable [LinearOrder Score] {measure : ℕ → Cfg → ℤ → Score} {bound : Score}

inductive GridBest (f : Cfg → Score) (bound : Score) :
    List Cfg → SHResult Cfg Score → Prop
  | start {result : SHResult Cfg Score} (unset : result.bestScore = bound) :
      GridBest f bound [] result
  | found {searched : List Cfg} {result : SHResult Cfg Score}
      (minimum : IsMinimum f searched result.best) (measured : f result.best = result.bestScore) :
      GridBest f bound searched result

theorem grid_best_step {searched : List Cfg} {result : SHResult Cfg Score} {c : Cfg}
    (best : GridBest f bound searched result) (below : f c < bound) (evals : ℤ) :
    GridBest f bound (searched ++ [c])
      (if f c < result.bestScore then
          { result with totalEvals := evals, best := c, bestScore := f c }
        else { result with totalEvals := evals }) := by
  cases best with
  | start unset =>
      rw [if_pos (unset ▸ below)]
      exact .found (minimum_singleton c) rfl
  | found minimum measured =>
      split
      case isTrue lower =>
        rw [← measured] at lower
        exact .found (minimum_replaced minimum lower.le) rfl
      case isFalse notLower =>
        rw [← measured, not_lt] at notLower
        exact .found (minimum_kept minimum notLower) measured

theorem grid_loop_best (stable : ∀ n c reps, measure n c reps = f c) (reps : ℤ)
    {rest : List Cfg} (below : ∀ c ∈ rest, f c < bound) {searched : List Cfg}
    {result : SHResult Cfg Score} (best : GridBest f bound searched result) (calls : ℕ) :
    GridBest f bound (searched ++ rest) (gridLoop measure reps calls result rest) := by
  induction rest generalizing searched result calls with
  | nil =>
      rw [List.append_nil]
      exact best
  | cons c rest ih =>
      obtain ⟨here, later⟩ := List.forall_mem_cons.mp below
      have next := ih later (grid_best_step best here (result.totalEvals + reps)) (calls + 1)
      rw [List.append_assoc, List.singleton_append] at next
      unfold gridLoop
      rw [stable]
      exact next

theorem grid_search_minimum [Inhabited Cfg] (stable : ∀ n c reps, measure n c reps = f c)
    (nonempty : candidates ≠ []) (below : ∀ c ∈ candidates, f c < bound) (reps : ℤ) :
    IsMinimum f candidates (gridSearch measure bound candidates reps).best ∧
      f (gridSearch measure bound candidates reps).best =
        (gridSearch measure bound candidates reps).bestScore := by
  have start : GridBest f bound [] { best := default, bestScore := bound, totalEvals := 0 } :=
    .start rfl
  have best := grid_loop_best stable reps below start 0
  rw [List.nil_append] at best
  cases best with
  | start => exact absurd rfl nonempty
  | found minimum measured => exact ⟨minimum, measured⟩

end Grid

/-! ## Agreement -/

/-- Both searches return the minimal score and a candidate that has it. -/
theorem halving_agrees_with_grid [LinearOrder Score] [Zero Score] [Inhabited Cfg]
    (sorts : Sorts tuner.sort) (converts : Converts tuner.toSize tuner.growReps)
    (stable : ∀ n c reps, tuner.measure n c reps = f c) (nonempty : candidates ≠ [])
    {bound : Score} (below : ∀ c ∈ candidates, f c < bound) {q : ℚ} (atLeast : 2 ≤ q)
    (range : q < 2 ^ 64) (minReps maxReps gridReps : ℤ) :
    ∃ fuel result,
      successiveHalving tuner fuel candidates minReps maxReps (.finite q) = .returned result ∧
      result.bestScore = (gridSearch tuner.measure bound candidates gridReps).bestScore ∧
      IsMinimum f candidates result.best ∧ f result.best = result.bestScore ∧
      IsMinimum f candidates (gridSearch tuner.measure bound candidates gridReps).best ∧
      f (gridSearch tuner.measure bound candidates gridReps).best =
        (gridSearch tuner.measure bound candidates gridReps).bestScore := by
  have divisor : 2 ≤ tuner.toSize (.finite q) :=
    (two_le_divisor_iff converts (zero_le_two.trans atLeast) range).mpr atLeast
  obtain ⟨final, survivor, ended, survives, returned⟩ :=
    halving_returns sorts nonempty divisor minReps maxReps
  have minimum := loop_finds_minimum sorts stable nonempty ended survives
  obtain ⟨gridMinimum, gridScore⟩ := grid_search_minimum stable nonempty below gridReps
  refine ⟨_, _, returned, ?_, minimum, (stable _ _ _).symm, gridMinimum, gridScore⟩
  rw [stable, ← gridScore]
  exact minimum_score_unique minimum gridMinimum

def tiedScore (c : ℕ) : ℚ := (c % 3 : ℕ)

theorem halving_agrees_with_grid_tied :
    ∃ fuel result, successiveHalving (numberedTuner tiedScore) fuel [4, 7, 5, 1, 8] 1 32
        (.finite (5 / 2)) = .returned result ∧
      result.bestScore =
        (gridSearch (numberedTuner tiedScore).measure (10 ^ 18) [4, 7, 5, 1, 8] 32).bestScore := by
  have stable (n c : ℕ) (reps : ℤ) : (numberedTuner tiedScore).measure n c reps = tiedScore c := rfl
  have below : ∀ c ∈ [4, 7, 5, 1, 8], tiedScore c < 10 ^ 18 := by decide +kernel
  have atLeast : (2 : ℚ) ≤ 5 / 2 := by norm_num
  obtain ⟨fuel, result, returned, agree, -⟩ := halving_agrees_with_grid
    (numbered_sorts tiedScore) (numbered_converts tiedScore) stable (by decide) below atLeast
    (by norm_num) 1 32 32
  exact ⟨fuel, result, returned, agree⟩

/-- A factor of 2^64 is out of the range of `size_t`, and a conversion may give 0. -/
theorem huge_factor_divides_by_zero :
    ¬∃ fuel result, successiveHalving (numberedTuner fun c => c) fuel [0, 1] 1 32
      (.finite (2 ^ 64)) = .returned result := by
  rintro ⟨fuel, result, returned⟩
  have divisor : (numberedTuner fun c => c).toSize (.finite (2 ^ 64)) = 0 := by decide +kernel
  rw [halving_of_nonempty (by decide)] at returned
  cases fuel with
  | zero => cases returned
  | succ fuel =>
      rw [loop_divides_by_zero divisor (by decide)] at returned
      cases returned

end AmpFormal.HalvingSearch
