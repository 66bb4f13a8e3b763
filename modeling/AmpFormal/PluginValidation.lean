import AmpFormal.ParityDump
import AmpFormal.RelativeErrors

/-!
# The dumps of two validated plugins

A transcription of `amp_validate_kernel.cpp` after the plugin has returned: the output
is compared with the CPU reference and written to a dump with one tile. Two plugins
that PASS on two machines can still differ from each other, and `parity_check.py`
compares what was printed of them.
-/

namespace AmpFormal.PluginValidation

open AmpFormal.ExactFloats AmpFormal.ExactFloats.IeeeValue AmpFormal.ErrorFolds
open AmpFormal.ParityCheck AmpFormal.RelativeErrors

set_option autoImplicit false

structure Shape where
  M : Nat
  N : Nat
  K : Nat
  seed : Int

/-- `write_json`, as `parity_check.py` reads it back: one tile of no size. -/
def writeJson (printed : ℚ → ℚ) (shape : Shape) (gflops : Value) (output : List ℚ) : Dump :=
  { M := shape.M, N := shape.N, K := shape.K, seed := shape.seed
    tiles := [
      { bm := 0, bn := 0, bk := 0, gflops, output := output.map fun x => .finite (printed x) }] }

/-- The plugin filled the matrix with numbers, and the validator exits with 0. -/
structure Validated (shape : Shape) (ref output : List ℚ) : Prop where
  elements : output.length = shape.M * shape.N
  reference : ref.length = shape.M * shape.N
  exit : ∃ rc, validateExit rc (output.map .finite) (ref.map .finite) = 0

/-- The check finishes with one compared tile, whose error is below the bound. -/
def ParityBelow (bound : ℚ) (outcome : Outcome) : Prop :=
  ∃ gflopsA gflopsB ratio maxAbsErr maxRelErr ok loop, outcome = .finished loop ∧
    loop.rows = [.compared (0, 0, 0) gflopsA gflopsB ratio maxAbsErr maxRelErr ok] ∧
    less maxRelErr (.finite bound) = true

/-! ## The tests, on numbers -/

theorem rel_errors_finite (out ref : List ℚ) :
    (((out.map IeeeValue.finite).zip (ref.map IeeeValue.finite)).map fun pair =>
        relErr pair.1 pair.2) =
      (out.zip ref).map fun pair => .finite (relativeError pair.1 pair.2) := by
  rw [List.zip_map, List.map_map]
  apply List.map_congr_left
  intro pair _
  exact rel_err_finite pair.1 pair.2

theorem validated_close {shape : Shape} {ref output : List ℚ}
    (validated : Validated shape ref output) (pair : ℚ × ℚ) (member : pair ∈ output.zip ref) :
    relativeError pair.1 pair.2 < 1 / 1000 := by
  obtain ⟨rc, exit⟩ := validated.exit
  have pass := ((validate_exit_zero_iff rc _ _).mp exit).2
  unfold reportsPass errorFold at pass
  rw [error_fold_rel, rel_errors_finite, fold_max_less_iff, List.forall_mem_map] at pass
  exact of_decide_eq_true ((pass.2 pair member).resolve_left nofun)

theorem close_validated {shape : Shape} {ref output : List ℚ}
    (elements : output.length = shape.M * shape.N) (reference : ref.length = shape.M * shape.N)
    (close : ∀ pair ∈ output.zip ref, relativeError pair.1 pair.2 < 1 / 1000) :
    Validated shape ref output := by
  refine ⟨elements, reference, 0, (validate_exit_zero_iff 0 _ _).mpr ⟨rfl, ?_⟩⟩
  unfold reportsPass errorFold
  rw [error_fold_rel, rel_errors_finite, fold_max_less_iff, List.forall_mem_map]
  exact ⟨by decide +kernel, fun pair member => Or.inr (decide_eq_true (close pair member))⟩

theorem record_rows (loop : ParityLoop) (ta tb : Tile) (maxAbsErr maxRelErr : Value) :
    ∃ ratio ok, (loop.record ta tb maxAbsErr maxRelErr).rows =
      loop.rows ++ [.compared (tileKey ta) ta.gflops tb.gflops ratio maxAbsErr maxRelErr ok] := by
  refine ⟨if ta.gflops = .finite 0 then .posInf else tb.gflops.div ta.gflops,
    less maxRelErr relErrThreshold, ?_⟩
  unfold ParityLoop.record ParityLoop.print
  dsimp only
  split <;> rfl

theorem parity_below_iff {shape : Shape} {outA outB : List ℚ} (printed : ℚ → ℚ)
    (gflopsA gflopsB : Value) (nonempty : outA ≠ []) (sameLength : outA.length = outB.length)
    (bound : ℚ) :
    ParityBelow bound (main (writeJson printed shape gflopsA outA)
        (writeJson printed shape gflopsB outB)) ↔
      ∀ pair ∈ outA.zip outB, relativeError (printed pair.1) (printed pair.2) < bound := by
  let tile (gflops : Value) (output : List ℚ) : Tile :=
    { bm := 0, bn := 0, bk := 0, gflops, output := output.map fun x => .finite (printed x) }
  have partner : tilesByKey [tile gflopsB outB] (0, 0, 0) = some (tile gflopsB outB) := by
    have distinct : ([tile gflopsB outB].map tileKey).Nodup := List.nodup_singleton _
    exact (tiles_by_key_iff distinct _ _).mpr ⟨List.mem_singleton_self _, rfl⟩
  have pairs : (tile gflopsA outA).output.zip (tile gflopsB outB).output ≠ [] := by
    dsimp only [tile]
    rw [ne_eq, List.zip_eq_nil_iff, not_or, List.map_eq_nil_iff, List.map_eq_nil_iff]
    refine ⟨nonempty, fun empty => nonempty (List.length_eq_zero_iff.mp ?_)⟩
    rw [sameLength, empty, List.length_nil]
  obtain ⟨maxAbs, absComputed⟩ := py_max_some pairs fun pair => absErr pair.1 pair.2
  obtain ⟨maxRel, relComputed⟩ := py_max_some pairs fun pair => relErr pair.1 pair.2
  have verdict : less maxRel (.finite bound) = true ↔
      ∀ pair ∈ outA.zip outB, relativeError (printed pair.1) (printed pair.2) < bound := by
    have errors : ((tile gflopsA outA).output.zip (tile gflopsB outB).output).map
        (fun pair => relErr pair.1 pair.2) = (outA.zip outB).map fun pair =>
          .finite (relativeError (printed pair.1) (printed pair.2)) := by
      dsimp only [tile]
      rw [List.zip_map, List.map_map]
      exact List.map_congr_left fun pair _ => rel_err_finite _ _
    rw [errors] at relComputed
    cases zipped : outA.zip outB with
    | nil =>
        rw [zipped] at relComputed
        cases relComputed
    | cons first rest =>
        rw [zipped] at relComputed
        cases relComputed
        rw [fold_max_less_iff, List.forall_mem_map, List.forall_mem_cons]
        exact and_congr decide_eq_true_iff
          (forall₂_congr fun pair _ => (or_iff_right nofun).trans decide_eq_true_iff)
  have finished : ∃ ratio ok loop, main (writeJson printed shape gflopsA outA)
      (writeJson printed shape gflopsB outB) = .finished loop ∧
        loop.rows = [.compared (0, 0, 0) gflopsA gflopsB ratio maxAbs maxRel ok] := by
    have lengths : (tile gflopsA outA).output.length = (tile gflopsB outB).output.length := by
      dsimp only [tile]
      rw [List.length_map, List.length_map, sameLength]
    have step : ({} : ParityLoop).compareTile (tilesByKey [tile gflopsB outB]) (tile gflopsA outA) =
        some (({} : ParityLoop).record (tile gflopsA outA) (tile gflopsB outB) maxAbs maxRel) := by
      unfold ParityLoop.compareTile
      rw [show tileKey (tile gflopsA outA) = (0, 0, 0) from rfl, partner]
      dsimp only
      rw [if_neg (not_not.mpr lengths), maxAbsErr, absComputed, maxRelErr, relComputed]
    obtain ⟨ratio, ok, rows⟩ := record_rows {} (tile gflopsA outA) (tile gflopsB outB) maxAbs maxRel
    refine ⟨ratio, ok, _, ?_, rows⟩
    unfold main
    rw [if_neg fun differ => differ rfl]
    dsimp only [writeJson, ParityLoop.compareTiles]
    rw [step]
  obtain ⟨ratio, ok, loop, run, rows⟩ := finished
  rw [← verdict, ParityBelow, run]
  constructor
  · rintro ⟨_, _, _, _, _, _, _, same, shown, small⟩
    cases same
    rw [rows] at shown
    cases shown
    exact small
  · intro small
    exact ⟨_, _, _, _, _, _, _, rfl, rows, small⟩

/-! ## Two plugins -/

/-- Two validated outputs stay near each other when they are printed. -/
theorem validated_parity {shape : Shape} {ref outA outB : List ℚ} {printed : ℚ → ℚ} {precision : ℚ}
    (precise : 0 ≤ precision ∧ precision < 1) (rounded : Precise precision printed)
    (validatedA : Validated shape ref outA) (validatedB : Validated shape ref outB)
    {pair : ℚ × ℚ} (member : pair ∈ outA.zip outB) :
    relativeError (printed pair.1) (printed pair.2) < composedError (1 / 1000) precision := by
  obtain ⟨i, below, rfl⟩ := List.mem_iff_getElem.mp member
  rw [List.length_zip, lt_min_iff] at below
  have inRef : i < ref.length := by
    rw [validatedA.reference, ← validatedA.elements]
    exact below.1
  have closeA := validated_close validatedA (outA[i], ref[i])
    (List.mem_iff_getElem.mpr ⟨i, by simp [below.1, inRef], List.getElem_zip⟩)
  have closeB := validated_close validatedB (outB[i], ref[i])
    (List.mem_iff_getElem.mpr ⟨i, by simp [below.2, inRef], List.getElem_zip⟩)
  rw [List.getElem_zip]
  exact composed_error_lt (by norm_num) precise rounded closeA closeB

/-- However two plugins that PASS differ, their printed dumps differ by less than the
composed error; no smaller bound holds, on any shape. -/
theorem validated_plugins_agree_iff {shape : Shape} (elements : 0 < shape.M * shape.N)
    {precision : ℚ} (precise : 0 ≤ precision ∧ precision < 1) (bound : ℚ) :
    (∀ printed, Precise precision printed → ∀ ref outA outB gflopsA gflopsB,
      Validated shape ref outA → Validated shape ref outB →
        ParityBelow bound (main (writeJson printed shape gflopsA outA)
          (writeJson printed shape gflopsB outB))) ↔
      composedError (1 / 1000) precision ≤ bound := by
  constructor
  · intro always
    by_contra below
    obtain ⟨printed, rounded, a, b, r, closeA, closeB, large⟩ :=
      composed_error_optimal (by norm_num : (0 : ℚ) < 1 / 1000 ∧ (1 / 1000 : ℚ) < 1) precise
        (not_le.mp below)
    have filled (x : ℚ) : (List.replicate (shape.M * shape.N) x).length = shape.M * shape.N :=
      List.length_replicate
    have zipped (x y : ℚ) : (List.replicate (shape.M * shape.N) x).zip
        (List.replicate (shape.M * shape.N) y) = List.replicate (shape.M * shape.N) (x, y) := by
      rw [List.zip_replicate, min_self]
    have validated {x : ℚ} (close : relativeError x r < 1 / 1000) :
        Validated shape (List.replicate (shape.M * shape.N) r)
          (List.replicate (shape.M * shape.N) x) := by
      refine close_validated (filled x) (filled r) fun pair member => ?_
      rw [zipped] at member
      rw [List.eq_of_mem_replicate member]
      exact close
    have small := always printed rounded _ _ _ (.finite 1) (.finite 1) (validated closeA)
      (validated closeB)
    rw [parity_below_iff printed _ _ (by simp [elements.ne']) (by rw [filled, filled]),
      zipped] at small
    exact not_lt.mpr large (small (a, b) (List.mem_replicate.mpr ⟨elements.ne', rfl⟩))
  · intro enough printed rounded ref outA outB gflopsA gflopsB validatedA validatedB
    rw [parity_below_iff printed _ _ (by
      intro empty
      have length := validatedA.elements
      rw [empty] at length
      exact elements.ne length) (by rw [validatedA.elements, validatedB.elements])]
    intro pair member
    exact (validated_parity precise rounded validatedA validatedB member).trans_le enough

/-- One element, six printed digits, and the threshold of the check itself. -/
theorem validated_plugins_agree_iff_one_element :
    let shape : Shape := { M := 1, N := 1, K := 1, seed := 42 }
    (∀ printed, Precise (1 / 200000 : ℚ) printed → ∀ ref outA outB gflopsA gflopsB,
      Validated shape ref outA → Validated shape ref outB →
        ParityBelow (1 / 1000) (main (writeJson printed shape gflopsA outA)
          (writeJson printed shape gflopsB outB))) ↔
      composedError (1 / 1000) (1 / 200000 : ℚ) ≤ 1 / 1000 :=
  validated_plugins_agree_iff (by decide) (by norm_num) _

/-- Two plugins can PASS and their dumps FAIL. -/
example : ¬composedError (1 / 1000) (1 / 200000 : ℚ) ≤ 1 / 1000 := by
  norm_num [composedError]

end AmpFormal.PluginValidation
