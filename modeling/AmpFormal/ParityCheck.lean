import AmpFormal.ErrorFolds
import Mathlib.Data.List.Induction

/-!
# The verdict of `parity_check.py`

A transcription of `main`, from two parsed dumps to the rows it prints and the
exit status. A tile of A without a partner in B is skipped, tiles of B without a
partner in A are never looked at. The diagnosis behind `--analyze` runs only
after a failure and cannot change the status; it and the header lines are left
out.
-/

namespace AmpFormal.ParityCheck

open AmpFormal.ExactFloats AmpFormal.ExactFloats.IeeeValue AmpFormal.ErrorFolds

set_option autoImplicit false

structure Tile where
  bm : Int
  bn : Int
  bk : Int
  gflops : Value
  output : List Value

structure Dump where
  M : Int
  N : Int
  K : Int
  seed : Int
  tiles : List Tile

abbrev TileKey := Int × Int × Int

def tileKey (t : Tile) : TileKey := (t.bm, t.bn, t.bk)

/-- The dictionary of the tiles of a dump; of equal keys the last one wins. -/
def tilesByKey (tiles : List Tile) : TileKey → Option Tile :=
  tiles.foldl (fun dict t => Function.update dict (tileKey t) (some t)) fun _ => none

inductive Row where
  | noMatchingTile (key : TileKey)
  | lengthMismatch (key : TileKey)
  | compared (key : TileKey) (gflopsA gflopsB ratio maxAbsErr maxRelErr : Value) (ok : Bool)
  deriving DecidableEq

structure ParityLoop where
  rows : List Row := []
  failures : Nat := 0
  failingTiles : List TileKey := []
  deriving DecidableEq

namespace ParityLoop

def print (loop : ParityLoop) (row : Row) : ParityLoop := { loop with rows := loop.rows ++ [row] }

/-- The row and the counters of a pair of tiles with the given errors. -/
def record (loop : ParityLoop) (ta tb : Tile) (maxAbsErr maxRelErr : Value) : ParityLoop :=
  let ratio := if ta.gflops = .finite 0 then .posInf else tb.gflops.div ta.gflops
  let ok := less maxRelErr relErrThreshold
  let loop := if ok then loop else
    { loop with
      failures := loop.failures + 1
      failingTiles := loop.failingTiles ++ [tileKey ta] }
  loop.print (.compared (tileKey ta) ta.gflops tb.gflops ratio maxAbsErr maxRelErr ok)

/-- One tile of A. `max` raises `ValueError` when both outputs are empty. -/
def compareTile (tilesB : TileKey → Option Tile) (loop : ParityLoop) (ta : Tile) :
    Option ParityLoop :=
  match tilesB (tileKey ta) with
  | none => some (loop.print (.noMatchingTile (tileKey ta)))
  | some tb =>
      if ta.output.length ≠ tb.output.length then
        some { loop.print (.lengthMismatch (tileKey ta)) with failures := loop.failures + 1 }
      else
        match maxAbsErr ta.output tb.output, maxRelErr ta.output tb.output with
        | some absErr, some relErr => some (loop.record ta tb absErr relErr)
        | _, _ => none

def compareTiles (tilesB : TileKey → Option Tile) : List Tile → ParityLoop → Option ParityLoop
  | [], loop => some loop
  | ta :: rest, loop =>
      match loop.compareTile tilesB ta with
      | none => none
      | some loop => compareTiles tilesB rest loop

end ParityLoop

inductive Outcome where
  | notComparable
  | valueError
  | finished (loop : ParityLoop)

def main (a b : Dump) : Outcome :=
  if (a.M, a.N, a.K, a.seed) ≠ (b.M, b.N, b.K, b.seed) then .notComparable
  else
    match ParityLoop.compareTiles (tilesByKey b.tiles) a.tiles {} with
    | none => .valueError
    | some loop => .finished loop

/-- An uncaught exception ends Python with status 1. -/
def exitStatus : Outcome → Nat
  | .notComparable | .valueError => 1
  | .finished loop => if loop.failures = 0 then 0 else 1

/-! ## The dictionary of B -/

theorem tiles_by_key_append (tiles : List Tile) (last : Tile) :
    tilesByKey (tiles ++ [last]) =
      Function.update (tilesByKey tiles) (tileKey last) (some last) := by
  unfold tilesByKey
  rw [List.foldl_append]
  rfl

theorem tiles_by_key_iff {tiles : List Tile} (distinct : (tiles.map tileKey).Nodup)
    (key : TileKey) (t : Tile) : tilesByKey tiles key = some t ↔ t ∈ tiles ∧ tileKey t = key := by
  induction tiles using List.reverseRecOn with
  | nil => simp [tilesByKey]
  | append_singleton tiles last ih =>
      rw [List.map_append, List.map_singleton, List.nodup_append] at distinct
      rw [tiles_by_key_append, List.mem_append, List.mem_singleton]
      by_cases same : key = tileKey last
      · rw [same, Function.update_self, Option.some.injEq]
        constructor
        · intro isLast
          exact ⟨Or.inr isLast.symm, by rw [isLast]⟩
        · intro found
          rcases found with ⟨earlier | isLast, sameKey⟩
          · exact absurd sameKey (distinct.2.2 _ (List.mem_map_of_mem earlier) _
              (List.mem_singleton_self _))
          · exact isLast.symm
      · rw [Function.update_of_ne same, ih distinct.1]
        constructor
        · intro found
          exact ⟨Or.inl found.1, found.2⟩
        · intro found
          rcases found with ⟨earlier | isLast, sameKey⟩
          · exact ⟨earlier, sameKey⟩
          · exact absurd (isLast ▸ sameKey).symm same

/-! ## One pair of tiles -/

/-- Equal lengths, and every pair of exact elements is close. -/
def TilesAgree (ta tb : Tile) : Prop :=
  ta.output.length = tb.output.length ∧
    ∀ p q, (.finite p, .finite q) ∈ ta.output.zip tb.output → |p - q| / max 1 |q| < 1 / 1000

structure Dump.Exact (d : Dump) : Prop where
  finite : ∀ t ∈ d.tiles, ∀ x ∈ t.output, x.isFinite = true
  nonempty : ∀ t ∈ d.tiles, t.output ≠ []
  distinct : (d.tiles.map tileKey).Nodup

theorem finite_value {x : Value} (finite : x.isFinite = true) : ∃ q, x = .finite q := by
  cases x with
  | finite q => exact ⟨q, rfl⟩
  | nan => cases finite
  | negInf => cases finite
  | posInf => cases finite

theorem max_rel_err_exact {outA outB : List Value} (finiteA : ∀ x ∈ outA, x.isFinite = true)
    (finiteB : ∀ y ∈ outB, y.isFinite = true) {worst : Value}
    (computed : maxRelErr outA outB = some worst) :
    less worst relErrThreshold = true ↔
      ∀ p q, (.finite p, .finite q) ∈ outA.zip outB → |p - q| / max 1 |q| < 1 / 1000 := by
  have determinate : Determinate outA outB := by
    refine ⟨?_, finiteB⟩
    intro x member isNan
    have finite := finiteA x member
    rw [isNan] at finite
    cases finite
  rw [max_small_iff_close determinate computed]
  constructor
  · intro close p q member
    have small := close _ member
    rw [rel_err_finite] at small
    exact of_decide_eq_true small
  · intro close pair member
    rcases finite_value (finiteA _ (List.of_mem_zip member).1) with ⟨p, isP⟩
    rcases finite_value (finiteB _ (List.of_mem_zip member).2) with ⟨q, isQ⟩
    rw [isP, isQ, rel_err_finite]
    apply decide_eq_true
    apply close p q
    rw [← isP, ← isQ]
    exact member

theorem py_max_some {pairs : List (Value × Value)} (nonempty : pairs ≠ [])
    (error : Value × Value → Value) : ∃ greatest, pyMax (pairs.map error) = some greatest := by
  cases pairs with
  | nil => exact absurd rfl nonempty
  | cons first rest => exact ⟨_, rfl⟩

/-- What one tile of A does to the counter: nothing without a partner or with
one that agrees, one failure otherwise. -/
theorem compare_tile_effect {tilesB : TileKey → Option Tile} (loop : ParityLoop) {ta : Tile}
    (finiteA : ∀ x ∈ ta.output, x.isFinite = true) (nonempty : ta.output ≠ [])
    (finiteB : ∀ tb, tilesB (tileKey ta) = some tb → ∀ y ∈ tb.output, y.isFinite = true) :
    ∃ after, loop.compareTile tilesB ta = some after ∧
      ((after.failures = loop.failures ∧
          ∀ tb, tilesB (tileKey ta) = some tb → TilesAgree ta tb) ∨
        (after.failures = loop.failures + 1 ∧
          ∃ tb, tilesB (tileKey ta) = some tb ∧ ¬TilesAgree ta tb)) := by
  unfold ParityLoop.compareTile
  cases partner : tilesB (tileKey ta) with
  | none =>
      refine ⟨_, rfl, Or.inl ⟨rfl, ?_⟩⟩
      intro tb found
      cases found
  | some tb =>
      dsimp only
      by_cases sameLength : ta.output.length = tb.output.length
      · have pairs : ta.output.zip tb.output ≠ [] := by
          rw [ne_eq, List.zip_eq_nil_iff, not_or]
          exact ⟨nonempty, fun empty => nonempty (by simpa [empty] using sameLength)⟩
        rcases py_max_some pairs fun pair => absErr pair.1 pair.2 with ⟨maxAbs, absComputed⟩
        rcases py_max_some pairs fun pair => relErr pair.1 pair.2 with ⟨maxRel, relComputed⟩
        change maxAbsErr ta.output tb.output = some maxAbs at absComputed
        change maxRelErr ta.output tb.output = some maxRel at relComputed
        have verdict := max_rel_err_exact finiteA (finiteB tb partner) relComputed
        rw [if_neg (not_not.mpr sameLength), absComputed, relComputed]
        refine ⟨_, rfl, ?_⟩
        cases ok : less maxRel relErrThreshold with
        | true =>
            left
            refine ⟨by simp [ParityLoop.record, ParityLoop.print, ok], ?_⟩
            intro other found
            cases found
            exact ⟨sameLength, verdict.mp ok⟩
        | false =>
            right
            refine ⟨by simp [ParityLoop.record, ParityLoop.print, ok], tb, rfl, ?_⟩
            intro agree
            rw [verdict.mpr agree.2] at ok
            cases ok
      · rw [if_pos sameLength]
        refine ⟨_, rfl, Or.inr ⟨rfl, tb, rfl, ?_⟩⟩
        intro agree
        exact sameLength agree.1

theorem compare_tiles_effect (tilesB : TileKey → Option Tile) (tiles : List Tile)
    (loop : ParityLoop) (finiteA : ∀ ta ∈ tiles, ∀ x ∈ ta.output, x.isFinite = true)
    (nonempty : ∀ ta ∈ tiles, ta.output ≠ [])
    (finiteB : ∀ key tb, tilesB key = some tb → ∀ y ∈ tb.output, y.isFinite = true) :
    ∃ after, loop.compareTiles tilesB tiles = some after ∧
      (after.failures = 0 ↔ loop.failures = 0 ∧
        ∀ ta ∈ tiles, ∀ tb, tilesB (tileKey ta) = some tb → TilesAgree ta tb) := by
  induction tiles generalizing loop with
  | nil => exact ⟨loop, rfl, by simp⟩
  | cons ta rest ih =>
      rw [List.forall_mem_cons] at finiteA nonempty
      rcases compare_tile_effect loop finiteA.1 nonempty.1 (finiteB _) with ⟨next, step, outcome⟩
      rcases ih next finiteA.2 nonempty.2 with ⟨after, run, verdict⟩
      refine ⟨after, ?_, ?_⟩
      · rw [ParityLoop.compareTiles, step]
        exact run
      · rw [verdict, List.forall_mem_cons]
        rcases outcome with ⟨same, agree⟩ | ⟨more, tb, found, differ⟩
        · rw [same]
          exact and_congr_right fun _ => (and_iff_right agree).symm
        · constructor
          · intro clean
            omega
          · intro clean
            exact absurd (clean.2.1 tb found) differ

/-! ## The verdict -/

def SameProblem (a b : Dump) : Prop := a.M = b.M ∧ a.N = b.N ∧ a.K = b.K ∧ a.seed = b.seed

/-- The status is 0 exactly when the problems are the same and all tiles that
both dumps have agree. -/
theorem exit_zero_iff {a b : Dump} (exactA : a.Exact) (exactB : b.Exact) :
    exitStatus (main a b) = 0 ↔ SameProblem a b ∧
      ∀ ta ∈ a.tiles, ∀ tb ∈ b.tiles, tileKey tb = tileKey ta → TilesAgree ta tb := by
  have partner := tiles_by_key_iff exactB.distinct
  unfold main
  by_cases same : (a.M, a.N, a.K, a.seed) = (b.M, b.N, b.K, b.seed)
  · have problem : SameProblem a b := by
      simp only [Prod.mk.injEq] at same
      exact same
    rcases compare_tiles_effect (tilesByKey b.tiles) a.tiles {} exactA.finite
      exactA.nonempty (fun key tb found => exactB.finite tb ((partner key tb).mp found).1) with
      ⟨after, run, verdict⟩
    rw [if_neg (not_not.mpr same), run, and_iff_right problem]
    have status : exitStatus (.finished after) = 0 ↔ after.failures = 0 := by
      unfold exitStatus
      by_cases clean : after.failures = 0
      · simp [clean]
      · simp [clean]
    rw [status, verdict]
    simp only [partner, and_imp, true_and]
  · have other : ¬SameProblem a b := by
      intro problem
      apply same
      rw [problem.1, problem.2.1, problem.2.2.1, problem.2.2.2]
    rw [if_pos same]
    exact iff_of_false Nat.one_ne_zero fun agree => other agree.1

/-- Two tiles, listed in different orders. -/
theorem exit_zero_iff_two_tiles :
    let square : Tile := { bm := 16, bn := 16, bk := 16, gflops := .finite 2, output := [.finite 1] }
    let wide : Tile := { bm := 16, bn := 32, bk := 16, gflops := .finite 3, output := [.finite 4] }
    let a : Dump := { M := 1, N := 1, K := 1, seed := 7, tiles := [square, wide] }
    let b : Dump := { M := 1, N := 1, K := 1, seed := 7, tiles := [wide, square] }
    exitStatus (main a b) = 0 ↔ SameProblem a b ∧
      ∀ ta ∈ a.tiles, ∀ tb ∈ b.tiles, tileKey tb = tileKey ta → TilesAgree ta tb :=
  exit_zero_iff ⟨by decide, by decide, by decide⟩ ⟨by decide, by decide, by decide⟩

/-- Two dumps without a common tile pass. -/
theorem disjoint_dumps_pass :
    ¬∀ a b : Dump, a.Exact → b.Exact → (exitStatus (main a b) = 0 ↔ SameProblem a b ∧
      (∀ key, key ∈ a.tiles.map tileKey ↔ key ∈ b.tiles.map tileKey) ∧
      ∀ ta ∈ a.tiles, ∀ tb ∈ b.tiles, tileKey tb = tileKey ta → TilesAgree ta tb) := by
  intro always
  have exact_ := always
    { M := 1, N := 1, K := 1, seed := 7, tiles := [
      { bm := 16, bn := 16, bk := 16, gflops := .finite 2, output := [.finite 1] }] }
    { M := 1, N := 1, K := 1, seed := 7, tiles := [
      { bm := 16, bn := 32, bk := 16, gflops := .finite 3, output := [.finite 4] }] }
    ⟨by decide, by decide, by decide⟩ ⟨by decide, by decide, by decide⟩
  exact absurd ((exact_.mp (by decide)).2.1 (16, 16, 16)) (by decide)

end AmpFormal.ParityCheck
