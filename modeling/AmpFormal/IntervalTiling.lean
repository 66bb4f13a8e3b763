import Mathlib.Algebra.Order.Ring.Int
import Mathlib.Data.List.Basic

/-!
# Tilings of an integer interval

Half-open intervals `[start, start + length)`, listed in order, that lie end to
end without gap or overlap.
-/

namespace AmpFormal.IntervalTiling

set_option autoImplicit false

/-- The intervals lie end to end from `first` to `last` and none is empty. -/
def Tiles : Int → List (Int × Int) → Int → Prop
  | first, [], last => first = last
  | first, (start, length) :: rest, last =>
      start = first ∧ 0 < length ∧ Tiles (start + length) rest last

/-- Every position from `first` on and before `last` is in some interval. -/
def Covers (intervals : List (Int × Int)) (first last : Int) : Prop :=
  ∀ position, first ≤ position → position < last →
    ∃ interval ∈ intervals, interval.1 ≤ position ∧ position < interval.1 + interval.2

theorem tiles_concat {first middle length : Int} {intervals : List (Int × Int)}
    (tiles : Tiles first intervals middle) (positive : 0 < length) :
    Tiles first (intervals ++ [(middle, length)]) (middle + length) := by
  induction intervals generalizing first with
  | nil => exact ⟨tiles.symm, positive, rfl⟩
  | cons interval rest ih => exact ⟨tiles.1, tiles.2.1, ih tiles.2.2⟩

theorem tiles_le {first last : Int} {intervals : List (Int × Int)}
    (tiles : Tiles first intervals last) : first ≤ last := by
  induction intervals generalizing first with
  | nil => exact le_of_eq tiles
  | cons interval rest ih =>
      have start := tiles.1
      have length := tiles.2.1
      have later := ih tiles.2.2
      omega

theorem tiles_member_bounds {first last : Int} {intervals : List (Int × Int)}
    (tiles : Tiles first intervals last) {interval : Int × Int} (member : interval ∈ intervals) :
    first ≤ interval.1 ∧ interval.1 + interval.2 ≤ last := by
  induction intervals generalizing first with
  | nil => cases member
  | cons head rest ih =>
      have start := tiles.1
      have length := tiles.2.1
      rcases List.mem_cons.mp member with rfl | later
      · have bound := tiles_le tiles.2.2
        omega
      · have bounds := ih tiles.2.2 later
        omega

/-- A tiling covers exactly the interval it tiles. -/
theorem tiles_covers_iff {first reach last : Int} {intervals : List (Int × Int)}
    (tiles : Tiles first intervals reach) : Covers intervals first last ↔ last ≤ reach := by
  constructor
  · intro covers
    by_contra beyond
    rcases covers reach (tiles_le tiles) (by omega) with ⟨interval, member, _, inside⟩
    have bounds := tiles_member_bounds tiles member
    omega
  · intro within position lower upper
    induction intervals generalizing first with
    | nil =>
        have same : first = reach := tiles
        omega
    | cons head rest ih =>
        have start := tiles.1
        by_cases here : position < head.1 + head.2
        · exact ⟨head, by simp, by omega, here⟩
        · rcases ih tiles.2.2 (by omega) with ⟨interval, member, inside⟩
          exact ⟨interval, by simp [member], inside⟩

end AmpFormal.IntervalTiling
