import Mathlib.Order.Basic
import Mathlib.Data.List.Basic
import Mathlib.Order.Lattice

/-!
# The first maximum of a list

The index of the first greatest element, once as a specification and once as
the left-to-right scan that keeps the best index seen so far.
-/

namespace AmpFormal.FirstMaximum

set_option autoImplicit false

variable {Value : Type*} [LinearOrder Value]

/-- The first index whose value is not exceeded by any other. -/
def argmax (values : List Value) : Nat :=
  values.findIdx fun value => values.all (· ≤ value)

/-- The scan of the remaining values from `index` on, `best` being the first
maximum so far. -/
def scanMaximum (best : Value) (bestIndex : Nat) : List Value → Nat → Nat
  | [], _ => bestIndex
  | value :: rest, index =>
      if best < value then scanMaximum value index rest (index + 1)
      else scanMaximum best bestIndex rest (index + 1)

def maxElement : List Value → Nat
  | [] => 0
  | value :: rest => scanMaximum value 0 rest 1

/-- A value that no value exceeds and that exceeds all values before it. -/
def IsFirstMaximum (values : List Value) (index : Nat) : Prop :=
  ∃ best, values[index]? = some best ∧ (∀ value ∈ values, value ≤ best) ∧
    ∀ earlier, earlier < index → ∀ value, values[earlier]? = some value → value < best

theorem argmax_eq_of_first {values : List Value} {index : Nat}
    (first : IsFirstMaximum values index) : argmax values = index := by
  obtain ⟨best, here, greatest, strict⟩ := first
  obtain ⟨inside, value⟩ := List.getElem?_eq_some_iff.mp here
  unfold argmax
  rw [List.findIdx_eq inside]
  constructor
  · rw [value]
    simpa using greatest
  · intro earlier before
    have outside : earlier < values.length := by omega
    have smaller := strict earlier before _ (List.getElem?_eq_getElem outside)
    rw [← Bool.not_eq_true]
    intro accepted
    rw [List.all_eq_true] at accepted
    have bound := of_decide_eq_true (accepted best (List.mem_of_getElem? here))
    exact absurd smaller (not_lt.mpr bound)

theorem first_maximum_snoc {scanned : List Value} {bestIndex : Nat} {best : Value}
    (first : IsFirstMaximum scanned bestIndex) (here : scanned[bestIndex]? = some best)
    (value : Value) :
    IsFirstMaximum (scanned ++ [value])
      (if best < value then scanned.length else bestIndex) := by
  obtain ⟨same, found, greatest, strict⟩ := first
  rw [here, Option.some.injEq] at found
  subst found
  have inside : bestIndex < scanned.length := (List.getElem?_eq_some_iff.mp here).1
  split
  case isTrue greater =>
    refine ⟨value, List.getElem?_concat_length, ?_, ?_⟩
    · intro other member
      rcases List.mem_append.mp member with old | new
      · exact (greatest other old).trans greater.le
      · rw [List.mem_singleton.mp new]
    · intro earlier before other at_earlier
      rw [List.getElem?_append_left before] at at_earlier
      exact (greatest other (List.mem_of_getElem? at_earlier)).trans_lt greater
  case isFalse notGreater =>
    refine ⟨best, by rw [List.getElem?_append_left inside, here], ?_, ?_⟩
    · intro other member
      rcases List.mem_append.mp member with old | new
      · exact greatest other old
      · rw [List.mem_singleton.mp new]
        exact not_lt.mp notGreater
    · intro earlier before other at_earlier
      rw [List.getElem?_append_left (Nat.lt_trans before inside)] at at_earlier
      exact strict earlier before other at_earlier

theorem scan_maximum_first (rest scanned : List Value) {bestIndex : Nat} {best : Value}
    (first : IsFirstMaximum scanned bestIndex) (here : scanned[bestIndex]? = some best) :
    IsFirstMaximum (scanned ++ rest) (scanMaximum best bestIndex rest scanned.length) := by
  induction rest generalizing scanned bestIndex best with
  | nil =>
      rw [List.append_nil]
      exact first
  | cons value rest ih =>
      have inside : bestIndex < scanned.length := (List.getElem?_eq_some_iff.mp here).1
      have extended := first_maximum_snoc first here value
      have length : (scanned ++ [value]).length = scanned.length + 1 := by simp
      have whole : scanned ++ value :: rest = (scanned ++ [value]) ++ rest := by simp
      unfold scanMaximum
      rw [whole, ← length]
      split
      case isTrue greater =>
        rw [if_pos greater] at extended
        exact ih _ extended List.getElem?_concat_length
      case isFalse notGreater =>
        rw [if_neg notGreater] at extended
        exact ih _ extended (by rw [List.getElem?_append_left inside, here])

theorem max_element_first {values : List Value} (nonempty : values ≠ []) :
    IsFirstMaximum values (maxElement values) := by
  cases values with
  | nil => exact absurd rfl nonempty
  | cons value rest =>
      have start : IsFirstMaximum [value] 0 := by
        refine ⟨value, rfl, fun other member => ?_, fun earlier before => ?_⟩
        · rw [List.mem_singleton.mp member]
        · omega
      exact scan_maximum_first rest [value] start rfl

/-- The scan finds the first maximum. -/
theorem max_element_eq_argmax {values : List Value} (nonempty : values ≠ []) :
    maxElement values = argmax values :=
  (argmax_eq_of_first (max_element_first nonempty)).symm

theorem max_element_lt {values : List Value} (nonempty : values ≠ []) :
    maxElement values < values.length := by
  obtain ⟨best, here, -, -⟩ := max_element_first nonempty
  exact (List.getElem?_eq_some_iff.mp here).1

end AmpFormal.FirstMaximum
