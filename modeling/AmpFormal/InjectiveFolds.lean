import Mathlib.Logic.Function.Basic

/-!
# Folds that tell lists apart

A fold whose step is injective in the state keeps different states different, and
when the step is injective in the item as well, the result depends on every single
item.
-/

namespace AmpFormal.InjectiveFolds

set_option autoImplicit false

variable {State Item : Type*} {step : State → Item → State}

theorem foldl_injective (states : ∀ item, Function.Injective fun state => step state item)
    (items : List Item) : Function.Injective fun state => items.foldl step state := by
  induction items with
  | nil => exact fun left right same => same
  | cons item rest ih =>
      intro left right same
      exact states item (ih same)

theorem foldl_set_ne (states : ∀ item, Function.Injective fun state => step state item)
    (items : ∀ state, Function.Injective (step state)) (list : List Item) (start : State)
    (position : Nat) (inside : position < list.length) {item : Item}
    (different : item ≠ list[position]) :
    (list.set position item).foldl step start ≠ list.foldl step start := by
  induction list generalizing position start with
  | nil => exact absurd inside (Nat.not_lt_zero _)
  | cons first rest ih =>
      cases position with
      | zero =>
          intro same
          have entered : step start item = step start first := foldl_injective states rest same
          exact different (items start entered)
      | succ position =>
          have inRest : position < rest.length := by
            simpa using inside
          have changed : item ≠ rest[position] := by
            simpa using different
          exact ih (step start first) position inRest changed

end AmpFormal.InjectiveFolds
