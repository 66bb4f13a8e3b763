import Mathlib.Data.List.MinMax
import Mathlib.Order.Basic

/-!
# Selecting a minimum by dropping items

Items are compared by a score, lower being better. A selection narrows a list when
it adds nothing and keeps an item that was a minimum before. Narrowing composes, so
a minimum of what is left at the end is a minimum of what was there at the start,
however ties were broken on the way.
-/

namespace AmpFormal.MinimumSelection

set_option autoImplicit false

variable {Item Score : Type*} [LinearOrder Score] {score : Item → Score}

/-- A member that no member scores below. -/
structure IsMinimum (score : Item → Score) (items : List Item) (best : Item) : Prop where
  member : best ∈ items
  least : ∀ item ∈ items, score best ≤ score item

structure Narrows (score : Item → Score) (before after : List Item) : Prop where
  subset : after ⊆ before
  keeps : ∃ best ∈ after, IsMinimum score before best

variable {before between after items : List Item} {best other : Item}

theorem minimum_score_unique (first : IsMinimum score items best)
    (second : IsMinimum score items other) : score best = score other :=
  le_antisymm (first.least other second.member) (second.least best first.member)

theorem minimum_singleton (item : Item) : IsMinimum score [item] item := by
  refine ⟨List.mem_singleton_self item, fun other member => ?_⟩
  rw [List.mem_singleton.mp member]

theorem minimum_replaced {item : Item} (minimum : IsMinimum score items best)
    (lower : score item ≤ score best) : IsMinimum score (items ++ [item]) item := by
  refine ⟨List.mem_append_right items (List.mem_singleton_self item), fun other member => ?_⟩
  rcases List.mem_append.mp member with earlier | last
  · exact lower.trans (minimum.least other earlier)
  · rw [List.mem_singleton.mp last]

theorem minimum_kept {item : Item} (minimum : IsMinimum score items best)
    (lower : score best ≤ score item) : IsMinimum score (items ++ [item]) best := by
  refine ⟨List.mem_append_left [item] minimum.member, fun other member => ?_⟩
  rcases List.mem_append.mp member with earlier | last
  · exact minimum.least other earlier
  · rw [List.mem_singleton.mp last]
    exact lower

/-- A minimum of what is left is a minimum of what was there. -/
theorem narrows_minimum (narrowed : Narrows score before after)
    (minimum : IsMinimum score after best) : IsMinimum score before best := by
  obtain ⟨kept, member, least⟩ := narrowed.keeps
  refine ⟨narrowed.subset minimum.member, fun item inside => ?_⟩
  exact (minimum.least kept member).trans (least.least item inside)

theorem narrows_trans (first : Narrows score before between)
    (second : Narrows score between after) : Narrows score before after := by
  obtain ⟨kept, member, least⟩ := second.keeps
  exact ⟨fun item inside => first.subset (second.subset inside), kept, member,
    narrows_minimum first least⟩

theorem exists_minimum (score : Item → Score) (nonempty : items ≠ []) :
    ∃ best, IsMinimum score items best := by
  cases found : items.argmin score with
  | none => exact absurd (List.argmin_eq_none.mp found) nonempty
  | some best =>
      exact ⟨best, List.argmin_mem found, fun item member => List.le_of_mem_argmin member found⟩

theorem narrows_refl (nonempty : items ≠ []) : Narrows score items items := by
  obtain ⟨best, minimum⟩ := exists_minimum score nonempty
  exact ⟨List.Subset.refl items, best, minimum.member, minimum⟩

theorem narrows_singleton (narrowed : Narrows score before [best]) :
    IsMinimum score before best := by
  obtain ⟨kept, member, minimum⟩ := narrowed.keeps
  rw [List.mem_singleton.mp member] at minimum
  exact minimum

theorem narrows_take {sorted : List Item} (permuted : sorted.Perm items)
    (ordered : sorted.Pairwise fun a b => score a ≤ score b) (nonempty : items ≠ []) {keep : ℕ}
    (positive : 0 < keep) : Narrows score items (sorted.take keep) := by
  cases sorted with
  | nil => exact absurd permuted.nil_eq.symm nonempty
  | cons first rest =>
      have least : ∀ item ∈ items, score first ≤ score item := by
        intro item member
        rcases List.mem_cons.mp (permuted.mem_iff.mpr member) with rfl | tail
        · exact le_refl _
        · exact List.rel_of_pairwise_cons ordered tail
      obtain ⟨count, rfl⟩ := Nat.exists_eq_add_of_le' positive
      refine ⟨fun item inside => ?_, first, ?_, ?_, least⟩
      · exact permuted.mem_iff.mp (List.mem_of_mem_take inside)
      · rw [List.take_succ_cons]
        exact List.mem_cons_self
      · exact permuted.mem_iff.mp List.mem_cons_self

end AmpFormal.MinimumSelection
