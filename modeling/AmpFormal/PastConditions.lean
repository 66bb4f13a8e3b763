import Mathlib.Data.Nat.Init
import Mathlib.Order.Defs.LinearOrder
import Mathlib.Tactic.Common

/-!
# Conditions on the past of a trace

Positions of a trace are numbers from `first` on. `Since` says that one condition
held at some earlier position and another at every position from there to now;
`SinceSeen` says besides that a third held at one of these. Both are known at the
next position from what they are now.
-/

namespace AmpFormal.PastConditions

set_option autoImplicit false

variable {starts holds seen : ℕ → Prop} {first now : ℕ}

def Since (starts holds : ℕ → Prop) (first now : ℕ) : Prop :=
  ∃ j, first ≤ j ∧ j < now ∧ starts j ∧ ∀ k, j < k → k < now → holds k

def SinceSeen (starts holds seen : ℕ → Prop) (first now : ℕ) : Prop :=
  ∃ j, first ≤ j ∧ j < now ∧ starts j ∧ (∀ k, j < k → k < now → holds k) ∧
    ∃ r, j < r ∧ r < now ∧ seen r

theorem not_exists_before (ended : now ≤ first) : ¬∃ j, first ≤ j ∧ j < now ∧ seen j := by
  rintro ⟨j, after, before, -⟩
  omega

theorem not_since_first : ¬Since starts holds first first := by
  rintro ⟨j, after, before, -⟩
  omega

theorem not_since_seen_first : ¬SinceSeen starts holds seen first first := by
  rintro ⟨j, after, before, -⟩
  omega

theorem exists_before_succ (begun : first ≤ now) :
    (∃ j, first ≤ j ∧ j < now + 1 ∧ seen j) ↔ (∃ j, first ≤ j ∧ j < now ∧ seen j) ∨ seen now := by
  constructor
  · rintro ⟨j, after, before, found⟩
    obtain earlier | rfl := Nat.lt_succ_iff_lt_or_eq.mp before
    · exact .inl ⟨j, after, earlier, found⟩
    · exact .inr found
  · rintro (⟨j, after, before, found⟩ | found)
    · exact ⟨j, after, Nat.lt_succ_of_lt before, found⟩
    · exact ⟨now, begun, Nat.lt_succ_self now, found⟩

theorem since_succ (begun : first ≤ now) :
    Since starts holds first (now + 1) ↔ starts now ∨ holds now ∧ Since starts holds first now := by
  constructor
  · rintro ⟨j, after, before, start, kept⟩
    obtain earlier | rfl := Nat.lt_succ_iff_lt_or_eq.mp before
    · exact .inr ⟨kept now earlier (Nat.lt_succ_self now), j, after, earlier, start,
        fun k later sooner => kept k later (Nat.lt_succ_of_lt sooner)⟩
    · exact .inl start
  · rintro (start | ⟨last, j, after, before, start, kept⟩)
    · exact ⟨now, begun, Nat.lt_succ_self now, start, fun k later sooner => by omega⟩
    · refine ⟨j, after, Nat.lt_succ_of_lt before, start, fun k later sooner => ?_⟩
      obtain earlier | rfl := Nat.lt_succ_iff_lt_or_eq.mp sooner
      · exact kept k later earlier
      · exact last

theorem since_last (begun : first ≤ now) (happened : ∃ j, first ≤ j ∧ j < now ∧ starts j) :
    Since starts (fun k => ¬starts k) first now := by
  induction now, begun using Nat.le_induction with
  | base => exact absurd happened (not_exists_before (Nat.le_refl first))
  | succ now begun ih =>
      rw [since_succ begun]
      by_cases last : starts now
      · exact .inl last
      · obtain earlier | here := (exists_before_succ begun).mp happened
        · exact .inr ⟨last, ih earlier⟩
        · exact absurd here last

theorem since_seen_succ :
    SinceSeen starts holds seen first (now + 1) ↔
      holds now ∧
        (SinceSeen starts holds seen first now ∨ seen now ∧ Since starts holds first now) := by
  constructor
  · rintro ⟨j, after, before, start, kept, r, later, sooner, witnessed⟩
    have earlier : j < now := by omega
    have past : ∀ k, j < k → k < now → holds k :=
      fun k later sooner => kept k later (Nat.lt_succ_of_lt sooner)
    refine ⟨kept now earlier (Nat.lt_succ_self now), ?_⟩
    obtain inside | rfl := Nat.lt_succ_iff_lt_or_eq.mp sooner
    · exact .inl ⟨j, after, earlier, start, past, r, later, inside, witnessed⟩
    · exact .inr ⟨witnessed, j, after, earlier, start, past⟩
  · have extend : ∀ j, holds now → (∀ k, j < k → k < now → holds k) →
        ∀ k, j < k → k < now + 1 → holds k := by
      intro j last kept k later sooner
      obtain earlier | rfl := Nat.lt_succ_iff_lt_or_eq.mp sooner
      · exact kept k later earlier
      · exact last
    rintro ⟨last, ⟨j, after, before, start, kept, r, later, sooner, witnessed⟩ |
      ⟨witnessed, j, after, before, start, kept⟩⟩
    · exact ⟨j, after, Nat.lt_succ_of_lt before, start, extend j last kept, r, later,
        Nat.lt_succ_of_lt sooner, witnessed⟩
    · exact ⟨j, after, Nat.lt_succ_of_lt before, start, extend j last kept, now, before,
        Nat.lt_succ_self now, witnessed⟩

end AmpFormal.PastConditions
