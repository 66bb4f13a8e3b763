import Mathlib.Logic.Function.Basic

/-!
# Texts with separators

Fields that do not contain the separator can be cut out of a text again, and so can
the items of a list that are each terminated by it. Decimal numbers are such items.
-/

namespace AmpFormal.DelimitedText

set_option autoImplicit false

/-! ## Fields and lists -/

section Fields

variable {Symbol Item : Type*} {separator : Symbol}

/-- The first separator ends the first field. -/
theorem append_separator_injective {left right tail tail' : List Symbol}
    (clean : separator ∉ left) (clean' : separator ∉ right)
    (same : left ++ separator :: tail = right ++ separator :: tail') :
    left = right ∧ tail = tail' := by
  induction left generalizing right with
  | nil =>
      cases right with
      | nil => exact ⟨rfl, (List.cons.inj same).2⟩
      | cons symbol rest =>
          have first : separator = symbol := (List.cons.inj same).1
          exact absurd (List.mem_cons.mpr (.inl first)) clean'
  | cons symbol rest ih =>
      cases right with
      | nil =>
          have first : symbol = separator := (List.cons.inj same).1
          exact absurd (List.mem_cons.mpr (.inl first.symm)) clean
      | cons symbol' rest' =>
          obtain ⟨first, later⟩ := List.cons.inj same
          have cleanRest : separator ∉ rest := fun member => clean (List.mem_cons_of_mem _ member)
          have cleanRest' : separator ∉ rest' := fun member => clean' (List.mem_cons_of_mem _ member)
          obtain ⟨fields, tails⟩ := ih cleanRest cleanRest' later
          exact ⟨by rw [first, fields], tails⟩

def terminated (separator : Symbol) (encode : Item → List Symbol) (items : List Item) :
    List Symbol :=
  items.flatMap fun item => encode item ++ [separator]

theorem terminated_cons (encode : Item → List Symbol) (item : Item) (rest : List Item) :
    terminated separator encode (item :: rest) =
      encode item ++ separator :: terminated separator encode rest := by
  simp [terminated]

theorem terminated_injective {encode : Item → List Symbol} (injective : Function.Injective encode)
    (clean : ∀ item, separator ∉ encode item) :
    Function.Injective (terminated separator encode) := by
  have nonempty : ∀ item rest, terminated separator encode (item :: rest) ≠ [] := by
    intro item rest
    rw [terminated_cons]
    exact List.append_ne_nil_of_right_ne_nil _ (List.cons_ne_nil _ _)
  intro left right same
  induction left generalizing right with
  | nil =>
      cases right with
      | nil => rfl
      | cons item rest => exact absurd same.symm (nonempty item rest)
  | cons item rest ih =>
      cases right with
      | nil => exact absurd same (nonempty item rest)
      | cons item' rest' =>
          rw [terminated_cons, terminated_cons] at same
          obtain ⟨items, tails⟩ := append_separator_injective (clean item) (clean item') same
          rw [injective items, ih tails]

end Fields

/-! ## Decimal numbers -/

theorem nat_repr_injective : Function.Injective Nat.repr := by
  intro left right same
  have digits := congrArg String.toList same
  rw [Nat.toList_repr, Nat.toList_repr] at digits
  have value := congrArg (fun chars => Nat.ofDigitChars 10 chars 0) digits
  simpa only [Nat.ofDigitChars_ten_toDigits] using value

theorem nat_repr_digits {n : Nat} {char : Char} (member : char ∈ n.repr.toList) :
    char.isDigit = true := by
  rw [Nat.toList_repr] at member
  exact Nat.isDigit_of_mem_toDigits (by decide) (by decide) member

theorem int_repr_chars {z : Int} {char : Char} (member : char ∈ z.repr.toList) :
    char = '-' ∨ char.isDigit = true := by
  rw [Int.repr_eq_if] at member
  split at member
  case isTrue => exact .inr (nat_repr_digits member)
  case isFalse =>
    rw [String.toList_append] at member
    obtain sign | digit := List.mem_append.mp member
    · exact .inl (List.mem_singleton.mp sign)
    · exact .inr (nat_repr_digits digit)

theorem int_repr_injective : Function.Injective Int.repr := by
  -- a number without a sign does not begin like one with a sign
  have unsigned : ∀ n m : Nat, n.repr ≠ "-" ++ m.repr := by
    intro n m same
    have chars := congrArg String.toList same
    rw [String.toList_append] at chars
    have member : '-' ∈ n.repr.toList := by
      rw [chars]
      exact List.mem_append_left _ (List.mem_singleton.mpr rfl)
    have digit := nat_repr_digits member
    cases digit
  intro left right same
  rw [Int.repr_eq_if, Int.repr_eq_if] at same
  by_cases positive : 0 ≤ left
  · by_cases positive' : 0 ≤ right
    · rw [if_pos positive, if_pos positive'] at same
      have value := nat_repr_injective same
      omega
    · rw [if_pos positive, if_neg positive'] at same
      exact absurd same (unsigned _ _)
  · by_cases positive' : 0 ≤ right
    · rw [if_neg positive, if_pos positive'] at same
      exact absurd same.symm (unsigned _ _)
    · rw [if_neg positive, if_neg positive'] at same
      have chars := congrArg String.toList same
      rw [String.toList_append, String.toList_append] at chars
      have value := nat_repr_injective (String.toList_inj.mp (List.append_cancel_left chars))
      omega

end AmpFormal.DelimitedText
