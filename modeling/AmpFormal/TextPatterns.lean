import Mathlib.Data.List.Basic

/-!
# Searching a text for a pattern

A pattern is tried at one place of a text: it is given the symbol before that place
and what follows it. A search takes the first place where the pattern matches; all
matches are those found from left to right, each begun behind the end of the last.
-/

namespace AmpFormal.TextPatterns

set_option autoImplicit false

variable {Symbol Value : Type*}

/-- What is left of the text behind a word that it begins with. -/
def literal [DecidableEq Symbol] : List Symbol → List Symbol → Option (List Symbol)
  | [], text => some text
  | _ :: _, [] => none
  | symbol :: word, first :: text => if symbol = first then literal word text else none

def search (pattern : Option Symbol → List Symbol → Option Value) :
    Option Symbol → List Symbol → Option Value
  | previous, [] => pattern previous []
  | previous, first :: rest =>
      (pattern previous (first :: rest)).or (search pattern (some first) rest)

/-- Every match with what follows it; `skip` symbols still belong to the last one.
A match is not empty. -/
def findAll (pattern : Option Symbol → List Symbol → Option (Value × List Symbol)) :
    ℕ → Option Symbol → List Symbol → List (Value × List Symbol)
  | _, _, [] => []
  | skip + 1, _, first :: rest => findAll pattern skip (some first) rest
  | 0, previous, first :: rest =>
      match pattern previous (first :: rest) with
      | none => findAll pattern 0 (some first) rest
      | some (value, left) =>
          (value, left) :: findAll pattern (rest.length - left.length) (some first) rest

/-! ## Words -/

section Words

variable [DecidableEq Symbol]

theorem literal_cons_ne {symbol first : Symbol} (differs : symbol ≠ first)
    (word text : List Symbol) : literal (symbol :: word) (first :: text) = none := by
  rw [literal, if_neg differs]

end Words

/-! ## Searches -/

variable {pattern : List Symbol → Option Value}

theorem search_of_match {before after : List Symbol} {previous : Option Symbol}
    (found : (pattern after).isSome) :
    (search (fun _ => pattern) previous (before ++ after)).isSome := by
  induction before generalizing previous with
  | nil =>
      cases after with
      | nil => exact found
      | cons first rest =>
          rw [List.nil_append, search, Option.isSome_or, found, Bool.true_or]
  | cons first rest ih =>
      rw [List.cons_append, search, Option.isSome_or, ih, Bool.or_true]

/-- A search passes over symbols that begin no match. -/
theorem search_append_none {before after : List Symbol} {previous : Option Symbol}
    (begins : ∀ symbol ∈ before, ∀ rest, pattern (symbol :: rest) = none)
    (missing : ∀ previous, search (fun _ => pattern) previous after = none) :
    search (fun _ => pattern) previous (before ++ after) = none := by
  induction before generalizing previous with
  | nil => exact missing previous
  | cons first rest ih =>
      have later : ∀ symbol ∈ rest, ∀ text, pattern (symbol :: text) = none :=
        fun symbol member => begins symbol (List.mem_cons_of_mem _ member)
      rw [List.cons_append, search, begins first List.mem_cons_self, Option.none_or]
      exact ih later

theorem search_some {pattern : Option Symbol → List Symbol → Option Value}
    {previous : Option Symbol} {text : List Symbol} {value : Value}
    (found : search pattern previous text = some value) :
    ∃ before after, pattern before after = some value := by
  induction text generalizing previous with
  | nil => exact ⟨previous, [], found⟩
  | cons first rest ih =>
      rw [search, Option.or_eq_some_iff] at found
      obtain here | ⟨-, later⟩ := found
      · exact ⟨previous, first :: rest, here⟩
      · exact ih later

theorem find_all_nil_iff {pattern : Option Symbol → List Symbol → Option (Value × List Symbol)}
    (nonempty : ∀ previous, pattern previous [] = none) (previous : Option Symbol)
    (text : List Symbol) :
    findAll pattern 0 previous text = [] ↔ search pattern previous text = none := by
  induction text generalizing previous with
  | nil => simp [findAll, search, nonempty]
  | cons first rest ih =>
      rw [findAll, search, Option.or_eq_none_iff]
      cases matched : pattern previous (first :: rest) with
      | none => simpa using ih (some first)
      | some found => simp

end AmpFormal.TextPatterns
