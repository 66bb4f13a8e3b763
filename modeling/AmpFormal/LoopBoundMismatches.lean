import AmpFormal.DelimitedText
import AmpFormal.KernelScopes
import Mathlib.Data.List.TakeWhile

/-!
# Mismatched loop bounds

`find_for_loop_bounds` keeps one bound for each variable name of a scope, that of the
last loop over it. An index is reported when this bound differs from the dimension it
addresses, unless it is the name of a thread index; where the last loop over the name
agrees with the loop of the line, the line is judged by its own loop.
-/

namespace AmpFormal.LoopBoundMismatches

open AmpFormal.DiagnoseModel AmpFormal.TextPatterns AmpFormal.PastConditions AmpFormal.BarrierScan
open AmpFormal.KernelScopes AmpFormal.DelimitedText

set_option autoImplicit false

variable {unicode : Char → Bool} {lines : List Text} {lo hi : ℕ}

/-! ## The bound of a variable -/

def LoopAt (unicode : Char → Bool) (lines : List Text) (var bound : Text) (k : ℕ) : Prop :=
  forLoop unicode (lineAt lines k) = some (var, bound)

theorem bounds_succ (begun : lo ≤ hi) :
    findForLoopBounds unicode lines lo (hi + 1) =
      match forLoop unicode (lineAt lines hi) with
      | some (var, bound) =>
          Function.update (findForLoopBounds unicode lines lo hi) var (some bound)
      | none => findForLoopBounds unicode lines lo hi := by
  rw [findForLoopBounds, range_succ begun, List.foldl_append]
  rfl

theorem bounds_self : findForLoopBounds unicode lines lo lo = fun _ => none := by
  rw [findForLoopBounds, range_of_le (Nat.le_refl lo)]
  rfl

/-- The bound kept for a variable is that of the last loop over it. -/
theorem bounds_some_iff (begun : lo ≤ hi) {var bound : Text} :
    findForLoopBounds unicode lines lo hi var = some bound ↔
      Since (LoopAt unicode lines var bound) (fun k => ∀ other, ¬LoopAt unicode lines var other k)
        lo hi := by
  induction hi, begun using Nat.le_induction with
  | base =>
      rw [bounds_self]
      exact iff_of_false (fun found => by cases found) not_since_first
  | succ hi begun ih =>
      rw [bounds_succ begun, since_succ begun, ← ih]
      unfold LoopAt
      cases loop : forLoop unicode (lineAt lines hi) with
      | none => simp
      | some header =>
          obtain ⟨name, symbol⟩ := header
          by_cases same : var = name
          · subst same
            simp
          · simp [Function.update_of_ne same, Ne.symm same]

/-! ## Names in a message -/

def IsName (unicode : Char → Bool) (text : Text) : Prop :=
  ∀ c ∈ text, isWord unicode c = true

theorem name_unquoted {text : Text} (name : IsName unicode text) : '\'' ∉ text := by
  intro member
  cases name _ member

theorem read_word_name {text word rest : Text}
    (found : readWord unicode text = some (word, rest)) : IsName unicode word := by
  rw [readWord] at found
  split at found
  · cases found
  · obtain ⟨rfl, -⟩ := Prod.mk.inj (Option.some.inj found)
    exact fun c member => List.mem_takeWhile_imp member

theorem for_loop_names {line var bound : Text} (loop : forLoop unicode line = some (var, bound)) :
    IsName unicode var ∧ IsName unicode bound := by
  obtain ⟨-, text, here⟩ := search_some loop
  simp only [forLoopAt, Option.bind_eq_bind, Option.bind_eq_some_iff, Option.some.injEq,
    Prod.mk.injEq] at here
  obtain ⟨_, -, _, -, _, -, _, -, ⟨name, _⟩, readName, _, -, _, -, _, -, _, -, ⟨symbol, _⟩,
    readSymbol, rfl, rfl⟩ := here
  exact ⟨read_word_name readName, read_word_name readSymbol⟩

theorem quoted_injective {left right tail tail' mark : Text} (names : IsName unicode left)
    (names' : IsName unicode right)
    (same : left ++ ('\'' :: mark ++ tail) = right ++ ('\'' :: mark ++ tail')) :
    left = right ∧ tail = tail' := by
  obtain ⟨fields, tails⟩ :=
    append_separator_injective (name_unquoted names) (name_unquoted names') same
  exact ⟨fields, List.append_cancel_left tails⟩

theorem dim_mismatch_injective {file : Text} {i i' : ℕ} {line line' : Text}
    {index index' bound bound' name d1 d2 dim dim' : Text}
    (names : IsName unicode index) (names' : IsName unicode index')
    (symbols : IsName unicode bound) (symbols' : IsName unicode bound')
    (same : dimMismatch file i line index bound name d1 d2 dim =
      dimMismatch file i' line' index' bound' name d1 d2 dim') :
    i = i' ∧ index = index' ∧ dim = dim' := by
  have bounded : "' bounded by '".toList = '\'' :: " bounded by '".toList := rfl
  have indexes : "' indexes '".toList = '\'' :: " indexes '".toList := rfl
  have texts := congrArg Finding.extra same
  simp only [dimMismatch, List.append_assoc, List.append_cancel_left_eq, bounded, indexes] at texts
  obtain ⟨sameIndex, texts⟩ := quoted_injective names names' texts
  obtain ⟨-, texts⟩ := quoted_injective symbols symbols' texts
  simp only [List.append_cancel_left_eq] at texts
  exact ⟨Nat.succ.inj (congrArg Finding.line same), sameIndex, List.append_cancel_right texts⟩

/-! ## The verdict on an index -/

/-- An access on line `l` has the index at a dimension of the array. -/
def Addresses (unicode : Char → Bool) (lines : List Text) (decl : SharedDecl) (d2 : Text) (l : ℕ)
    (index dim : Text) : Prop :=
  ∃ idx1 idx2 rest, ((idx1, idx2), rest) ∈ accesses unicode decl.name (lineAt lines l) ∧
    (index = idx1 ∧ dim = decl.d1 ∨ index = idx2 ∧ dim = d2)

/-- The detector, fed with the loop bounds of the scope, reports the index on line `l` for
the dimension it addresses, whatever bound symbol it blames. -/
def ReportsIndex (unicode : Char → Bool) (lines : List Text) (lo hi : ℕ) (decl : SharedDecl)
    (d2 file : Text) (l : ℕ) (index dim : Text) : Prop :=
  ∃ bound, IsName unicode bound ∧
    dimMismatch file l (lineAt lines l) index bound decl.name decl.d1 d2 dim ∈
      detectDimMismatch unicode lines hi decl (findForLoopBounds unicode lines lo hi) file []

theorem mem_detect_dim_mismatch {decl : SharedDecl} {d2 file : Text} (twoDims : decl.d2 = some d2)
    {loopBounds : Text → Option Text} {finding : Finding} :
    finding ∈ detectDimMismatch unicode lines hi decl loopBounds file [] ↔
      ∃ l index dim, decl.line < l ∧ l < hi ∧ Addresses unicode lines decl d2 l index dim ∧
        index ∉ threadIndexVars ∧ ∃ bound, loopBounds index = some bound ∧ bound ≠ dim ∧
          finding = dimMismatch file l (lineAt lines l) index bound decl.name decl.d1 d2 dim := by
  have noTiles : ∀ bound dim : Text, sameTile [] bound dim = false := fun bound dim => rfl
  rw [detectDimMismatch, twoDims]
  constructor
  · intro found
    obtain ⟨l, inRange, inLine⟩ := List.mem_flatMap.mp found
    obtain ⟨⟨⟨idx1, idx2⟩, rest⟩, access, inAccess⟩ := List.mem_flatMap.mp inLine
    obtain ⟨⟨index, dim⟩, pair, checked⟩ := List.mem_flatMap.mp inAccess
    obtain ⟨after, before⟩ := mem_range.mp inRange
    obtain ⟨other, bound, looked, differs, -, rfl⟩ := mem_check_index.mp checked
    refine ⟨l, index, dim, after, before, ⟨idx1, idx2, rest, access, ?_⟩, other, bound, looked,
      differs, rfl⟩
    simpa using pair
  · rintro ⟨l, index, dim, after, before, ⟨idx1, idx2, rest, access, pair⟩, other, bound, looked,
      differs, rfl⟩
    refine List.mem_flatMap.mpr ⟨l, mem_range.mpr ⟨after, before⟩, List.mem_flatMap.mpr
      ⟨((idx1, idx2), rest), access, List.mem_flatMap.mpr ⟨(index, dim), by simpa using pair, ?_⟩⟩⟩
    exact mem_check_index.mpr ⟨other, bound, looked, differs, noTiles bound dim, rfl⟩

theorem bounds_names (begun : lo ≤ hi) {var bound : Text}
    (looked : findForLoopBounds unicode lines lo hi var = some bound) :
    IsName unicode var ∧ IsName unicode bound := by
  obtain ⟨k, -, -, loop, -⟩ := (bounds_some_iff begun).mp looked
  exact for_loop_names loop

theorem reports_index_iff (begun : lo ≤ hi) {decl : SharedDecl} {d2 file : Text}
    (twoDims : decl.d2 = some d2) {l : ℕ} {index dim : Text} (name : IsName unicode index)
    (access : Addresses unicode lines decl d2 l index dim) :
    ReportsIndex unicode lines lo hi decl d2 file l index dim ↔
      decl.line < l ∧ l < hi ∧ index ∉ threadIndexVars ∧
        ∃ bound, findForLoopBounds unicode lines lo hi index = some bound ∧ bound ≠ dim := by
  constructor
  · rintro ⟨bound, symbol, found⟩
    obtain ⟨l', index', dim', after, before, -, other, bound', looked, differs, same⟩ :=
      (mem_detect_dim_mismatch twoDims).mp found
    obtain ⟨name', symbol'⟩ := bounds_names begun looked
    obtain ⟨rfl, rfl, rfl⟩ := dim_mismatch_injective name name' symbol symbol' same
    exact ⟨after, before, other, bound', looked, differs⟩
  · rintro ⟨after, before, other, bound, looked, differs⟩
    refine ⟨bound, (bounds_names begun looked).2, (mem_detect_dim_mismatch twoDims).mpr ?_⟩
    exact ⟨l, index, dim, after, before, access, other, bound, looked, differs, rfl⟩

/-- The last loop over the variable on a line behind `l`, if there is one, has the bound. -/
def LaterLoopsAgree (unicode : Char → Bool) (lines : List Text) (hi l : ℕ) (var bound : Text) :
    Prop :=
  ∀ k other, l < k → k < hi → LoopAt unicode lines var other k →
    (∀ m, k < m → m < hi → ∀ symbol, ¬LoopAt unicode lines var symbol m) → other = bound

theorem bounds_of_loop {l : ℕ} {var bound : Text} (after : lo ≤ l) (before : l < hi)
    (loop : LoopAt unicode lines var bound l)
    (agree : LaterLoopsAgree unicode lines hi l var bound) :
    findForLoopBounds unicode lines lo hi var = some bound := by
  have begun : lo ≤ hi := Nat.le_trans after (Nat.le_of_lt before)
  -- some loop over the variable is the last one
  have happened : ∃ j, lo ≤ j ∧ j < hi ∧ ∃ symbol, LoopAt unicode lines var symbol j :=
    ⟨l, after, before, bound, loop⟩
  obtain ⟨k, reached, inside, ⟨last, lastLoop⟩, behind⟩ := since_last begun happened
  have none : ∀ m, k < m → m < hi → ∀ symbol, ¬LoopAt unicode lines var symbol m :=
    fun m later sooner symbol other => behind m later sooner ⟨symbol, other⟩
  have looked := (bounds_some_iff begun).mpr ⟨k, reached, inside, lastLoop, none⟩
  obtain sooner | rfl | later := Nat.lt_trichotomy k l
  · exact absurd loop (none l sooner before bound)
  · have same : (var, last) = (var, bound) := Option.some.inj (lastLoop.symm.trans loop)
    rw [looked, (Prod.mk.inj same).2]
  · rw [looked, agree k last later inside lastLoop none]

/-- An index that is the variable of the loop on its line is reported when the bound of this
loop differs from the dimension, if no later loop over the name brings another bound; the
name of a thread index is never reported, nor is an access up to the declaration. -/
theorem own_loop_mismatch (unicode : Char → Bool) (lines : List Text) (lo hi : ℕ)
    (decl : SharedDecl) (d2 file : Text) (twoDims : decl.d2 = some d2) (l : ℕ) (after : lo ≤ l)
    (before : l < hi) (index bound dim : Text)
    (loop : forLoop unicode (lineAt lines l) = some (index, bound))
    (access : Addresses unicode lines decl d2 l index dim) :
    (index ∈ threadIndexVars ∨ l ≤ decl.line →
      ¬ReportsIndex unicode lines lo hi decl d2 file l index dim) ∧
    (index ∉ threadIndexVars → decl.line < l →
      LaterLoopsAgree unicode lines hi l index bound →
      (ReportsIndex unicode lines lo hi decl d2 file l index dim ↔ bound ≠ dim)) := by
  have begun : lo ≤ hi := Nat.le_trans after (Nat.le_of_lt before)
  rw [reports_index_iff begun twoDims (for_loop_names loop).1 access]
  constructor
  · rintro (thread | early) ⟨behind, -, other, -⟩
    · exact other thread
    · omega
  · intro other behind agree
    have looked := bounds_of_loop after before loop agree
    constructor
    · rintro ⟨-, -, -, kept, found, differs⟩
      have same : kept = bound := Option.some.inj (found.symm.trans looked)
      rwa [same] at differs
    · intro differs
      exact ⟨behind, before, other, bound, looked, differs⟩

def declLine : Text :=
  "__shared__ float sA[BM][BK];".toList

def tileDecl : SharedDecl :=
  { name := "sA".toList, d1 := "BM".toList, d2 := some "BK".toList, line := 0 }

/-- The fixture's loop over the wrong bound is reported. -/
theorem own_loop_mismatch_fixture :
    ReportsIndex (fun _ => false)
      [declLine, "for (int k = 0; k < BN; ++k) acc += sA[ty][k];".toList] 0 2 tileDecl "BK".toList []
      1 "k".toList "BK".toList := by
  have access : Addresses (fun _ => false)
      [declLine, "for (int k = 0; k < BN; ++k) acc += sA[ty][k];".toList] tileDecl "BK".toList 1
      "k".toList "BK".toList :=
    ⟨"ty".toList, "k".toList, ";".toList, by decide, .inr ⟨rfl, rfl⟩⟩
  refine ((own_loop_mismatch (fun _ => false) _ 0 2 tileDecl "BK".toList [] rfl 1 (by decide)
    (by decide) "k".toList "BN".toList "BK".toList (by decide) access).2 (by decide) (by decide)
    ?_).mpr (by decide)
  intro k other later inside
  omega

/-- A loop whose variable has the name of a thread index, over a bound that is not the
dimension. -/
def rowLines : List Text :=
  [declLine, "for (int row = 0; row < BN; ++row) sA[row][tx] = 0;".toList]

/-- A loop over the right bound, and one that uses its variable's name again. -/
def reuseLines : List Text :=
  [declLine, "for (int k = 0; k < BK; ++k) acc += sA[ty][k];".toList,
    "for (int k = 0; k < BN; ++k) out[k] = acc;".toList]

/-- The first scope has a mismatch that is not reported, the second a report without one. -/
theorem loops_not_judged_alone :
    (tileDecl ∈ findSharedDecls (fun _ => false) rowLines 0 2 ∧
      forLoop (fun _ => false) (lineAt rowLines 1) = some ("row".toList, "BN".toList) ∧
      Addresses (fun _ => false) rowLines tileDecl "BK".toList 1 "row".toList "BM".toList ∧
      ¬(ReportsIndex (fun _ => false) rowLines 0 2 tileDecl "BK".toList [] 1 "row".toList
          "BM".toList ↔
        "BN".toList ≠ "BM".toList)) ∧
    (tileDecl ∈ findSharedDecls (fun _ => false) reuseLines 0 3 ∧
      forLoop (fun _ => false) (lineAt reuseLines 1) = some ("k".toList, "BK".toList) ∧
      Addresses (fun _ => false) reuseLines tileDecl "BK".toList 1 "k".toList "BK".toList ∧
      ¬(ReportsIndex (fun _ => false) reuseLines 0 3 tileDecl "BK".toList [] 1 "k".toList
          "BK".toList ↔
        "BK".toList ≠ "BK".toList)) := by
  have rowAccess : Addresses (fun _ => false) rowLines tileDecl "BK".toList 1 "row".toList
      "BM".toList :=
    ⟨"row".toList, "tx".toList, " = 0;".toList, by decide, .inl ⟨rfl, rfl⟩⟩
  have reuseAccess : Addresses (fun _ => false) reuseLines tileDecl "BK".toList 1 "k".toList
      "BK".toList :=
    ⟨"ty".toList, "k".toList, ";".toList, by decide, .inr ⟨rfl, rfl⟩⟩
  have rowLoop : forLoop (fun _ => false) (lineAt rowLines 1) =
      some ("row".toList, "BN".toList) := by decide
  have reuseLoop : forLoop (fun _ => false) (lineAt reuseLines 1) =
      some ("k".toList, "BK".toList) := by decide
  refine ⟨⟨by decide, rowLoop, rowAccess, fun judged => ?_⟩,
    ⟨by decide, reuseLoop, reuseAccess, fun judged => ?_⟩⟩
  · have reported := (reports_index_iff (by decide) rfl (for_loop_names rowLoop).1 rowAccess).mp
      (judged.mpr (by decide))
    exact reported.2.2.1 (by decide)
  · have kept : findForLoopBounds (fun _ => false) reuseLines 0 3 "k".toList =
        some "BN".toList := by decide
    exact judged.mp ((reports_index_iff (by decide) rfl (for_loop_names reuseLoop).1
      reuseAccess).mpr ⟨by decide, by decide, by decide, "BN".toList, kept, by decide⟩) rfl

end AmpFormal.LoopBoundMismatches
