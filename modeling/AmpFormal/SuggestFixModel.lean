import AmpFormal.DiagnoseModel
import Mathlib.Data.List.Dedup
import Mathlib.Data.List.Sort

/-!
# The mechanical barrier fix

A transcription of the part of `amp_suggest_fix.py` that inserts missing barriers:
`suggest` for findings on one file, without the rewritten loop bounds and the diff.
A line number that no line has is an `IndexError`.
-/

namespace AmpFormal.SuggestFixModel

open AmpFormal.DiagnoseModel

set_option autoImplicit false

/-- The flagged line numbers, each once and in ascending order. -/
def groupMissingSyncFixes (findings : List Finding) : List ℕ :=
  ((findings.filter fun f => f.patternId = .missingSyncthreads).map Finding.line).dedup.insertionSort
    fun a b => a ≤ b

/-- The barrier, indented like the line it is inserted before. -/
def barrierLine (line : Text) : Text :=
  line.takeWhile isSpace ++ "__syncthreads();".toList

def applyMissingSyncFix (lines : List Text) (lineNo : ℕ) : Option (List Text) :=
  let i := lineNo - 1
  lines[i]?.map fun line => lines.insertIdx i (barrierLine line)

def insertedMessage (lineNo : ℕ) : Text :=
  "line ".toList ++ lineNo.repr.toList ++ ": inserted __syncthreads()".toList

/-- The loop over the flagged lines from the bottom up: the new lines and the fixes applied. -/
def insertBarriers (findings : List Finding) (lines : List Text) :
    Option (List Text × List Text) :=
  ((groupMissingSyncFixes findings).insertionSort fun a b => a ≥ b).foldlM
    (fun (newLines, applied) lineNo =>
      (applyMissingSyncFix newLines lineNo).map fun newLines =>
        (newLines, applied ++ [insertedMessage lineNo]))
    (lines, [])

def joinLines (lines : List Text) : Text :=
  ['\n'].intercalate lines ++ ['\n']

/-- The fixes applied and the new text, if there is one. -/
def suggestBarriers (unicode : Char → Bool) (file text : Text) (tileValues : List (Text × ℤ)) :
    Option (List Text × Option Text) :=
  (insertBarriers (analyzeFile unicode file text tileValues) (splitLines text)).map
    fun (newLines, applied) =>
      (applied, if applied.isEmpty then none else some (joinLines newLines))

end AmpFormal.SuggestFixModel
