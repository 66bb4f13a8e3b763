import AmpFormal.TextPatterns
import Mathlib.Data.Int.Notation
import Mathlib.Data.List.Basic
import Mathlib.Logic.Function.Basic

/-!
# The static diagnosis of kernels

A transcription of `amp_diagnose.py`. Texts are lists of characters. Each regular
expression is a function that tries it at one place of a line; where the engine would
give up characters and try again, only the first attempt can succeed, except in
`SHARED_DECL_RE`. `unicode` stands for the letters and digits beyond ASCII that `\w`
accepts. A dictionary of tile values is a list of pairs; the empty list is `None`.
-/

namespace AmpFormal.DiagnoseModel

open AmpFormal.TextPatterns

set_option autoImplicit false

abbrev Text := List Char

variable (unicode : Char → Bool)

/-! ## Characters and lines -/

def isSpace (c : Char) : Bool :=
  [9, 10, 11, 12, 13, 28, 29, 30, 31, 32, 133, 160, 5760, 8192, 8193, 8194, 8195, 8196, 8197, 8198,
    8199, 8200, 8201, 8202, 8232, 8233, 8239, 8287, 12288].contains c.toNat

def isWord (c : Char) : Bool :=
  if c.toNat < 128 then c.isAlphanum || c == '_' else unicode c

def isLineBreak (c : Char) : Bool :=
  [10, 11, 12, 13, 28, 29, 30, 133, 8232, 8233].contains c.toNat

def splitLinesFrom : Text → Text → List Text
  | current, [] => if current.isEmpty then [] else [current]
  | current, '\r' :: '\n' :: rest => current :: splitLinesFrom [] rest
  | current, c :: rest =>
      if isLineBreak c then current :: splitLinesFrom [] rest
      else splitLinesFrom (current ++ [c]) rest

def splitLines (text : Text) : List Text :=
  splitLinesFrom [] text

def skipSpaces (text : Text) : Text :=
  text.dropWhile isSpace

/-- `\s+` before something that begins with no space. -/
def skipSomeSpaces : Text → Option Text
  | [] => none
  | c :: rest => if isSpace c then some (skipSpaces rest) else none

def strip (text : Text) : Text :=
  (skipSpaces (skipSpaces text).reverse).reverse

/-- `\w+` before something that begins with no word character. -/
def readWord (text : Text) : Option (Text × Text) :=
  if (text.takeWhile (isWord unicode)).isEmpty then none
  else some (text.takeWhile (isWord unicode), text.dropWhile (isWord unicode))

/-- Cuts off a trailing `//` comment. -/
def stripLineComment : Text → Text
  | [] => []
  | '/' :: '/' :: _ => []
  | c :: rest => c :: stripLineComment rest

/-! ## The regular expressions -/

def callAt (name text : Text) : Option Text := do
  let rest ← literal name text
  let rest ← literal "(".toList (skipSpaces rest)
  literal ")".toList (skipSpaces rest)

/-- `SYNC_RE` -/
def syncAt (text : Text) : Option Text :=
  (callAt "__syncthreads".toList text).or (callAt "__syncwarp".toList text)

def hasSync (line : Text) : Bool :=
  (search (fun _ => syncAt) none line).isSome

/-- `KERNEL_START_RE` -/
def startsKernel (line : Text) : Bool :=
  (search (fun _ => literal "__global__".toList) none line).isSome

/-- `\[\s*(\w+)\s*\]` -/
def dimensionAt (text : Text) : Option (Text × Text) := do
  let rest ← literal "[".toList text
  let (dim, rest) ← readWord unicode (skipSpaces rest)
  let rest ← literal "]".toList (skipSpaces rest)
  some (dim, rest)

/-- `SHARED_DECL_RE` behind the type: the name and one or two dimensions. -/
def declNameAt (text : Text) : Option (Text × Text × Option Text) := do
  let rest ← skipSomeSpaces text
  let (name, rest) ← readWord unicode rest
  let (d1, rest) ← dimensionAt unicode (skipSpaces rest)
  some (name, d1, (dimensionAt unicode (skipSpaces rest)).map Prod.fst)

/-- A character of `[\w:&<>\*\s]`. -/
def isTypeChar (c : Char) : Bool :=
  isWord unicode c || ":&<>*".toList.contains c || isSpace c

/-- The lazy repetition of the type's characters: it takes as few as it can. -/
def declTypeAt : Text → Option (Text × Text × Option Text)
  | [] => none
  | c :: rest =>
      (declNameAt unicode (c :: rest)).or
        (if isTypeChar unicode c then declTypeAt rest else none)

/-- The spaces behind `__shared__`: as many as possible, so that a type can follow. -/
def declSpacesAt : Text → Option (Text × Text × Option Text)
  | [] => none
  | c :: rest =>
      if isSpace c then
        (declSpacesAt rest).or
          (match rest with
          | [] => none
          | first :: rest => if isTypeChar unicode first then declTypeAt unicode rest else none)
      else none

/-- `SHARED_DECL_RE` -/
def sharedDeclAt (text : Text) : Option (Text × Text × Option Text) := do
  let rest ← literal "__shared__".toList text
  declSpacesAt unicode rest

/-- `[^;]+;` -/
def skipInitializer (text : Text) : Option Text :=
  if (text.takeWhile fun c => c != ';').isEmpty then none
  else literal ";".toList (text.dropWhile fun c => c != ';')

/-- `FOR_LOOP_RE`: the variable and the bound symbol. -/
def forLoopAt (text : Text) : Option (Text × Text) := do
  let rest ← literal "for".toList text
  let rest ← literal "(".toList (skipSpaces rest)
  let rest ← literal "int".toList (skipSpaces rest)
  let rest ← skipSomeSpaces rest
  let (var, rest) ← readWord unicode rest
  let rest ← literal "=".toList (skipSpaces rest)
  let rest ← skipInitializer rest
  let rest ← literal var (skipSpaces rest)
  let rest ← literal "<".toList (skipSpaces rest)
  let (bound, _) ← readWord unicode (skipSpaces rest)
  some (var, bound)

/-- The loop header that `FOR_LOOP_RE` finds on a line. -/
def forLoop (line : Text) : Option (Text × Text) :=
  search (fun _ => forLoopAt unicode) none line

/-- `\b` -/
def wordBoundary (previous : Option Char) (text : Text) : Bool :=
  previous.any (isWord unicode) != text.head?.any (isWord unicode)

/-- `\[\s*([^\]]+?)\s*\]`, the index without the spaces around it. -/
def subscriptAt (text : Text) : Option (Text × Text) := do
  let rest ← literal "[".toList text
  let index := rest.takeWhile fun c => c != ']'
  let rest ← literal "]".toList (rest.dropWhile fun c => c != ']')
  if index.isEmpty then none else some (strip index, rest)

/-- `ACCESS_RE_TMPL` for a name: the two indices. -/
def accessAt (name : Text) (previous : Option Char) (text : Text) :
    Option ((Text × Text) × Text) :=
  if wordBoundary unicode previous text then do
    let rest ← literal name text
    let (idx1, rest) ← subscriptAt (skipSpaces rest)
    let (idx2, rest) ← subscriptAt (skipSpaces rest)
    some ((idx1, idx2), rest)
  else none

/-- The matches of `ACCESS_RE_TMPL` on a line, each with the text behind it. -/
def accesses (name line : Text) : List ((Text × Text) × Text) :=
  findAll (accessAt unicode name) 0 none line

/-! ## Findings -/

inductive PatternId where
  | sharedMemDimMismatch
  | missingSyncthreads
  | loopCarriedOverwrite
  | bankConflictStride
  | tileTooLargeForBlock
  deriving DecidableEq, Repr

structure Finding where
  file : Text
  line : ℕ
  patternId : PatternId
  code : Text
  extra : Text
  deriving DecidableEq, Repr

/-! ## What a scope declares -/

structure SharedDecl where
  name : Text
  d1 : Text
  d2 : Option Text
  line : ℕ
  deriving DecidableEq, Repr

/-- `lines[i]` for an `i` that a loop over a scope takes; it is never out of range. -/
def lineAt (lines : List Text) (i : ℕ) : Text :=
  lines.getD i []

def range (lo hi : ℕ) : List ℕ :=
  List.range' lo (hi - lo)

/-- The ranges from each start to the next one, or to the last line. -/
def scopesFrom (stop : ℕ) : List ℕ → List (ℕ × ℕ)
  | [] => []
  | s :: starts => (s, starts.headD stop) :: scopesFrom stop starts

def kernelScopes (lines : List Text) : List (ℕ × ℕ) :=
  scopesFrom lines.length ((range 0 lines.length).filter fun i => startsKernel (lineAt lines i))

def findSharedDecls (lines : List Text) (lo hi : ℕ) : List SharedDecl :=
  (range lo hi).filterMap fun i =>
    (search (fun _ => sharedDeclAt unicode) none (lineAt lines i)).map fun (name, d1, d2) =>
      { name, d1, d2, line := i }

def findForLoopBounds (lines : List Text) (lo hi : ℕ) : Text → Option Text :=
  (range lo hi).foldl
    (fun bounds i =>
      match forLoop unicode (lineAt lines i) with
      | some (var, bound) => Function.update bounds var (some bound)
      | none => bounds)
    fun _ => none

def isWrite (line name : Text) : Bool :=
  (accesses unicode name line).any fun (_, rest) =>
    let after := skipSpaces rest
    "=".toList.isPrefixOf after && !"==".toList.isPrefixOf after

def hasAccess (line name : Text) : Bool :=
  (search (accessAt unicode name) none line).isSome

/-! ## Dimensions -/

def threadIndexVars : List Text :=
  ["tx".toList, "ty".toList, "lane".toList, "row".toList, "col".toList, "threadIdx.x".toList,
    "threadIdx.y".toList, "threadIdx.z".toList]

def dimMismatch (file : Text) (i : ℕ) (line index bound : Text) (name d1 d2 dim : Text) : Finding :=
  { file
    line := i + 1
    patternId := .sharedMemDimMismatch
    code := strip line
    extra := "loop var '".toList ++ index ++ "' bounded by '".toList ++ bound ++
      "' indexes '".toList ++ name ++ "' declared as [".toList ++ d1 ++ "][".toList ++ d2 ++
      "] (dim mismatch on '".toList ++ dim ++ "')".toList }

/-- Both symbols have tile values, and these are equal. -/
def sameTile (tileValues : List (Text × ℤ)) (bound dim : Text) : Bool :=
  match tileValues.lookup bound, tileValues.lookup dim with
  | some a, some b => a == b
  | _, _ => false

def checkIndex (loopBounds : Text → Option Text) (tileValues : List (Text × ℤ)) (index dim : Text)
    (finding : Text → Finding) : List Finding :=
  if index ∈ threadIndexVars then []
  else
    match loopBounds index with
    | none => []
    | some bound =>
        if bound = dim then []
        else if sameTile tileValues bound dim then []
        else [finding bound]

def detectDimMismatch (lines : List Text) (hi : ℕ) (decl : SharedDecl)
    (loopBounds : Text → Option Text) (file : Text) (tileValues : List (Text × ℤ)) : List Finding :=
  match decl.d2 with
  | none => []
  | some d2 =>
      (range (decl.line + 1) hi).flatMap fun i =>
        (accesses unicode decl.name (lineAt lines i)).flatMap fun ((idx1, idx2), _) =>
          [(idx1, decl.d1), (idx2, d2)].flatMap fun (index, dim) =>
            checkIndex loopBounds tileValues index dim fun bound =>
              dimMismatch file i (lineAt lines i) index bound decl.name decl.d1 d2 dim

/-! ## Barriers -/

inductive SyncState where
  | unknown
  | written
  | synced
  | read
  | flagged
  deriving DecidableEq, Repr

def loopCarriedOverwrite (file : Text) (i : ℕ) (line name : Text) : Finding :=
  { file
    line := i + 1
    patternId := .loopCarriedOverwrite
    code := strip line
    extra := "'".toList ++ name ++
      ("' written again before a __syncthreads() followed " ++
        "the previous read — other threads may still be reading it").toList }

def missingSyncthreads (file : Text) (i : ℕ) (line name : Text) : Finding :=
  { file
    line := i + 1
    patternId := .missingSyncthreads
    code := strip line
    extra := "'".toList ++ name ++
      "' read here without a __syncthreads() since it was last written".toList }

structure SyncScan where
  state : Text → SyncState
  findings : List Finding

def scanName (file : Text) (i : ℕ) (line : Text) (scan : SyncScan) (n : Text) : SyncScan :=
  if hasAccess unicode line n then
    if isWrite unicode line n then
      { state := Function.update scan.state n .written
        findings :=
          if scan.state n = .read then scan.findings ++ [loopCarriedOverwrite file i line n]
          else scan.findings }
    else
      match scan.state n with
      | .written =>
          { state := Function.update scan.state n .flagged
            findings := scan.findings ++ [missingSyncthreads file i line n] }
      | .synced => { scan with state := Function.update scan.state n .read }
      | _ => scan
  else scan

def scanLine (lines : List Text) (sharedNames : List Text) (file : Text) (scan : SyncScan)
    (i : ℕ) : SyncScan :=
  if hasSync (lineAt lines i) then { scan with state := fun _ => .synced }
  else sharedNames.foldl (scanName unicode file i (lineAt lines i)) scan

def detectSyncIssues (lines : List Text) (lo hi : ℕ) (sharedNames : List Text) (file : Text) :
    List Finding :=
  ((range lo hi).foldl (scanLine unicode lines sharedNames file)
    { state := fun _ => .unknown, findings := [] }).findings

/-! ## Tiles -/

def bankConflict (file : Text) (i : ℕ) (line index name d2 : Text) (value : ℤ) : Finding :=
  { file
    line := i + 1
    patternId := .bankConflictStride
    code := strip line
    extra := "'".toList ++ name ++ "' indexed [".toList ++ index ++
      "][...] with trailing dim ".toList ++ d2 ++ "=".toList ++ value.repr.toList ++
      " (multiple of 32 banks)".toList }

def detectBankConflict (lines : List Text) (hi : ℕ) (decl : SharedDecl) (file : Text)
    (tileValues : List (Text × ℤ)) : List Finding :=
  match decl.d2 with
  | none => []
  | some d2 =>
      match tileValues.lookup d2 with
      | none => []
      | some value =>
          if value % 32 ≠ 0 then []
          else
            (range (decl.line + 1) hi).flatMap fun i =>
              (accesses unicode decl.name (lineAt lines i)).flatMap fun ((idx1, _), _) =>
                if idx1 ∈ threadIndexVars then
                  [bankConflict file i (lineAt lines i) idx1 decl.name d2 value]
                else []

def detectTileTooLarge (file : Text) (tileValues : List (Text × ℤ)) : List Finding :=
  match tileValues.lookup "BM".toList, tileValues.lookup "BN".toList with
  | some bm, some bn =>
      if bm ≠ 0 ∧ bn ≠ 0 ∧ 1024 < bm * bn then
        [{ file
           line := 0
           patternId := .tileTooLargeForBlock
           code := "BM=".toList ++ bm.repr.toList ++ " BN=".toList ++ bn.repr.toList ++
             " -> ".toList ++ (bm * bn).repr.toList ++ " threads/block".toList
           extra := "exceeds the 1024 threads/block hardware limit".toList }]
      else []
  | _, _ => []

/-! ## A file -/

/-- The scopes of a file; a file without kernels is one scope. -/
def scopes (lines : List Text) : List (ℕ × ℕ) :=
  if (kernelScopes lines).isEmpty then [(0, lines.length)] else kernelScopes lines

def analyzeScope (file : Text) (tileValues : List (Text × ℤ)) (lines : List Text) (lo hi : ℕ) :
    List Finding :=
  let decls := findSharedDecls unicode lines lo hi
  let loopBounds := findForLoopBounds unicode lines lo hi
  (decls.flatMap fun d =>
      detectDimMismatch unicode lines hi d loopBounds file tileValues ++
        detectBankConflict unicode lines hi d file tileValues) ++
    detectSyncIssues unicode lines lo hi (decls.map SharedDecl.name) file

def analyzeLines (file : Text) (lines : List Text) (tileValues : List (Text × ℤ)) : List Finding :=
  let lines := lines.map stripLineComment
  ((scopes lines).flatMap fun (lo, hi) => analyzeScope unicode file tileValues lines lo hi) ++
    detectTileTooLarge file tileValues

def analyzeFile (file text : Text) (tileValues : List (Text × ℤ)) : List Finding :=
  analyzeLines unicode file (splitLines text) tileValues

end AmpFormal.DiagnoseModel
