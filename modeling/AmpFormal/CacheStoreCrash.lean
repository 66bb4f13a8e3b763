import AmpFormal.CacheStoreHistory
import AmpFormal.TransitionRuns

/-!
# Puts and crashes

`put` is taken apart into the steps that reach the device: the temporary file is
opened and truncated, its bytes are appended one at a time, it is closed and renamed.
The process may stop between any two of them, and the next one starts on the files
that it finds. What was written to a temporary file is never under the name of an
entry, so only the rename changes what `get` returns.
-/

namespace AmpFormal.CacheStoreCrash

open AmpFormal.FileDirectory AmpFormal.CacheStoreModel AmpFormal.CacheEntryCodec
open AmpFormal.CacheStoreHistory AmpFormal.TransitionRuns

set_option autoImplicit false

structure Putting where
  key : String
  bin : Bytes
  f : Nat
  written : Nat
  closed : Bool
  deriving DecidableEq, Repr

structure State where
  dir : Directory String
  putting : Option Putting
  /-- The puts whose rename has happened, a record of the proof. -/
  renamed : List (String × Bytes)

inductive Move where
  | openTmp (key : String) (bin : Bytes)
  | append
  | close
  | rename
  | stop
  deriving DecidableEq, Repr

def step (state : State) : Move → Option State
  | .openTmp key bin =>
      match state.putting with
      | some _ => none
      | none =>
          let (dir, f) := state.dir.openTruncate (tmpName key)
          some { state with dir, putting := some { key, bin, f, written := 0, closed := false } }
  | .append =>
      match state.putting with
      | none => none
      | some putting =>
          match (entryBytes putting.bin)[putting.written]? with
          | none => none
          | some byte => some
              { state with
                dir := state.dir.writeAt putting.f putting.written [byte]
                putting := some { putting with written := putting.written + 1 } }
  | .close =>
      match state.putting with
      | none => none
      | some putting =>
          if putting.written = (entryBytes putting.bin).length then
            some { state with putting := some { putting with closed := true } }
          else none
  | .rename =>
      match state.putting with
      | none => none
      | some putting =>
          if putting.closed then
            (state.dir.rename (tmpName putting.key) (binName putting.key)).map fun dir =>
              { dir, putting := none, renamed := state.renamed ++ [(putting.key, putting.bin)] }
          else none
  -- the process stops, and the next one opens the directory
  | .stop => some { state with putting := none }

def start (dir : Directory String) : State where
  dir := dir
  putting := none
  renamed := []

/-! ## A put that is not interrupted -/

def putMoves (key : String) (bin : Bytes) : List Move :=
  .openTmp key bin :: (List.replicate (entryBytes bin).length .append ++ [.close, .rename])

def always (_ : State) (_ : Move) : Prop := True

instance (state : State) (move : Move) : Decidable (always state move) :=
  inferInstanceAs (Decidable True)

theorem run_append (key : String) (bin : Bytes) (f : Nat) (opened : Directory String)
    (blank : opened.content f = []) (renamed : List (String × Bytes)) (rest : List Move)
    (written count : Nat) (total : written + count = (entryBytes bin).length) :
    runCalls step always
        { dir := opened.writeAt f 0 ((entryBytes bin).take written)
          putting := some { key, bin, f, written, closed := false }
          renamed } (List.replicate count .append ++ rest) =
      runCalls step always
        { dir := opened.writeAt f 0 (entryBytes bin)
          putting := some { key, bin, f, written := (entryBytes bin).length, closed := false }
          renamed } rest := by
  induction count generalizing written with
  | zero =>
      obtain rfl : written = (entryBytes bin).length := total
      rw [List.take_length]
      rfl
  | succ count ih =>
      have inside : written < (entryBytes bin).length := by omega
      have byte := List.getElem?_eq_getElem inside
      have length : ((entryBytes bin).take written).length = written :=
        List.length_take_of_le (Nat.le_of_lt inside)
      have grown := Directory.write_at_append blank ((entryBytes bin).take written)
        [(entryBytes bin)[written]]
      rw [length, List.take_append_getElem inside] at grown
      rw [List.replicate_succ, List.cons_append, runCalls, if_pos (show always _ _ from trivial)]
      simp only [step, byte, grown]
      exact ih (written + 1) (by omega)

theorem run_put_moves (state : State) (idle : state.putting = none) (key : String) (bin : Bytes) :
    runCalls step always state (putMoves key bin) =
      (put state.dir key bin).map fun dir =>
        { dir, putting := none, renamed := state.renamed ++ [(key, bin)] } := by
  have blank := state.dir.open_truncate_content (tmpName key)
  have pieces := Directory.write_at_append blank (header bin).toBytes bin
  have appended := run_append key bin _ _ blank state.renamed [.close, .rename] 0 _ (Nat.zero_add _)
  rw [List.take_zero, Directory.write_at_nil] at appended
  have published : put state.dir key bin =
      ((state.dir.openTruncate (tmpName key)).1.writeAt (state.dir.openTruncate (tmpName key)).2 0
        (entryBytes bin)).rename (tmpName key) (binName key) := by
    rw [entryBytes, ← pieces]
    rfl
  rw [putMoves, runCalls, if_pos (show always _ _ from trivial)]
  simp only [step, idle]
  rw [appended, published]
  simp only [runCalls, step, always, if_true]
  split
  case h_1 after moved => exact moved.symm
  case h_2 stuck => exact stuck.symm

/-! ## What is found after a stop -/

/-- The keys are plain and the payloads fit the length field. -/
def allowed (_ : State) : Move → Prop
  | .openTmp key bin => Plain key ∧ bin.length < 2 ^ 32
  | .append | .close | .rename | .stop => True

instance (state : State) (move : Move) : Decidable (allowed state move) :=
  match move with
  | .openTmp key bin => inferInstanceAs (Decidable (Plain key ∧ bin.length < 2 ^ 32))
  | .append | .close | .rename | .stop => inferInstanceAs (Decidable True)

/-- The temporary file of a put holds what was appended so far. -/
structure Underway (dir : Directory String) (putting : Putting) : Prop where
  plain : Plain putting.key
  small : putting.bin.length < 2 ^ 32
  staged : Staged dir dir putting.key putting.f ((entryBytes putting.bin).take putting.written)
  complete : putting.closed = true → putting.written = (entryBytes putting.bin).length

/-- Every plain key has the entry of its last renamed put, or the file it had at first. -/
structure Consistent (initial : Directory String) (state : State) : Prop where
  entries : ∀ key, Plain key → state.dir.read (binName key) =
    ((lastPut key state.renamed).map entryBytes).or (initial.read (binName key))
  small : ∀ put ∈ state.renamed, put.2.length < 2 ^ 32
  underway : ∀ putting, state.putting = some putting → Underway state.dir putting

theorem start_consistent (initial : Directory String) : Consistent initial (start initial) := by
  constructor
  · intro key _
    rfl
  · intro put member
    cases member
  · intro putting impossible
    cases impossible

section Step

variable {initial : Directory String} {state after : State}

theorem staged_entries (consistent : Consistent initial state) {dir : Directory String}
    {key : String} (plain : Plain key) {f : Nat} {content : Bytes}
    (staged : Staged state.dir dir key f content) (other : String) (otherPlain : Plain other) :
    dir.read (binName other) =
      ((lastPut other state.renamed).map entryBytes).or (initial.read (binName other)) := by
  rw [staged.others (binName other) (Ne.symm (tmp_name_ne_bin_name plain otherPlain))]
  exact consistent.entries other otherPlain

theorem open_consistent (consistent : Consistent initial state) {key : String} {bin : Bytes}
    (plain : Plain key) (small : bin.length < 2 ^ 32)
    (moved : step state (.openTmp key bin) = some after) :
    Consistent initial after := by
  rw [step] at moved
  split at moved
  case h_1 => cases moved
  case h_2 idle =>
    obtain rfl := Option.some.inj moved
    have opened := open_staged state.dir key
    refine ⟨staged_entries consistent plain opened, consistent.small, ?_⟩
    intro putting same
    obtain rfl := Option.some.inj same
    exact ⟨plain, small, staged_self opened, fun closed => nomatch closed⟩

theorem append_consistent (consistent : Consistent initial state)
    (moved : step state .append = some after) : Consistent initial after := by
  rw [step] at moved
  split at moved
  case h_1 => cases moved
  case h_2 putting running =>
    split at moved
    case h_1 => cases moved
    case h_2 byte next =>
      obtain rfl := Option.some.inj moved
      obtain ⟨inside, at_position⟩ := List.getElem?_eq_some_iff.mp next
      have prior := consistent.underway putting running
      have length : ((entryBytes putting.bin).take putting.written).length = putting.written :=
        List.length_take_of_le (Nat.le_of_lt inside)
      have grown := write_staged prior.staged [byte]
      rw [length, ← at_position, List.take_append_getElem inside, at_position] at grown
      refine ⟨staged_entries consistent prior.plain grown, consistent.small, ?_⟩
      intro longer same
      obtain rfl := Option.some.inj same
      refine ⟨prior.plain, prior.small, staged_self grown, ?_⟩
      intro closed
      exact absurd (prior.complete closed) (Nat.ne_of_lt inside)

theorem close_consistent (consistent : Consistent initial state)
    (moved : step state .close = some after) : Consistent initial after := by
  rw [step] at moved
  split at moved
  case h_1 => cases moved
  case h_2 putting running =>
    split at moved
    case isFalse => cases moved
    case isTrue complete =>
      obtain rfl := Option.some.inj moved
      have prior := consistent.underway putting running
      refine ⟨consistent.entries, consistent.small, ?_⟩
      intro closed same
      obtain rfl := Option.some.inj same
      exact ⟨prior.plain, prior.small, prior.staged, fun _ => complete⟩

/-- The rename publishes a complete entry. -/
theorem rename_consistent (consistent : Consistent initial state)
    (moved : step state .rename = some after) : Consistent initial after := by
  rw [step] at moved
  split at moved
  case h_1 => cases moved
  case h_2 putting running =>
    split at moved
    case isFalse => cases moved
    case isTrue closed =>
      have prior := consistent.underway putting running
      obtain ⟨dir, renamed, read⟩ := rename_staged prior.staged
      rw [prior.complete closed, List.take_length] at read
      rw [renamed, Option.map_some] at moved
      obtain rfl := Option.some.inj moved
      refine ⟨?_, ?_, fun _ impossible => nomatch impossible⟩
      · intro key plain
        rw [read, last_put_append, lastPut, lastPut, Option.none_or]
        by_cases same : key = putting.key
        · simp [same]
        · have apart : binName key ≠ binName putting.key :=
            fun equal => same (bin_name_injective plain prior.plain equal)
          rw [if_neg apart, if_neg (Ne.symm (tmp_name_ne_bin_name prior.plain plain)),
            if_neg (Ne.symm same), Option.none_or]
          exact consistent.entries key plain
      · intro put member
        obtain earlier | now := List.mem_append.mp member
        · exact consistent.small put earlier
        · rw [List.mem_singleton.mp now]
          exact prior.small

theorem step_consistent (consistent : Consistent initial state) {move : Move}
    (meets : allowed state move) (moved : step state move = some after) :
    Consistent initial after := by
  cases move with
  | openTmp key bin => exact open_consistent consistent meets.1 meets.2 moved
  | append => exact append_consistent consistent moved
  | close => exact close_consistent consistent moved
  | rename => exact rename_consistent consistent moved
  | stop =>
      obtain rfl := Option.some.inj moved
      exact ⟨consistent.entries, consistent.small, fun _ impossible => nomatch impossible⟩

end Step

/-- Wherever a run of puts stops, `get` finds for every plain key the payload of its last
renamed put, or what was there at first. Stopped puts may leave temporary files. -/
theorem stopped_puts_consistent (initial : Directory String) {state : State}
    (reached : Reaches step allowed (start initial) state) {key : String} (plain : Plain key) :
    get state.dir key = match lastPut key state.renamed with
      | some bin => some bin
      | none => get initial key := by
  have consistent : Consistent initial state :=
    reaches_invariant (start_consistent initial)
      (fun _ _ _ _ kept meets moved => step_consistent kept meets moved) reached
  rw [CacheStoreModel.get, consistent.entries key plain]
  cases last : lastPut key state.renamed with
  | none => rfl
  | some bin => exact parse_entry (consistent.small _ (last_put_mem last))

/-- A put that is renamed, one that is cut, and one over the file that the cut left. -/
def interrupted : List Move :=
  putMoves "k" [1] ++ [.openTmp "k" [2, 3]] ++ List.replicate 17 .append ++ [.stop] ++
    [.openTmp "k" [4]] ++ List.replicate 9 .append ++ [.stop]

theorem stopped_puts_consistent_interrupted :
    get ((runCalls step allowed (start (Directory.empty String)) interrupted).get
        (by decide +kernel)).dir "k" = some [1] :=
  stopped_puts_consistent (Directory.empty String)
    (reaches_of_run_get interrupted (by decide +kernel)) (by decide)

/-- Keys without a path separator, NUL or not. -/
def separatorFree (_ : State) : Move → Prop
  | .openTmp key bin => '/' ∉ key.toList ∧ bin.length < 2 ^ 32
  | .append | .close | .rename | .stop => True

instance separatorFreeDecidable (state : State) : ∀ move, Decidable (separatorFree state move)
  | .openTmp key bin => inferInstanceAs (Decidable ('/' ∉ key.toList ∧ bin.length < 2 ^ 32))
  | .append | .close | .rename | .stop => inferInstanceAs (Decidable True)

/-- Behind a NUL the temporary file is the entry itself, and opening it destroys what was
published. -/
theorem stop_behind_nul_tears_entry :
    ¬∀ (initial : Directory String) (state : State),
      Reaches step separatorFree (start initial) state → ∀ key, '/' ∉ key.toList →
        get state.dir key = match lastPut key state.renamed with
          | some bin => some bin
          | none => get initial key := by
  intro always
  exact absurd (always (Directory.empty String) _
    (reaches_of_run_get (putMoves "a\x00b" [1] ++ [.openTmp "a\x00b" [2], .stop])
      (by decide +kernel)) "a\x00b" (by decide)) (by decide +kernel)

end AmpFormal.CacheStoreCrash
