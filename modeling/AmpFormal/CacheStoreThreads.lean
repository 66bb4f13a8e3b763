import AmpFormal.CacheStoreModel
import AmpFormal.TransitionRuns
import Mathlib.Data.Fintype.Basic

/-!
# Puts of the disk cache under threads

`CacheStore::put` as the steps it makes on the directory, for any number of calls
that run at once: open and truncate the temporary file, write the header and the
payload through the handle, close, rename. All puts of a key share one temporary
name. A put that opens it while another put of the key is on its way to the
rename truncates that file, and one of the two finds nothing left to rename.
-/

namespace AmpFormal.CacheStoreThreads

open AmpFormal.FileDirectory AmpFormal.TransitionRuns AmpFormal.CacheStoreModel

set_option autoImplicit false

variable {Tid : Type}

inductive PutPc where
  | opening
  | header (f : Nat)
  | payload (f : Nat)
  | closing (f : Nat)
  | renaming
  | returned
  /-- The rename threw. -/
  | threw
  deriving DecidableEq, Repr

structure Put where
  key : String
  bin : Bytes
  pc : PutPc := .opening
  deriving DecidableEq, Repr

/-- The directory and the puts that were called. -/
structure Puts (Tid : Type) where
  dir : Directory String
  put : Tid → Option Put

inductive Action (Tid : Type) where
  | call (tid : Tid) (key : String) (bin : Bytes)
  | step (tid : Tid)
  deriving DecidableEq, Repr

namespace Put

/-- A step of one put on the directory. -/
def next (put : Put) (dir : Directory String) : Option (Directory String × PutPc) :=
  match put.pc with
  | .opening =>
      let (dir, f) := dir.openTruncate (tmpName put.key)
      some (dir, .header f)
  | .header f => some (dir.writeAt f 0 (CacheStoreModel.header put.bin).toBytes, .payload f)
  | .payload f => some (dir.writeAt f BinHeader.size put.bin, .closing f)
  | .closing _ => some (dir, .renaming)
  | .renaming =>
      match dir.rename (tmpName put.key) (binName put.key) with
      | some dir => some (dir, .returned)
      | none => some (dir, .threw)
  | .returned | .threw => none

end Put

/-- The put has opened the temporary file and not renamed it. -/
def PutPc.writing : PutPc → Bool
  | .header _ | .payload _ | .closing _ | .renaming => true
  | .opening | .returned | .threw => false

def PutPc.finished : PutPc → Bool
  | .returned | .threw => true
  | _ => false

namespace Puts

variable [DecidableEq Tid]

def create (Tid : Type) (dir : Directory String) : Puts Tid where
  dir := dir
  put := fun _ => none

def step (s : Puts Tid) : Action Tid → Option (Puts Tid)
  | .call tid key bin =>
      if s.put tid = none then
        some { s with put := Function.update s.put tid (some { key, bin }) }
      else none
  | .step tid =>
      (s.put tid).bind fun put =>
        (put.next s.dir).map fun after =>
          { dir := after.1, put := Function.update s.put tid (some { put with pc := after.2 }) }

abbrev Reached (allowed : Puts Tid → Action Tid → Prop) (dir : Directory String) (s : Puts Tid) :
    Prop :=
  Reaches step allowed (create Tid dir) s

end Puts

open Puts

/-! ## A put that runs alone -/

def runAlone (put : Put) : Nat → Directory String → Option (Directory String × PutPc)
  | 0, dir => some (dir, put.pc)
  | fuel + 1, dir => (put.next dir).bind fun after => runAlone { put with pc := after.2 } fuel after.1

/-- Alone, the five steps are `CacheStore::put`. -/
theorem run_alone_put (dir : Directory String) (key : String) (bin : Bytes) :
    runAlone { key, bin } 5 dir = (CacheStoreModel.put dir key bin).map fun after =>
      (after, .returned) := by
  obtain ⟨after, done⟩ := put_isSome dir key bin
  have renamed := done
  rw [CacheStoreModel.put] at renamed
  simp only [runAlone, Put.next, Option.bind_some, done, Option.map_some]
  simp only [renamed]
  rfl

/-! ## Puts of a key in turn -/

/-- No put throws, and once all have finished every key that was put is read back as
the payload of one of its puts. -/
def Safe (s : Puts Tid) : Prop :=
  (∀ tid put, s.put tid = some put → put.pc ≠ .threw) ∧
    ((∀ tid put, s.put tid = some put → put.pc.finished = true) →
      ∀ tid put, s.put tid = some put →
        ∃ other source, s.put other = some source ∧ source.key = put.key ∧
          CacheStoreModel.get s.dir put.key = some source.bin)

/-- Keys are plain and payloads fit the header. -/
def FitsHeader : Action Tid → Prop
  | .call _ key bin => Plain key ∧ bin.length < 2 ^ 32
  | .step _ => True

instance fitsHeaderDecidable : ∀ action : Action Tid, Decidable (FitsHeader action)
  | .call _ key bin => inferInstanceAs (Decidable (Plain key ∧ bin.length < 2 ^ 32))
  | .step _ => inferInstanceAs (Decidable True)

/-- The put in `slot` is writing the temporary file of `key`. -/
def writes (slot : Option Put) (key : String) : Bool :=
  slot.any fun put => put.key == key && put.pc.writing

/-- A put opens the temporary file only while no other put of the key is between
its open and its rename. -/
def InTurn (s : Puts Tid) : Action Tid → Prop
  | .call _ _ _ => True
  | .step tid =>
      ∀ put ∈ s.put tid, put.pc = .opening → ∀ other, writes (s.put other) put.key = false

theorem writes_iff (slot : Option Put) (key : String) :
    writes slot key = true ↔ ∃ put, slot = some put ∧ put.key = key ∧ put.pc.writing = true := by
  cases slot <;> simp [writes]

def PutPc.stage (bin : Bytes) : PutPc → Option Bytes
  | .header _ => some []
  | .payload _ => some (CacheStoreModel.header bin).toBytes
  | .closing _ | .renaming => some (entryBytes bin)
  | .opening | .returned | .threw => none

def PutPc.handle : PutPc → Option Nat
  | .header f | .payload f | .closing f => some f
  | .opening | .renaming | .returned | .threw => none

structure Holds (dir : Directory String) (put : Put) : Prop where
  handle : ∀ f, put.pc.handle = some f → dir.entry (tmpName put.key) = some f
  stage : ∀ bytes, put.pc.stage put.bin = some bytes → dir.read (tmpName put.key) = some bytes
  calm : put.pc ≠ .threw

theorem holds_of_same {dir after : Directory String} {put : Put} (holds : Holds dir put)
    (entry : after.entry (tmpName put.key) = dir.entry (tmpName put.key))
    (read : after.read (tmpName put.key) = dir.read (tmpName put.key)) : Holds after put := by
  refine ⟨fun f open_ => ?_, fun bytes stage => ?_, holds.calm⟩
  · rw [entry]
    exact holds.handle f open_
  · rw [read]
    exact holds.stage bytes stage

theorem holds_resting {dir : Directory String} {put : Put} (handle : put.pc.handle = none)
    (stage : put.pc.stage put.bin = none) (calm : put.pc ≠ .threw) : Holds dir put := by
  refine ⟨fun f open_ => ?_, fun bytes staged => ?_, calm⟩
  · rw [handle] at open_
    cases open_
  · rw [stage] at staged
    cases staged

theorem holds_idle {dir : Directory String} {put : Put} (idle : put.pc.writing = false)
    (calm : put.pc ≠ .threw) : Holds dir put := by
  refine holds_resting ?_ ?_ calm
  · cases pc : put.pc <;> simp_all [PutPc.writing, PutPc.handle]
  · cases pc : put.pc <;> simp_all [PutPc.writing, PutPc.stage]

/-- What a step of a put does to the directory, seen from the put and from the
other names. -/
structure Stepped (dir after : Directory String) (put moved : Put) : Prop where
  holds : Holds after moved
  key : moved.key = put.key
  bin : moved.bin = put.bin
  others : ∀ name, name ≠ tmpName put.key → name ≠ binName put.key →
    after.entry name = dir.entry name ∧ after.read name = dir.read name
  file : (moved.pc = .returned ∧ after.read (binName put.key) = some (entryBytes put.bin)) ∨
    (moved.pc ≠ .returned ∧ after.read (binName put.key) = dir.read (binName put.key))

theorem write_stepped {dir : Directory String} {put : Put} (plain : Plain put.key) {f : Nat}
    {old bytes : Bytes} {offset : Nat} {pc : PutPc} (entry : dir.entry (tmpName put.key) = some f)
    (read : dir.read (tmpName put.key) = some old) (handle : pc.handle = some f)
    (stage : pc.stage put.bin = some (overwrite old offset bytes)) :
    Stepped dir (dir.writeAt f offset bytes) put { put with pc } := by
  have content : dir.content f = old := by
    rw [Directory.read_of_entry entry] at read
    exact Option.some.inj read
  have live : pc ≠ .threw ∧ pc ≠ .returned := by
    constructor <;> (rintro rfl; cases handle)
  refine ⟨⟨fun g open_ => ?_, fun new staged => ?_, live.1⟩, rfl, rfl, fun name tmp bin => ?_,
    Or.inr ⟨live.2, ?_⟩⟩
  · rw [handle] at open_
    cases open_
    exact entry
  · rw [Directory.write_at_read entry, content]
    exact stage.symm.trans staged
  · exact ⟨rfl, Directory.write_at_read_of_ne entry tmp offset bytes⟩
  · exact Directory.write_at_read_of_ne entry (Ne.symm (tmp_name_ne_bin_name plain plain)) offset
      bytes

/-- The step lemma of a put that holds its temporary file. -/
theorem next_stepped {dir after : Directory String} {put : Put} {pc : PutPc}
    (plain : Plain put.key) (holds : Holds dir put) (stepped : put.next dir = some (after, pc)) :
    Stepped dir after put { put with pc } := by
  unfold Put.next at stepped
  split at stepped
  case h_1 at_open =>
    cases stepped
    refine ⟨⟨fun g open_ => ?_, fun bytes staged => ?_, by simp⟩, rfl, rfl, fun name tmp bin => ?_,
      Or.inr ⟨by simp, ?_⟩⟩
    · cases open_
      exact Directory.open_truncate_entry _ _
    · have blank : (dir.openTruncate (tmpName put.key)).1.read (tmpName put.key) = some [] := by
        rw [Directory.read_of_entry (Directory.open_truncate_entry _ _),
          Directory.open_truncate_content]
      cases staged
      exact blank
    · exact ⟨Directory.open_truncate_entry_of_ne _ _ tmp, Directory.open_truncate_read_of_ne _ _ tmp⟩
    · exact Directory.open_truncate_read_of_ne _ _ (Ne.symm (tmp_name_ne_bin_name plain plain))
  case h_2 f at_header =>
    cases stepped
    refine write_stepped plain (holds.handle f (by rw [at_header]; rfl))
      (holds.stage [] (by rw [at_header]; rfl)) rfl ?_
    rw [PutPc.stage]
    exact congrArg some (overwrite_end [] _).symm
  case h_3 f at_payload =>
    cases stepped
    refine write_stepped plain (holds.handle f (by rw [at_payload]; rfl))
      (holds.stage _ (by rw [at_payload]; rfl)) rfl ?_
    have ending := overwrite_end (CacheStoreModel.header put.bin).toBytes put.bin
    rw [header_length] at ending
    rw [PutPc.stage, ending]
    rfl
  case h_4 f at_close =>
    cases stepped
    refine ⟨⟨fun g open_ => ?_, fun bytes staged => ?_, by simp⟩, rfl, rfl,
      fun name tmp bin => ⟨rfl, rfl⟩, Or.inr ⟨by simp, rfl⟩⟩
    · cases open_
    · exact holds.stage bytes (by rw [at_close]; exact staged)
  case h_5 at_rename =>
    have complete := holds.stage (entryBytes put.bin) (by rw [at_rename]; rfl)
    split at stepped
    case h_1 renamed_dir renamed =>
      cases stepped
      have read := Directory.rename_read renamed
      refine ⟨holds_resting rfl rfl (by simp), rfl, rfl, fun name tmp bin => ⟨?_, ?_⟩,
        Or.inl ⟨rfl, ?_⟩⟩
      · cases target : dir.entry (tmpName put.key) with
        | none => simp [Directory.rename_none_iff.mpr target] at renamed
        | some file =>
            rw [(Directory.rename_entry target renamed).1, Function.update_of_ne bin,
              Function.update_of_ne tmp]
      · rw [read, if_neg bin, if_neg tmp]
      · rw [read, if_pos rfl, complete]
    case h_2 failed =>
      rw [Directory.rename_none_iff] at failed
      simp [Directory.read, failed] at complete
  case h_6 => cases stepped
  case h_7 => cases stepped

/-- The puts of a key take turns, and an entry that was completed stays complete. -/
structure TakesTurns (s : Puts Tid) : Prop where
  plain : ∀ tid put, s.put tid = some put → Plain put.key
  small : ∀ tid put, s.put tid = some put → put.bin.length < 2 ^ 32
  holds : ∀ tid put, s.put tid = some put → Holds s.dir put
  alone : ∀ left right first second, s.put left = some first → s.put right = some second →
    first.key = second.key → first.pc.writing = true → second.pc.writing = true → left = right
  complete : ∀ tid put, s.put tid = some put → put.pc = .returned →
    ∃ other source, s.put other = some source ∧ source.key = put.key ∧
      s.dir.read (binName put.key) = some (entryBytes source.bin)

theorem create_takes_turns (dir : Directory String) : TakesTurns (Puts.create Tid dir) := by
  have none_put : ∀ tid put, (Puts.create Tid dir).put tid ≠ some put := by
    intro tid put found
    cases found
  exact ⟨fun tid put found => absurd found (none_put tid put),
    fun tid put found => absurd found (none_put tid put),
    fun tid put found => absurd found (none_put tid put),
    fun left right first second found => absurd found (none_put left first),
    fun tid put found => absurd found (none_put tid put)⟩

section Step

variable {s : Puts Tid}

theorem writing_before {put : Put} {dir after : Directory String} {pc : PutPc}
    (stepped : put.next dir = some (after, pc)) :
    put.pc.writing = true ∨ put.pc = .opening := by
  unfold Put.next at stepped
  split at stepped
  case h_1 at_open => exact Or.inr at_open
  case h_6 => cases stepped
  case h_7 => cases stepped
  all_goals rename_i at_step
  all_goals exact Or.inl (by rw [at_step]; rfl)

theorem others_idle (turns : TakesTurns s) {tid : Tid} {put : Put} (found : s.put tid = some put)
    (inTurn : InTurn s (.step tid)) {after : Directory String} {pc : PutPc}
    (next : put.next s.dir = some (after, pc)) {other : Tid} {source : Put} (different : other ≠ tid)
    (present : s.put other = some source) (name : source.key = put.key) :
    source.pc.writing = false := by
  cases writes_then : source.pc.writing with
  | false => rfl
  | true =>
      rcases writing_before next with before | at_open
      · exact absurd (turns.alone other tid source put present found name writes_then before)
          different
      · have idle := inTurn put found at_open other
        have busy := (writes_iff (s.put other) put.key).mpr ⟨source, present, name, writes_then⟩
        rw [busy] at idle
        cases idle

variable [DecidableEq Tid]

theorem placed_cases {puts : Tid → Option Put} {tid other : Tid} {placed found : Put}
    (located : Function.update puts tid (some placed) other = some found) :
    (other = tid ∧ found = placed) ∨ (other ≠ tid ∧ puts other = some found) := by
  by_cases same : other = tid
  · rw [same, Function.update_self] at located
    exact Or.inl ⟨same, (Option.some.inj located).symm⟩
  · rw [Function.update_of_ne same] at located
    exact Or.inr ⟨same, located⟩

theorem call_takes_turns (turns : TakesTurns s) {tid : Tid} {key : String} {bin : Bytes}
    (fresh : s.put tid = none) (plain : Plain key) (small : bin.length < 2 ^ 32) :
    TakesTurns { s with put := Function.update s.put tid (some { key, bin }) } := by
  have kept : ∀ other put, s.put other = some put →
      Function.update s.put tid (some { key, bin }) other = some put := by
    intro other put found
    rw [Function.update_of_ne]
    · exact found
    · rintro rfl
      rw [fresh] at found
      cases found
  refine ⟨?_, ?_, ?_, ?_, ?_⟩
  · intro other put found
    rcases placed_cases found with ⟨-, rfl⟩ | ⟨-, older⟩
    · exact plain
    · exact turns.plain other put older
  · intro other put found
    rcases placed_cases found with ⟨-, rfl⟩ | ⟨-, older⟩
    · exact small
    · exact turns.small other put older
  · intro other put found
    rcases placed_cases found with ⟨-, rfl⟩ | ⟨-, older⟩
    · exact holds_resting rfl rfl (by simp)
    · exact turns.holds other put older
  · intro left right first second leftFound rightFound same leftWrites rightWrites
    rcases placed_cases leftFound with ⟨-, rfl⟩ | ⟨-, leftOlder⟩
    · cases leftWrites
    · rcases placed_cases rightFound with ⟨-, rfl⟩ | ⟨-, rightOlder⟩
      · cases rightWrites
      · exact turns.alone left right first second leftOlder rightOlder same leftWrites rightWrites
  · intro other put found returned
    rcases placed_cases found with ⟨-, rfl⟩ | ⟨-, older⟩
    · cases returned
    · obtain ⟨writer, source, present, name, file⟩ := turns.complete other put older returned
      exact ⟨writer, source, kept writer source present, name, file⟩

theorem step_complete (turns : TakesTurns s) {tid : Tid} {put : Put} (found : s.put tid = some put)
    {after : Directory String} {pc : PutPc} (stepped : Stepped s.dir after put { put with pc })
    {other : Tid} {source : Put}
    (located : Function.update s.put tid (some { put with pc }) other = some source)
    (returned : source.pc = .returned) :
    ∃ writer author, Function.update s.put tid (some { put with pc }) writer = some author ∧
      author.key = source.key ∧
        after.read (binName source.key) = some (entryBytes author.bin) := by
  have own : Function.update s.put tid (some { put with pc }) tid = some { put with pc } :=
    Function.update_self _ _ _
  rcases placed_cases located with ⟨rfl, rfl⟩ | ⟨different, present⟩
  · rcases stepped.file with ⟨-, file⟩ | ⟨unfinished, -⟩
    · exact ⟨other, _, own, rfl, file⟩
    · exact absurd returned unfinished
  · obtain ⟨writer, author, written, name, file⟩ := turns.complete other source present returned
    -- the author of the entry is still there, perhaps moved by this step
    have relocated : ∃ moved,
        Function.update s.put tid (some { put with pc }) writer = some moved ∧
          moved.key = author.key ∧ moved.bin = author.bin := by
      by_cases same : writer = tid
      · subst same
        rw [found] at written
        cases written
        exact ⟨_, own, rfl, rfl⟩
      · exact ⟨author, by rwa [Function.update_of_ne same], rfl, rfl⟩
    obtain ⟨moved, kept, sameKey, sameBin⟩ := relocated
    by_cases mine : source.key = put.key
    · rcases stepped.file with ⟨-, replaced⟩ | ⟨-, unchanged⟩
      · exact ⟨tid, _, own, mine.symm, by rw [mine]; exact replaced⟩
      · refine ⟨writer, moved, kept, sameKey.trans name, ?_⟩
        rw [sameBin, mine, unchanged, ← mine, file]
    · have plain := turns.plain tid put found
      have other_plain := turns.plain other source present
      obtain ⟨-, unchanged⟩ := stepped.others (binName source.key)
        (Ne.symm (tmp_name_ne_bin_name plain other_plain))
        (fun same => mine (bin_name_injective other_plain plain same))
      refine ⟨writer, moved, kept, sameKey.trans name, ?_⟩
      rw [sameBin, unchanged, file]

theorem step_takes_turns (turns : TakesTurns s) {tid : Tid} {put : Put} (found : s.put tid = some put)
    (inTurn : InTurn s (.step tid)) {after : Directory String} {pc : PutPc}
    (next : put.next s.dir = some (after, pc)) :
    TakesTurns { dir := after, put := Function.update s.put tid (some { put with pc }) } := by
  have plain := turns.plain tid put found
  have stepped := next_stepped plain (turns.holds tid put found) next
  refine ⟨?_, ?_, ?_, ?_, fun other source located returned =>
    step_complete turns found stepped located returned⟩
  · intro other source located
    rcases placed_cases located with ⟨-, rfl⟩ | ⟨-, present⟩
    · exact plain
    · exact turns.plain other source present
  · intro other source located
    rcases placed_cases located with ⟨-, rfl⟩ | ⟨-, present⟩
    · exact turns.small tid put found
    · exact turns.small other source present
  · intro other source located
    rcases placed_cases located with ⟨-, rfl⟩ | ⟨different, present⟩
    · exact stepped.holds
    · have before := turns.holds other source present
      by_cases name : source.key = put.key
      · exact holds_idle (others_idle turns found inTurn next different present name) before.calm
      · have other_plain := turns.plain other source present
        obtain ⟨entry, read⟩ := stepped.others (tmpName source.key)
          (fun same => name (tmp_name_injective other_plain plain same))
          (tmp_name_ne_bin_name other_plain plain)
        exact holds_of_same before entry read
  · intro left right first second leftFound rightFound same leftWrites rightWrites
    rcases placed_cases leftFound with ⟨leftSame, rfl⟩ | ⟨leftOther, leftPresent⟩
    · rcases placed_cases rightFound with ⟨rightSame, rfl⟩ | ⟨rightOther, rightPresent⟩
      · rw [leftSame, rightSame]
      · have idle := others_idle turns found inTurn next rightOther rightPresent same.symm
        rw [rightWrites] at idle
        cases idle
    · rcases placed_cases rightFound with ⟨rightSame, rfl⟩ | ⟨rightOther, rightPresent⟩
      · have idle := others_idle turns found inTurn next leftOther leftPresent same
        rw [leftWrites] at idle
        cases idle
      · exact turns.alone left right first second leftPresent rightPresent same leftWrites rightWrites

end Step

section Runs

variable [DecidableEq Tid]

theorem reached_takes_turns {dir : Directory String} {s : Puts Tid}
    (reached : Reached (fun s action => FitsHeader action ∧ InTurn s action) dir s) :
    TakesTurns s := by
  refine reaches_invariant (create_takes_turns dir) ?_ reached
  intro before action after _ turns meets moved
  cases action with
  | call tid key bin =>
      simp only [step] at moved
      split at moved
      case isTrue fresh =>
        cases moved
        exact call_takes_turns turns fresh meets.1.1 meets.1.2
      case isFalse => cases moved
  | step tid =>
      obtain ⟨put, found, moved⟩ := Option.bind_eq_some_iff.mp moved
      obtain ⟨⟨dir, pc⟩, next, rfl⟩ := Option.map_eq_some_iff.mp moved
      exact step_takes_turns turns found meets.2 next

/-- When the puts of each key take turns between their open and their rename, no
put throws, and the entries are those of the puts. -/
theorem puts_in_turn_safe {dir : Directory String} {s : Puts Tid}
    (reached : Reached (fun s action => FitsHeader action ∧ InTurn s action) dir s) : Safe s := by
  have turns := reached_takes_turns reached
  refine ⟨fun tid put found => (turns.holds tid put found).calm, fun finished tid put found => ?_⟩
  have returned : put.pc = .returned := by
    have ended := finished tid put found
    have calm := (turns.holds tid put found).calm
    cases pc : put.pc <;> simp_all [PutPc.finished]
  obtain ⟨other, source, present, name, file⟩ := turns.complete tid put found returned
  refine ⟨other, source, present, name, ?_⟩
  rw [CacheStoreModel.get, file]
  exact parse_entry (turns.small other source present)

end Runs

instance inTurnDecidable [Fintype Tid] (s : Puts Tid) : ∀ action, Decidable (InTurn s action)
  | .call _ _ _ => inferInstanceAs (Decidable True)
  | .step tid => inferInstanceAs (Decidable (∀ put ∈ s.put tid, put.pc = .opening →
      ∀ other, writes (s.put other) put.key = false))

def fiveSteps (tid : Bool) : List (Action Bool) := List.replicate 5 (.step tid)

def putTwice : List (Action Bool) :=
  [.call true "key" [7], .call false "key" [8]] ++ fiveSteps true ++ fiveSteps false

theorem puts_in_turn_safe_twice :
    Safe ((runCalls step (fun s action => FitsHeader action ∧ InTurn s action)
      (create Bool (Directory.empty String)) putTwice).get (by decide +kernel)) :=
  puts_in_turn_safe (reaches_of_run_get putTwice (by decide +kernel))

/-- Both puts of a key have opened the temporary file before the first renames it. -/
def putTogether : List (Action Bool) :=
  [.call true "key" [7], .call false "key" [8], .step true, .step false] ++
    List.replicate 4 (.step true) ++ List.replicate 4 (.step false)

theorem puts_together_throw :
    ∃ s : Puts Bool,
      Reached (fun _ action => FitsHeader action) (Directory.empty String) s ∧ ¬Safe s := by
  refine ⟨_, reaches_of_run_get putTogether (by decide +kernel), fun safe => ?_⟩
  refine safe.1 false { key := "key", bin := [8], pc := .threw } ?_ rfl
  decide +kernel

end AmpFormal.CacheStoreThreads
