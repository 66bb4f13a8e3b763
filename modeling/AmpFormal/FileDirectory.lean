import Mathlib.Logic.Function.Basic
import Mathlib.Data.Option.Basic

/-!
# Files under names

A directory maps names to files, and a file is a number with its bytes. A handle
is the number of the file it was opened on, so it keeps referring to that file
when the name is renamed or opened anew. Numbers are never used twice, and no two
names lead to one file. Lookups are described by `read` alone; how a file is
reached through a handle is described by `entry` and `content`.
-/

namespace AmpFormal.FileDirectory

set_option autoImplicit false

abbrev Bytes := List UInt8

structure Directory (Name : Type) where
  entry : Name → Option Nat
  content : Nat → Bytes
  fresh : Nat
  allocated : ∀ name file, entry name = some file → file < fresh
  unshared : ∀ name other file, entry name = some file → entry other = some file → name = other

/-- Writes `bytes` over `old` at `offset`; a gap is filled with zeros, and writing
nothing leaves the file as it is. -/
def overwrite (old : Bytes) (offset : Nat) : Bytes → Bytes
  | [] => old
  | bytes => old.take offset ++ List.replicate (offset - old.length) 0 ++ bytes ++
      old.drop (offset + bytes.length)

theorem overwrite_end (old bytes : Bytes) : overwrite old old.length bytes = old ++ bytes := by
  cases bytes with
  | nil => simp [overwrite]
  | cons first rest =>
      have beyond : old.drop (old.length + (first :: rest).length) = [] :=
        List.drop_of_length_le (by omega)
      simp only [overwrite, beyond, List.take_length, Nat.sub_self, List.replicate_zero,
        List.append_nil]

variable {Name : Type}

namespace Directory

def empty (Name : Type) : Directory Name where
  entry := fun _ => none
  content := fun _ => []
  fresh := 0
  allocated := by simp
  unshared := by simp

/-- The bytes of the file that a name leads to. -/
def read (dir : Directory Name) (name : Name) : Option Bytes :=
  (dir.entry name).map dir.content

def writeAt (dir : Directory Name) (file offset : Nat) (bytes : Bytes) : Directory Name :=
  { dir with
    content := Function.update dir.content file (overwrite (dir.content file) offset bytes) }

section Lookup

variable {dir : Directory Name} {name : Name} {file : Nat}

theorem read_of_entry (found : dir.entry name = some file) :
    dir.read name = some (dir.content file) := by
  rw [read, found]
  rfl

@[simp]
theorem write_at_entry (offset : Nat) (bytes : Bytes) :
    (dir.writeAt file offset bytes).entry = dir.entry := rfl

@[simp]
theorem write_at_content (offset : Nat) (bytes : Bytes) :
    (dir.writeAt file offset bytes).content file = overwrite (dir.content file) offset bytes :=
  Function.update_self _ _ _

theorem write_at_read (found : dir.entry name = some file) (offset : Nat) (bytes : Bytes) :
    (dir.writeAt file offset bytes).read name =
      some (overwrite (dir.content file) offset bytes) := by
  have kept : (dir.writeAt file offset bytes).entry name = some file := found
  rw [read_of_entry kept, write_at_content]

theorem write_at_nil (dir : Directory Name) (file offset : Nat) :
    dir.writeAt file offset [] = dir := by
  rw [writeAt, overwrite, Function.update_eq_self]

theorem write_at_append (blank : dir.content file = []) (first second : Bytes) :
    (dir.writeAt file 0 first).writeAt file first.length second =
      dir.writeAt file 0 (first ++ second) := by
  have start : ∀ bytes, overwrite [] 0 bytes = bytes := overwrite_end []
  simp only [writeAt, Function.update_self, Function.update_idem, blank, start, overwrite_end]

/-- A write is not seen under the other names. -/
theorem write_at_read_of_ne (found : dir.entry name = some file) {other : Name}
    (different : other ≠ name) (offset : Nat) (bytes : Bytes) :
    (dir.writeAt file offset bytes).read other = dir.read other := by
  unfold read
  rw [write_at_entry]
  cases target : dir.entry other with
  | none => rfl
  | some reached =>
      have apart : reached ≠ file := by
        rintro rfl
        exact different (dir.unshared other name reached target found)
      simp only [Option.map_some, writeAt, Function.update_of_ne apart]

end Lookup

variable [DecidableEq Name]

/-- Opens a name for writing: an existing file is truncated, a missing one created. -/
def openTruncate (dir : Directory Name) (name : Name) : Directory Name × Nat :=
  match dir.entry name with
  | some file => ({ dir with content := Function.update dir.content file [] }, file)
  | none =>
      ({ entry := Function.update dir.entry name (some dir.fresh)
         content := Function.update dir.content dir.fresh []
         fresh := dir.fresh + 1
         allocated := by
           intro other file found
           by_cases same : other = name
           · rw [same, Function.update_self] at found
             cases found
             exact Nat.lt_succ_self _
           · rw [Function.update_of_ne same] at found
             exact Nat.lt_succ_of_lt (dir.allocated other file found)
         unshared := by
           have below : ∀ other, other ≠ name →
               Function.update dir.entry name (some dir.fresh) other ≠ some dir.fresh := by
             intro other same found
             rw [Function.update_of_ne same] at found
             exact Nat.lt_irrefl _ (dir.allocated other _ found)
           intro left right file leftFound rightFound
           by_cases leftSame : left = name
           · by_cases rightSame : right = name
             · rw [leftSame, rightSame]
             · rw [leftSame, Function.update_self] at leftFound
               cases leftFound
               exact absurd rightFound (below right rightSame)
           · by_cases rightSame : right = name
             · rw [rightSame, Function.update_self] at rightFound
               cases rightFound
               exact absurd leftFound (below left leftSame)
             · rw [Function.update_of_ne leftSame] at leftFound
               rw [Function.update_of_ne rightSame] at rightFound
               exact dir.unshared left right file leftFound rightFound }, dir.fresh)

/-- Moves a name, over a file that may already have the new one; fails when the
old name leads nowhere. -/
def rename (dir : Directory Name) (old new : Name) : Option (Directory Name) :=
  match target : dir.entry old with
  | none => none
  | some file => some
      { dir with
        entry := Function.update (Function.update dir.entry old none) new (some file)
        allocated := by
          intro name reached found
          by_cases isNew : name = new
          · rw [isNew, Function.update_self] at found
            cases found
            exact dir.allocated old file target
          · by_cases isOld : name = old
            · rw [isOld, Function.update_of_ne (isOld ▸ isNew), Function.update_self] at found
              cases found
            · rw [Function.update_of_ne isNew, Function.update_of_ne isOld] at found
              exact dir.allocated name reached found
        unshared := by
          have kept : ∀ name reached, name ≠ new →
              Function.update (Function.update dir.entry old none) new (some file) name =
                some reached → name ≠ old ∧ dir.entry name = some reached := by
            intro name reached isNew found
            rw [Function.update_of_ne isNew] at found
            by_cases isOld : name = old
            · rw [isOld, Function.update_self] at found
              cases found
            · rw [Function.update_of_ne isOld] at found
              exact ⟨isOld, found⟩
          intro left right reached leftFound rightFound
          by_cases leftNew : left = new
          · by_cases rightNew : right = new
            · rw [leftNew, rightNew]
            · obtain ⟨rightOld, rightKept⟩ := kept right reached rightNew rightFound
              rw [leftNew, Function.update_self] at leftFound
              cases leftFound
              exact absurd (dir.unshared right old file rightKept target) rightOld
          · obtain ⟨leftOld, leftKept⟩ := kept left reached leftNew leftFound
            by_cases rightNew : right = new
            · rw [rightNew, Function.update_self] at rightFound
              cases rightFound
              exact absurd (dir.unshared left old file leftKept target) leftOld
            · exact dir.unshared left right reached leftKept
                (kept right reached rightNew rightFound).2 }

section Open

variable (dir : Directory Name) (name : Name)

theorem open_truncate_entry : (dir.openTruncate name).1.entry name = some (dir.openTruncate name).2 := by
  unfold openTruncate
  split
  case h_1 file found => exact found
  case h_2 => exact Function.update_self _ _ _

theorem open_truncate_content : (dir.openTruncate name).1.content (dir.openTruncate name).2 = [] := by
  unfold openTruncate
  split <;> exact Function.update_self _ _ _

theorem open_truncate_entry_of_ne {other : Name} (different : other ≠ name) :
    (dir.openTruncate name).1.entry other = dir.entry other := by
  unfold openTruncate
  split
  case h_1 => rfl
  case h_2 => exact Function.update_of_ne different _ _

theorem open_truncate_read_of_ne {other : Name} (different : other ≠ name) :
    (dir.openTruncate name).1.read other = dir.read other := by
  unfold read
  rw [open_truncate_entry_of_ne dir name different]
  cases target : dir.entry other with
  | none => rfl
  | some reached =>
      simp only [Option.map_some, Option.some.injEq]
      unfold openTruncate
      split
      case h_1 file found =>
        refine Function.update_of_ne ?_ _ _
        rintro rfl
        exact different (dir.unshared other name reached target found)
      case h_2 =>
        exact Function.update_of_ne (Nat.ne_of_lt (dir.allocated other reached target)) _ _

end Open

section Rename

variable {dir after : Directory Name} {old new : Name} {file : Nat}

theorem rename_none_iff : dir.rename old new = none ↔ dir.entry old = none := by
  unfold rename
  split
  case h_1 missing => simp [missing]
  case h_2 file found => simp [found]

theorem rename_entry (found : dir.entry old = some file) (renamed : dir.rename old new = some after) :
    after.entry = Function.update (Function.update dir.entry old none) new (some file) ∧
      after.content = dir.content := by
  unfold rename at renamed
  split at renamed
  case h_1 missing => cases renamed
  case h_2 target reached =>
    rw [found] at reached
    cases reached
    cases renamed
    exact ⟨rfl, rfl⟩

/-- What can be read after a rename, also of a name to itself. -/
theorem rename_read (renamed : dir.rename old new = some after) (name : Name) :
    after.read name = if name = new then dir.read old else if name = old then none
      else dir.read name := by
  cases found : dir.entry old with
  | none => simp [rename_none_iff.mpr found] at renamed
  | some file =>
      obtain ⟨entry, content⟩ := rename_entry found renamed
      unfold read
      rw [entry, content]
      by_cases isNew : name = new
      · simp [isNew, found]
      · by_cases isOld : name = old
        · rw [isOld] at isNew ⊢
          simp [isNew]
        · simp [isNew, isOld]

end Rename

end Directory

end AmpFormal.FileDirectory
