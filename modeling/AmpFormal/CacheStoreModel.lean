import AmpFormal.FileDirectory
import Mathlib.Algebra.Group.Nat.Defs
import Mathlib.Data.List.TakeWhile

/-!
# The disk cache

A transcription of `CacheStore` over the files of its root directory: the packed
header, the checksum over the payload, `get`, and `put` through a temporary file.
The fields of the header are in little-endian order, as on the machines the code
is built for. Names are compared as strings, which is what a path does for a key
without a path separator. Failures of the device are left out; the exception of a
rename without a source is `none`.
-/

namespace AmpFormal.CacheStoreModel

open AmpFormal.FileDirectory

set_option autoImplicit false

def kMagic : Bytes := [0x55, 0x58, 0x4c, 0x43]

def kVersion : UInt32 := 1

def le32 (value : UInt32) : Bytes :=
  [UInt8.ofNat value.toNat, UInt8.ofNat (value.toNat / 256), UInt8.ofNat (value.toNat / 65536),
    UInt8.ofNat (value.toNat / 16777216)]

def readLe32 : Bytes → UInt32
  | [b0, b1, b2, b3] =>
      UInt32.ofNat (b0.toNat + 256 * b1.toNat + 65536 * b2.toNat + 16777216 * b3.toNat)
  | _ => 0

structure BinHeader where
  magic : Bytes
  version : UInt32
  payloadCrc : UInt32
  payloadLen : UInt32
  deriving DecidableEq, Repr

namespace BinHeader

/-- `sizeof(BinHeader)` -/
def size : Nat := 16

def toBytes (hdr : BinHeader) : Bytes :=
  hdr.magic ++ le32 hdr.version ++ le32 hdr.payloadCrc ++ le32 hdr.payloadLen

def ofBytes (file : Bytes) : BinHeader where
  magic := file.take 4
  version := readLe32 ((file.drop 4).take 4)
  payloadCrc := readLe32 ((file.drop 8).take 4)
  payloadLen := readLe32 ((file.drop 12).take 4)

end BinHeader

def fnv1a32 (d : Bytes) : UInt32 :=
  d.foldl (fun h byte => (h ^^^ byte.toUInt32) * 16777619) 2166136261

def nul : Char := Char.ofNat 0

/-- What `c_str()` gives a system call of a name. -/
def cString (name : String) : String :=
  String.ofList (name.toList.takeWhile fun char => char ≠ nul)

def binName (key : String) : String := cString (key ++ ".bin")

def tmpName (key : String) : String := cString (key ++ ".tmp")

/-- A key that is one component of a path and reaches the file system whole. -/
def Plain (key : String) : Prop := ∀ char ∈ key.toList, char ≠ '/' ∧ char ≠ nul

instance plainDecidable (key : String) : Decidable (Plain key) :=
  List.decidableBAll (fun char => char ≠ '/' ∧ char ≠ nul) key.toList

def header (bin : Bytes) : BinHeader where
  magic := kMagic
  version := kVersion
  payloadCrc := fnv1a32 bin
  payloadLen := UInt32.ofNat bin.length

def entryBytes (bin : Bytes) : Bytes := (header bin).toBytes ++ bin

def parse (file : Bytes) : Option Bytes :=
  if file.length < BinHeader.size then none
  else
    let hdr := BinHeader.ofBytes file
    -- reject stale entries or corrupted files
    if hdr.magic ≠ kMagic ∨ hdr.version ≠ kVersion then none
    else
      let bin := (file.drop BinHeader.size).take hdr.payloadLen.toNat
      if bin.length < hdr.payloadLen.toNat then none
      else if fnv1a32 bin ≠ hdr.payloadCrc then none
      else some bin

def get (dir : Directory String) (key : String) : Option Bytes :=
  (dir.read (binName key)).bind parse

def put (dir : Directory String) (key : String) (bin : Bytes) : Option (Directory String) :=
  let (dir, f) := dir.openTruncate (tmpName key)
  let dir := dir.writeAt f 0 (header bin).toBytes
  let dir := dir.writeAt f BinHeader.size bin
  dir.rename (tmpName key) (binName key)

/-- The entries that a `directory_iterator` goes through, in whatever order. -/
structure Lists (dir : Directory String) (names : List String) : Prop where
  nodup : names.Nodup
  listed : ∀ name, name ∈ names ↔ (dir.entry name).isSome = true

/-- `path::extension()` of a file name: what follows the last period, with the
period; nothing when no other character stands before it or the name is `..`. -/
def extension (name : String) : String :=
  let reversed := name.toList.reverse
  let stem := (reversed.dropWhile fun char => char ≠ '.').drop 1
  if name = ".." ∨ stem = [] then ""
  else String.ofList ('.' :: (reversed.takeWhile fun char => char ≠ '.').reverse)

/-- `CacheStore::size`, over the entries of the directory. -/
def size (names : List String) : Nat := names.countP fun name => extension name == ".bin"

/-! ## Names and headers -/

theorem c_string_of_plain {key suffix : String} (plain : Plain key)
    (clean : Plain suffix) : cString (key ++ suffix) = key ++ suffix := by
  have whole : ∀ char ∈ (key ++ suffix).toList, decide (char ≠ nul) = true := by
    intro char member
    rw [String.toList_append, List.mem_append] at member
    rw [decide_eq_true_iff]
    rcases member with inKey | inSuffix
    · exact (plain char inKey).2
    · exact (clean char inSuffix).2
  rw [cString, List.takeWhile_eq_self_iff.mpr whole, String.ofList_toList]

theorem bin_name_of_plain {key : String} (plain : Plain key) : binName key = key ++ ".bin" :=
  c_string_of_plain plain (by decide)

theorem tmp_name_of_plain {key : String} (plain : Plain key) : tmpName key = key ++ ".tmp" :=
  c_string_of_plain plain (by decide)

theorem bin_name_injective {key other : String} (plain : Plain key) (otherPlain : Plain other)
    (same : binName key = binName other) : key = other := by
  rw [bin_name_of_plain plain, bin_name_of_plain otherPlain] at same
  have chars := congrArg String.toList same
  simp only [String.toList_append, List.append_cancel_right_eq] at chars
  exact String.toList_inj.mp chars

theorem tmp_name_injective {key other : String} (plain : Plain key) (otherPlain : Plain other)
    (same : tmpName key = tmpName other) : key = other := by
  rw [tmp_name_of_plain plain, tmp_name_of_plain otherPlain] at same
  have chars := congrArg String.toList same
  simp only [String.toList_append, List.append_cancel_right_eq] at chars
  exact String.toList_inj.mp chars

theorem bin_name_extension {key : String} (plain : Plain key) (nonempty : key ≠ "") :
    extension (binName key) = ".bin" := by
  have stem : key.toList.reverse ≠ [] := by
    intro blank
    exact nonempty (String.toList_eq_nil_iff.mp (List.reverse_eq_nil_iff.mp blank))
  rw [bin_name_of_plain plain]
  have special : key ++ ".bin" ≠ ".." := by
    intro same
    have chars := congrArg (fun name => name.toList.reverse) same
    simp at chars
  simp [extension, special, stem]

example : extension ".bin" = "" ∧ extension "a.tmp" = ".tmp" := by decide

/-- No temporary file of a plain key is taken for an entry of another. -/
theorem tmp_name_ne_bin_name {key other : String} (plain : Plain key) (otherPlain : Plain other) :
    tmpName key ≠ binName other := by
  intro same
  rw [tmp_name_of_plain plain, bin_name_of_plain otherPlain] at same
  have chars := congrArg String.toList same
  simp only [String.toList_append] at chars
  have suffix := List.append_inj_right' chars (by decide)
  exact absurd suffix (by decide)

/-- Behind a NUL the keys, and even the two names of one key, are one file. -/
example : binName "a\x00b" = "a" ∧ tmpName "a\x00c" = "a" := by decide

theorem read_le32_le32 (value : UInt32) : readLe32 (le32 value) = value := by
  have bound := value.toNat_lt
  apply UInt32.toNat_inj.mp
  simp only [le32, readLe32, UInt8.toNat_ofNat', UInt32.toNat_ofNat']
  omega

theorem header_length (bin : Bytes) : (header bin).toBytes.length = BinHeader.size := rfl

theorem header_of_entry (bin : Bytes) : BinHeader.ofBytes (entryBytes bin) = header bin := by
  have fields : BinHeader.ofBytes (entryBytes bin) =
      { magic := kMagic
        version := readLe32 (le32 kVersion)
        payloadCrc := readLe32 (le32 (fnv1a32 bin))
        payloadLen := readLe32 (le32 (UInt32.ofNat bin.length)) } := rfl
  rw [fields, read_le32_le32, read_le32_le32, read_le32_le32]
  rfl

theorem entry_payload (bin : Bytes) : (entryBytes bin).drop BinHeader.size = bin :=
  List.drop_left' (header_length bin)

theorem parse_entry_append {bin : Bytes} (small : bin.length < 2 ^ 32) (rest : Bytes) :
    parse (entryBytes bin ++ rest) = some bin := by
  have len : (UInt32.ofNat bin.length).toNat = bin.length := UInt32.toNat_ofNat_of_lt' small
  have long : ¬(entryBytes bin ++ rest).length < BinHeader.size := by
    simp [entryBytes, header_length]
  have fields : BinHeader.ofBytes (entryBytes bin ++ rest) = BinHeader.ofBytes (entryBytes bin) :=
    rfl
  have payload : (entryBytes bin ++ rest).drop BinHeader.size = bin ++ rest := by
    rw [entryBytes, List.append_assoc]
    exact List.drop_left' (header_length bin)
  simp only [parse, if_neg long, fields, header_of_entry, payload]
  simp [header, len]

theorem parse_entry {bin : Bytes} (small : bin.length < 2 ^ 32) :
    parse (entryBytes bin) = some bin := by
  rw [← List.append_nil (entryBytes bin)]
  exact parse_entry_append small []

structure Accepts (file bin : Bytes) : Prop where
  long : BinHeader.size ≤ file.length
  magic : (BinHeader.ofBytes file).magic = kMagic
  version : (BinHeader.ofBytes file).version = kVersion
  payload : bin = (file.drop BinHeader.size).take (BinHeader.ofBytes file).payloadLen.toNat
  complete : (BinHeader.ofBytes file).payloadLen.toNat ≤ bin.length
  intact : fnv1a32 bin = (BinHeader.ofBytes file).payloadCrc

theorem parse_accepts {file bin : Bytes} (parsed : parse file = some bin) : Accepts file bin := by
  unfold parse at parsed
  split at parsed
  case isTrue => cases parsed
  case isFalse long =>
    dsimp only at parsed
    split at parsed
    case isTrue => cases parsed
    case isFalse current =>
      split at parsed
      case isTrue => cases parsed
      case isFalse complete =>
        split at parsed
        case isTrue => cases parsed
        case isFalse intact =>
          obtain ⟨magic, version⟩ := not_or.mp current
          obtain rfl := Option.some.inj parsed
          exact ⟨Nat.not_lt.mp long, not_not.mp magic, not_not.mp version, rfl,
            Nat.not_lt.mp complete, not_not.mp intact⟩

theorem parse_entry_length {bin read : Bytes} (parsed : parse (entryBytes bin) = some read) :
    read.length ≤ bin.length := by
  rw [(parse_accepts parsed).payload, entry_payload]
  exact List.length_take_le' _ _

/-! ## One put at a time -/

/-- The temporary file of a key, on a handle, with what was written to it so far. The
other files are those of `dir`. -/
structure Staged (dir staged : Directory String) (key : String) (f : Nat) (content : Bytes) :
    Prop where
  handle : staged.entry (tmpName key) = some f
  written : staged.content f = content
  others : ∀ name, name ≠ tmpName key → staged.read name = dir.read name

theorem staged_self {dir staged : Directory String} {key : String} {f : Nat} {content : Bytes}
    (prior : Staged dir staged key f content) : Staged staged staged key f content :=
  ⟨prior.handle, prior.written, fun _ _ => rfl⟩

theorem open_staged (dir : Directory String) (key : String) :
    Staged dir (dir.openTruncate (tmpName key)).1 key (dir.openTruncate (tmpName key)).2 [] where
  handle := dir.open_truncate_entry (tmpName key)
  written := dir.open_truncate_content (tmpName key)
  others := fun _ different => dir.open_truncate_read_of_ne (tmpName key) different

theorem write_staged {dir staged : Directory String} {key : String} {f : Nat} {content : Bytes}
    (prior : Staged dir staged key f content) (bytes : Bytes) :
    Staged dir (staged.writeAt f content.length bytes) key f (content ++ bytes) where
  handle := prior.handle
  written := by
    rw [Directory.write_at_content, prior.written]
    exact overwrite_end content bytes
  others := by
    intro name different
    rw [Directory.write_at_read_of_ne prior.handle different]
    exact prior.others name different

theorem rename_staged {dir staged : Directory String} {key : String} {f : Nat} {content : Bytes}
    (prior : Staged dir staged key f content) :
    ∃ after, staged.rename (tmpName key) (binName key) = some after ∧ ∀ name, after.read name =
      if name = binName key then some content
      else if name = tmpName key then none else dir.read name := by
  cases renamed : staged.rename (tmpName key) (binName key) with
  | none => simp [Directory.rename_none_iff, prior.handle] at renamed
  | some after =>
      refine ⟨after, rfl, ?_⟩
      intro name
      rw [Directory.rename_read renamed name,
        Directory.read_of_entry prior.handle, prior.written]
      by_cases isTmp : name = tmpName key
      · simp only [isTmp, if_true]
      · rw [prior.others name isTmp]

/-- `put` leaves a complete file under the name of the key and no temporary one. -/
theorem put_read (dir : Directory String) (key : String) (bin : Bytes) :
    ∃ after, put dir key bin = some after ∧ ∀ name, after.read name =
      if name = binName key then some (entryBytes bin)
      else if name = tmpName key then none else dir.read name := by
  have opened := open_staged dir key
  have withHeader := write_staged opened (header bin).toBytes
  rw [List.nil_append, List.length_nil] at withHeader
  have complete := write_staged withHeader bin
  exact rename_staged complete

theorem put_isSome (dir : Directory String) (key : String) (bin : Bytes) :
    ∃ after, put dir key bin = some after := by
  obtain ⟨after, done, _⟩ := put_read dir key bin
  exact ⟨after, done⟩

section Put

variable {dir after : Directory String} {key : String} {bin : Bytes}

theorem put_own_file (done : put dir key bin = some after) :
    after.read (binName key) = some (entryBytes bin) := by
  obtain ⟨result, same, read⟩ := put_read dir key bin
  rw [done] at same
  cases same
  rw [read, if_pos rfl]

theorem put_bin_file (done : put dir key bin = some after) (plain : Plain key) {other : String}
    (otherPlain : Plain other) :
    after.read (binName other) =
      if other = key then some (entryBytes bin) else dir.read (binName other) := by
  obtain ⟨result, same, read⟩ := put_read dir key bin
  rw [done] at same
  cases same
  rw [read]
  by_cases hit : other = key
  · rw [hit, if_pos rfl, if_pos rfl]
  · have apart : binName other ≠ binName key :=
      fun same => hit (bin_name_injective otherPlain plain same)
    rw [if_neg apart, if_neg (Ne.symm (tmp_name_ne_bin_name plain otherPlain)), if_neg hit]

theorem put_get (done : put dir key bin = some after) (plain : Plain key) {other : String}
    (otherPlain : Plain other) :
    get after other = if other = key then parse (entryBytes bin) else get dir other := by
  unfold get
  rw [put_bin_file done plain otherPlain]
  by_cases hit : other = key
  · rw [if_pos hit, if_pos hit]
    rfl
  · rw [if_neg hit, if_neg hit]

theorem put_get_self (done : put dir key bin = some after) (small : bin.length < 2 ^ 32) :
    get after key = some bin := by
  rw [get, put_own_file done]
  exact parse_entry small

/-- Whatever the names of the keys, a get finds what was put or what it found before. -/
theorem put_get_or (done : put dir key bin = some after) (other : String) :
    get after other = parse (entryBytes bin) ∨ get after other = none ∨
      get after other = get dir other := by
  obtain ⟨result, same, read⟩ := put_read dir key bin
  rw [done] at same
  cases same
  unfold get
  rw [read]
  split
  · exact .inl rfl
  · split
    · exact .inr (.inl rfl)
    · exact .inr (.inr rfl)

end Put

example : get (Directory.empty String) "a" = none := rfl

end AmpFormal.CacheStoreModel
