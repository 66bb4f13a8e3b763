import AmpFormal.CacheAsyncMoves
import AmpFormal.CacheStoreCrash

/-!
# The asynchronous cache over its files

`CacheStoreAsync` with the two calls it makes on `CacheStore` taken apart: a `get`
looks for the file, opens it, reads the header and reads the payload, while the
writer opens a temporary file, fills it byte by byte, closes and renames it. The
process may stop at any point, and the next one opens the same directory.
-/

namespace AmpFormal.CacheAsyncFiles

open AmpFormal.FileDirectory AmpFormal.CacheStoreModel AmpFormal.TransitionRuns
open AmpFormal.CacheAsyncModel AmpFormal.CacheAsyncModel.CacheStoreAsync

set_option autoImplicit false

abbrev Job := String × Bytes

/-- How far `CacheStore::get` has come. A handle keeps referring to its file. -/
inductive Reading where
  | found
  | opened (file : Nat)
  | accepted (file : Nat) (hdr : BinHeader)
  deriving DecidableEq, Repr

/-- The files stand for the `disk` of `memory`, which stays empty. -/
structure FileCache (Tid : Type) where
  memory : CacheStoreAsync Tid String Bytes
  files : CacheStoreCrash.State
  reading : Tid → Option Reading
  /-- The jobs pushed so far, without those that a stop has lost. -/
  queued : List Job
  /-- The puts called so far. -/
  called : List Job

inductive Move (Tid : Type) where
  | memory (action : Action Tid String Bytes)
  | read (tid : Tid)
  | write
  | stop
  deriving DecidableEq, Repr

def usesDisk {Tid : Type} (s : CacheStoreAsync Tid String Bytes) :
    Action Tid String Bytes → Bool
  | .client tid => match (s.client tid).pc with
      | .getDisk _ => true
      | _ => false
  | .writer => match s.writer with
      | .writing _ => true
      | _ => false
  | .call .. | .notify .. => false

def pushes {Tid : Type} (s : CacheStoreAsync Tid String Bytes) :
    Action Tid String Bytes → List Job
  | .client tid => match (s.client tid).pc with
      | .putQueue key bin _ => [(key, bin)]
      | _ => []
  | _ => []

def calls {Tid : Type} : Action Tid String Bytes → List Job
  | .call _ (.put key bin) => [(key, bin)]
  | _ => []

def callKeys {Tid : Type} : Action Tid String Bytes → List String
  | .call _ (.get key) | .call _ (.put key _) => [key]
  | _ => []

def putMove (files : CacheStoreCrash.State) (job : Job) : CacheStoreCrash.Move :=
  match files.putting with
  | none => .openTmp job.1 job.2
  | some putting =>
      if putting.written < (entryBytes putting.bin).length then .append
      else if putting.closed then .rename
      else .close

namespace FileCache

variable {Tid : Type}

def start (Tid : Type) (dir : Directory String) : FileCache Tid where
  memory := create Tid fun _ => none
  files := CacheStoreCrash.start dir
  reading := fun _ => none
  queued := []
  called := []

variable [DecidableEq Tid]

def readOn (s : FileCache Tid) (tid : Tid) (reading : Reading) : FileCache Tid :=
  { s with reading := Function.update s.reading tid (some reading) }

/-- `disk_.get(key)` has returned. -/
def answer (s : FileCache Tid) (tid : Tid) (key : String) (bin : Option Bytes) : FileCache Tid :=
  { s with
    memory := match bin with
      | some bin => s.memory.goto tid (.getPromote key bin)
      | none => s.memory.finish tid (.get key) none
    reading := Function.update s.reading tid none }

def readStep (s : FileCache Tid) (tid : Tid) : Option (FileCache Tid) :=
  match (s.memory.client tid).pc with
  | .getDisk key =>
      match s.reading tid with
      | none =>
          if (s.files.dir.entry (binName key)).isNone then some (s.answer tid key none)
          else some (s.readOn tid .found)
      | some .found =>
          match s.files.dir.entry (binName key) with
          | none => some (s.answer tid key none)
          | some file => some (s.readOn tid (.opened file))
      | some (.opened file) =>
          if (s.files.dir.content file).length < BinHeader.size then some (s.answer tid key none)
          else
            let hdr := BinHeader.ofBytes (s.files.dir.content file)
            if hdr.magic ≠ kMagic ∨ hdr.version ≠ kVersion then some (s.answer tid key none)
            else some (s.readOn tid (.accepted file hdr))
      | some (.accepted file hdr) =>
          let bin := ((s.files.dir.content file).drop BinHeader.size).take hdr.payloadLen.toNat
          if bin.length < hdr.payloadLen.toNat then some (s.answer tid key none)
          else if fnv1a32 bin ≠ hdr.payloadCrc then some (s.answer tid key none)
          else some (s.answer tid key (some bin))
  | _ => none

/-- The next step of `disk_.put(job.key, job.bin)`. -/
def writeStep (s : FileCache Tid) : Option (FileCache Tid) :=
  match s.memory.writer with
  | .writing job =>
      (CacheStoreCrash.step s.files (putMove s.files job)).map fun files =>
        { s with
          files
          memory := if files.putting = none then { s.memory with writer := .written }
            else s.memory }
  | _ => none

def step (s : FileCache Tid) : Move Tid → Option (FileCache Tid)
  | .memory action =>
      if usesDisk s.memory action then none
      else (s.memory.step action).map fun memory =>
        { s with
          memory
          queued := s.queued ++ pushes s.memory action
          called := s.called ++ calls action }
  | .read tid => s.readStep tid
  | .write => s.writeStep
  | .stop => (CacheStoreCrash.step s.files .stop).map fun files =>
      { s with
        memory := create Tid fun _ => none
        files
        reading := fun _ => none
        queued := files.renamed }

/-- The keys are plain and the payloads fit the length field. -/
def Fitting (_ : FileCache Tid) (move : Move Tid) : Prop :=
  match move with
  | .memory action =>
      (∀ key ∈ callKeys action, Plain key) ∧ ∀ job ∈ calls action, job.2.length < 2 ^ 32
  | _ => True

instance (s : FileCache Tid) (move : Move Tid) : Decidable (Fitting s move) :=
  match move with
  | .memory action => inferInstanceAs (Decidable ((∀ key ∈ callKeys action, Plain key) ∧
      ∀ job ∈ calls action, job.2.length < 2 ^ 32))
  | .read _ | .write | .stop => inferInstanceAs (Decidable True)

/-- The states of all runs over a directory. -/
abbrev Reached (dir : Directory String) (s : FileCache Tid) : Prop :=
  Reaches step Fitting (start Tid dir) s

end FileCache

/-! ## The steps on the files -/

/-- A step of the put of a job renames its file or leaves it underway. -/
inductive PutStep (files after : CacheStoreCrash.State) (job : Job) : Prop
  | underway (putting : CacheStoreCrash.Putting) (running : after.putting = some putting)
      (same : (putting.key, putting.bin) = job) (renamed : after.renamed = files.renamed)
  | renamed (done : after.putting = none) (renamed : after.renamed = files.renamed ++ [job])

theorem put_step {files after : CacheStoreCrash.State} {job : Job}
    (same : ∀ putting, files.putting = some putting → (putting.key, putting.bin) = job)
    (moved : CacheStoreCrash.step files (putMove files job) = some after) :
    PutStep files after job := by
  unfold putMove at moved
  cases running : files.putting with
  | none =>
      simp only [running, CacheStoreCrash.step] at moved
      obtain rfl := Option.some.inj moved
      exact .underway _ rfl rfl rfl
  | some putting =>
      simp only [running] at moved
      split at moved
      case isTrue inside =>
        simp only [CacheStoreCrash.step, running, List.getElem?_eq_getElem inside] at moved
        obtain rfl := Option.some.inj moved
        exact .underway _ rfl (same putting running) rfl
      case isFalse =>
        split at moved
        case isTrue closed =>
          simp only [CacheStoreCrash.step, running, closed, if_true] at moved
          obtain ⟨dir, renamed, rfl⟩ := Option.map_eq_some_iff.mp moved
          exact .renamed rfl (by rw [same putting running])
        case isFalse =>
          simp only [CacheStoreCrash.step, running] at moved
          split at moved
          case isFalse => cases moved
          case isTrue =>
            obtain rfl := Option.some.inj moved
            exact .underway _ rfl (same putting running) rfl

inductive ReadMoves {Tid : Type} [DecidableEq Tid] (s : FileCache Tid) (tid : Tid) (key : String) :
    FileCache Tid → Prop
  | missed : ReadMoves s tid key (s.answer tid key none)
  | found : ReadMoves s tid key (s.readOn tid .found)
  | opened (file : Nat) (entry : s.files.dir.entry (binName key) = some file) :
      ReadMoves s tid key (s.readOn tid (.opened file))
  | accepted (file : Nat) (opened : s.reading tid = some (.opened file))
      (long : BinHeader.size ≤ (s.files.dir.content file).length)
      (magic : (BinHeader.ofBytes (s.files.dir.content file)).magic = kMagic)
      (version : (BinHeader.ofBytes (s.files.dir.content file)).version = kVersion) :
      ReadMoves s tid key
        (s.readOn tid (.accepted file (BinHeader.ofBytes (s.files.dir.content file))))
  | answered (file : Nat) (hdr : BinHeader) (bin : Bytes)
      (accepted : s.reading tid = some (.accepted file hdr))
      (payload : bin = ((s.files.dir.content file).drop BinHeader.size).take hdr.payloadLen.toNat)
      (complete : hdr.payloadLen.toNat ≤ bin.length) (intact : fnv1a32 bin = hdr.payloadCrc) :
      ReadMoves s tid key (s.answer tid key (some bin))

theorem read_moves {Tid : Type} [DecidableEq Tid] {s after : FileCache Tid} {tid : Tid}
    (moved : s.readStep tid = some after) :
    ∃ key, (s.memory.client tid).pc = .getDisk key ∧ ReadMoves s tid key after := by
  unfold FileCache.readStep at moved
  split at moved
  case h_2 => cases moved
  case h_1 key pc =>
    refine ⟨key, pc, ?_⟩
    split at moved
    case h_1 =>
      split at moved
      case isTrue =>
        obtain rfl := Option.some.inj moved
        exact .missed
      case isFalse =>
        obtain rfl := Option.some.inj moved
        exact .found
    case h_2 =>
      split at moved
      case h_1 =>
        obtain rfl := Option.some.inj moved
        exact .missed
      case h_2 file entry =>
        obtain rfl := Option.some.inj moved
        exact .opened file entry
    case h_3 file opened =>
      split at moved
      case isTrue =>
        obtain rfl := Option.some.inj moved
        exact .missed
      case isFalse long =>
        dsimp only at moved
        split at moved
        case isTrue =>
          obtain rfl := Option.some.inj moved
          exact .missed
        case isFalse current =>
          obtain rfl := Option.some.inj moved
          obtain ⟨magic, version⟩ := not_or.mp current
          exact .accepted file opened (Nat.not_lt.mp long) (not_not.mp magic) (not_not.mp version)
    case h_4 file hdr accepted =>
      dsimp only at moved
      split at moved
      case isTrue =>
        obtain rfl := Option.some.inj moved
        exact .missed
      case isFalse complete =>
        split at moved
        case isTrue =>
          obtain rfl := Option.some.inj moved
          exact .missed
        case isFalse intact =>
          obtain rfl := Option.some.inj moved
          exact .answered file hdr _ accepted rfl (Nat.not_lt.mp complete) (not_not.mp intact)

/-! ## Files behind a handle

A file that was opened under the name of an entry is not the temporary file of any
plain key, so no put changes it, also when the name leads to another file by then. -/

structure Settled (dir : Directory String) (file : Nat) : Prop where
  allocated : file < dir.fresh
  entry : ∀ key, Plain key → dir.entry (tmpName key) ≠ some file

theorem settled_of_entry {dir : Directory String} {key : String} (plain : Plain key) {file : Nat}
    (found : dir.entry (binName key) = some file) : Settled dir file where
  allocated := dir.allocated _ file found
  entry := by
    intro other otherPlain temporary
    exact tmp_name_ne_bin_name otherPlain plain (dir.unshared _ _ file temporary found)

structure LeavesSettled (dir after : Directory String) : Prop where
  settled : ∀ file, Settled dir file → Settled after file
  content : ∀ file, Settled dir file → after.content file = dir.content file

theorem open_leaves_settled (dir : Directory String) {key : String} (plain : Plain key) :
    LeavesSettled dir (dir.openTruncate (tmpName key)).1 := by
  unfold Directory.openTruncate
  split
  case h_1 truncated found =>
    constructor
    · intro file settled
      exact ⟨settled.allocated, settled.entry⟩
    · intro file settled
      apply Function.update_of_ne
      rintro rfl
      exact settled.entry key plain found
  case h_2 missing =>
    constructor
    · intro file settled
      refine ⟨Nat.lt_succ_of_lt settled.allocated, ?_⟩
      intro other otherPlain
      by_cases same : tmpName other = tmpName key
      · simp only [same, Function.update_self, ne_eq, Option.some.injEq]
        exact Nat.ne_of_gt settled.allocated
      · simp only [Function.update_of_ne same]
        exact settled.entry other otherPlain
    · intro file settled
      exact Function.update_of_ne (Nat.ne_of_lt settled.allocated) _ _

theorem write_leaves_settled {dir : Directory String} {key : String} (plain : Plain key) {f : Nat}
    (temporary : dir.entry (tmpName key) = some f) (offset : Nat) (bytes : Bytes) :
    LeavesSettled dir (dir.writeAt f offset bytes) where
  settled := fun _ settled => ⟨settled.allocated, settled.entry⟩
  content := by
    intro file settled
    apply Function.update_of_ne
    rintro rfl
    exact settled.entry key plain temporary

theorem rename_leaves_settled {dir after : Directory String} {key : String} (plain : Plain key)
    (renamed : dir.rename (tmpName key) (binName key) = some after) :
    LeavesSettled dir after := by
  unfold Directory.rename at renamed
  split at renamed
  case h_1 => cases renamed
  case h_2 target found =>
    obtain rfl := Option.some.inj renamed
    constructor
    · intro file settled
      refine ⟨settled.allocated, ?_⟩
      intro other otherPlain
      simp only [Function.update_of_ne (tmp_name_ne_bin_name otherPlain plain)]
      by_cases same : tmpName other = tmpName key
      · simp [same]
      · simp only [Function.update_of_ne same]
        exact settled.entry other otherPlain
    · intro file _
      rfl

theorem same_leaves_settled (dir : Directory String) : LeavesSettled dir dir :=
  ⟨fun _ settled => settled, fun _ _ => rfl⟩

theorem put_leaves_settled {initial : Directory String} {files after : CacheStoreCrash.State}
    (consistent : CacheStoreCrash.Consistent initial files) {move : CacheStoreCrash.Move}
    (allowed : CacheStoreCrash.allowed files move)
    (moved : CacheStoreCrash.step files move = some after) :
    LeavesSettled files.dir after.dir := by
  cases move with
  | openTmp key bin =>
      simp only [CacheStoreCrash.step] at moved
      split at moved
      case h_1 => cases moved
      case h_2 =>
        obtain rfl := Option.some.inj moved
        exact open_leaves_settled files.dir allowed.1
  | append =>
      simp only [CacheStoreCrash.step] at moved
      split at moved
      case h_1 => cases moved
      case h_2 putting running =>
        split at moved
        case h_1 => cases moved
        case h_2 byte next =>
          obtain rfl := Option.some.inj moved
          have underway := consistent.underway putting running
          exact write_leaves_settled underway.plain underway.staged.handle _ _
  | close =>
      simp only [CacheStoreCrash.step] at moved
      split at moved
      case h_1 => cases moved
      case h_2 =>
        split at moved
        case isFalse => cases moved
        case isTrue =>
          obtain rfl := Option.some.inj moved
          exact same_leaves_settled files.dir
  | rename =>
      simp only [CacheStoreCrash.step] at moved
      split at moved
      case h_1 => cases moved
      case h_2 putting running =>
        split at moved
        case isFalse => cases moved
        case isTrue =>
          obtain ⟨dir, renamed, rfl⟩ := Option.map_eq_some_iff.mp moved
          exact rename_leaves_settled (consistent.underway putting running).plain renamed
  | stop =>
      obtain rfl := Option.some.inj moved
      exact same_leaves_settled files.dir

end AmpFormal.CacheAsyncFiles
