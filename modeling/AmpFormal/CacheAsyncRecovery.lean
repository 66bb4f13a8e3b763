import AmpFormal.CacheAsyncFiles

/-!
# What survives a stop of the asynchronous cache

The files hold a prefix of the jobs that were pushed, whatever the threads do and
wherever the process stops, and the prefix takes in all jobs that were pushed when a
flush returned. No `get` returns anything but a payload that was put under its key or
that the directory had for it at first.
-/

namespace AmpFormal.CacheAsyncRecovery

open AmpFormal.FileDirectory AmpFormal.CacheStoreModel AmpFormal.CacheStoreHistory
open AmpFormal.CacheAsyncModel AmpFormal.CacheAsyncModel.CacheStoreAsync
open AmpFormal.CacheAsyncMoves AmpFormal.CacheAsyncFiles AmpFormal.CacheAsyncFiles.FileCache
open AmpFormal.TransitionRuns

set_option autoImplicit false

variable {Tid : Type}

/-! ## Where the values in memory come from -/

section Values

variable {known pushed known' pushed' : Job → Prop}

/-- The values of a client are known, and the job of a put is pushed by the time it counts
it. A client looks for plain keys only. -/
def FitsPc (known pushed : Job → Prop) : ClientPc String Bytes → Prop
  | .getLookup key | .getDisk key => Plain key
  | .getPromote key bin | .putStore key bin | .putQueue key bin _ => known (key, bin)
  | .putCount key bin | .putNotify key bin => pushed (key, bin)
  | .idle | .flushWait => True

def FitsCall (known pushed : Job → Prop) (result : Option Bytes) : Call String Bytes → Prop
  | .get key => ∀ bin, result = some bin → known (key, bin)
  | .put key bin => pushed (key, bin)
  | .flush => True

structure Fits (known pushed : Job → Prop) (m : CacheStoreAsync Tid String Bytes) : Prop where
  l1 : ∀ key bin, m.l1 key = some bin → known (key, bin)
  clients : ∀ tid, FitsPc known pushed (m.client tid).pc
  history : ∀ record ∈ m.history, FitsCall known pushed record.result record.call

theorem fits_pc_weaken (moreKnown : ∀ job, known job → known' job)
    (morePushed : ∀ job, pushed job → pushed' job) {pc : ClientPc String Bytes}
    (fits : FitsPc known pushed pc) : FitsPc known' pushed' pc := by
  cases pc with
  | getPromote key bin => exact moreKnown _ fits
  | putStore key bin => exact moreKnown _ fits
  | putQueue key bin stamp => exact moreKnown _ fits
  | putCount key bin => exact morePushed _ fits
  | putNotify key bin => exact morePushed _ fits
  | idle => trivial
  | getLookup key => exact fits
  | getDisk key => exact fits
  | flushWait => trivial

theorem fits_weaken (moreKnown : ∀ job, known job → known' job)
    (morePushed : ∀ job, pushed job → pushed' job) {m : CacheStoreAsync Tid String Bytes}
    (fits : Fits known pushed m) : Fits known' pushed' m where
  l1 := fun key bin held => moreKnown _ (fits.l1 key bin held)
  clients := fun tid => fits_pc_weaken moreKnown morePushed (fits.clients tid)
  history := by
    intro record member
    have prior := fits.history record member
    cases same : record.call with
    | get key =>
        rw [same] at prior
        exact fun bin returned => moreKnown _ (prior bin returned)
    | put key bin =>
        rw [same] at prior
        exact morePushed _ prior
    | flush => trivial

theorem fits_of_same {m after : CacheStoreAsync Tid String Bytes} (fits : Fits known pushed m)
    (l1 : after.l1 = m.l1) (client : after.client = m.client) (history : after.history = m.history) :
    Fits known pushed after :=
  ⟨l1 ▸ fits.l1, client ▸ fits.clients, history ▸ fits.history⟩

theorem fits_create : Fits known pushed (create Tid fun _ => none) where
  l1 := fun _ _ held => nomatch held
  clients := fun _ => trivial
  history := fun _ member => nomatch member

variable {m : CacheStoreAsync Tid String Bytes} {tid : Tid}

theorem fits_set_l1 (fits : Fits known pushed m) {key : String} {bin : Bytes}
    (value : known (key, bin)) : Fits known pushed (m.setL1 key bin) where
  l1 := by
    intro other held
    by_cases same : other = key
    · simp only [setL1, same, Function.update_self, Option.some.injEq]
      rintro rfl
      exact value
    · simp only [setL1, Function.update_of_ne same]
      exact fits.l1 other held
  clients := fits.clients
  history := fits.history

variable [DecidableEq Tid]

theorem fits_clients (fits : Fits known pushed m) {next : Client String Bytes}
    (value : FitsPc known pushed next.pc) (other : Tid) :
    FitsPc known pushed (Function.update m.client tid next other).pc := by
  by_cases same : other = tid
  · rw [same, Function.update_self]
    exact value
  · rw [Function.update_of_ne same]
    exact fits.clients other

theorem fits_goto (fits : Fits known pushed m) {pc : ClientPc String Bytes}
    (value : FitsPc known pushed pc) : Fits known pushed (m.goto tid pc) :=
  ⟨fits.l1, fits_clients fits value, fits.history⟩

theorem fits_finish (fits : Fits known pushed m) {call : Call String Bytes}
    {result : Option Bytes} (value : FitsCall known pushed result call) :
    Fits known pushed (m.finish tid call result) where
  l1 := fits.l1
  clients := fits_clients fits trivial
  history := by
    intro record member
    rcases List.mem_append.mp member with earlier | now
    · exact fits.history record earlier
    · rw [List.mem_singleton.mp now]
      exact value

theorem fits_client_moves {after : CacheStoreAsync Tid String Bytes} (fits : Fits known pushed m)
    (moves : ClientMoves m tid after) (elsewhere : usesDisk m (.client tid) = false)
    (pushing : ∀ job ∈ pushes m (.client tid), pushed job) : Fits known pushed after := by
  have value := fits.clients tid
  cases moves with
  | lookupHit key bin pc found =>
      have value : FitsCall known pushed (some bin) (.get key) :=
        fun held returned => fits.l1 key held (found.trans returned)
      exact fits_of_same (fits_finish fits value) rfl rfl rfl
  | lookupMiss key pc missed =>
      rw [pc] at value
      have looking : FitsPc known pushed (.getDisk key) := value
      exact fits_goto fits looking
  | diskHit key bin pc found => simp [usesDisk, pc] at elsewhere
  | diskMiss key pc missed => simp [usesDisk, pc] at elsewhere
  | promote key bin pc =>
      rw [pc] at value
      apply fits_finish (fits_set_l1 fits value)
      intro held returned
      obtain rfl := Option.some.inj returned
      exact value
  | store key bin pc =>
      rw [pc] at value
      exact fits_goto (fits_set_l1 fits value) value
  | queue key bin stamp pc =>
      have job : FitsPc known pushed (.putCount key bin) := pushing _ (by simp [pushes, pc])
      exact fits_of_same (fits_goto fits job) rfl rfl rfl
  | count key bin pc =>
      rw [pc] at value
      have job : FitsPc known pushed (.putNotify key bin) := value
      exact fits_of_same (fits_goto fits job) rfl rfl rfl
  | flushed pc awake empty done => exact fits_finish fits trivial
  | blocked pc awake pending => exact fits_of_same fits rfl rfl rfl

theorem fits_moves {action : Action Tid String Bytes} {after : CacheStoreAsync Tid String Bytes}
    (fits : Fits known pushed m) (moves : Moves m action after)
    (elsewhere : usesDisk m action = false) (plain : ∀ key ∈ callKeys action, Plain key)
    (calling : ∀ job ∈ calls action, known job)
    (pushing : ∀ job ∈ pushes m action, pushed job) : Fits known pushed after := by
  cases moves with
  | call tid call pc =>
      refine ⟨fits.l1, fits_clients fits ?_, fits.history⟩
      cases call with
      | get key => exact plain _ (List.mem_singleton_self _)
      | put key bin => exact calling _ (List.mem_singleton_self _)
      | flush => trivial
  | client tid after moves => exact fits_client_moves fits moves elsewhere pushing
  | notify tid key bin woken pc blocked nobody =>
      have value := fits.clients tid
      rw [pc] at value
      have job : FitsCall known pushed none (.put key bin) := value
      exact fits_of_same (fits_finish fits job) rfl rfl rfl
  | writer after moves => cases moves <;> exact fits_of_same fits rfl rfl rfl

end Values

/-! ## The jobs on their way to the disk -/

def inHand : WriterPc String Bytes → List Job
  | .writing job => [job]
  | .waiting | .written | .persisted | .returned => []

structure Tracks (s : FileCache Tid) : Prop where
  order : s.queued = s.files.renamed ++ (inHand s.memory.writer ++ s.memory.q)
  underway : ∀ putting, s.files.putting = some putting →
    s.memory.writer = .writing (putting.key, putting.bin)
  busy : s.memory.busy = false → inHand s.memory.writer = []

section Jobs

variable [DecidableEq Tid] {m after : CacheStoreAsync Tid String Bytes}
  {action : Action Tid String Bytes}

theorem moves_jobs (moves : Moves m action after) (elsewhere : usesDisk m action = false) :
    inHand after.writer ++ after.q = inHand m.writer ++ m.q ++ pushes m action := by
  cases moves with
  | call tid call pc => exact (List.append_nil _).symm
  | notify tid key bin woken pc blocked nobody => exact (List.append_nil _).symm
  | client tid after moves =>
      cases moves <;> simp_all [pushes, usesDisk, goto, finish, setL1]
  | writer after moves =>
      cases moves with
      | pop job rest pc awake queued => simp [pushes, pc, queued, inHand]
      | stopped pc awake empty stop => simp [pushes, pc, inHand]
      | blocked pc awake empty running => simp [pushes, pc]
      | write job pc => simp [usesDisk, pc] at elsewhere
      | count pc => simp [pushes, pc, inHand]
      | signal pc => simp [pushes, pc, inHand]

theorem moves_writing (moves : Moves m action after) (elsewhere : usesDisk m action = false)
    {job : Job} (writing : m.writer = .writing job) : after.writer = .writing job := by
  cases moves with
  | call tid call pc => exact writing
  | notify tid key bin woken pc blocked nobody => exact writing
  | client tid after moves => cases moves <;> exact writing
  | writer after moves => cases moves <;> simp_all [usesDisk]

theorem moves_busy (moves : Moves m action after) (elsewhere : usesDisk m action = false)
    (busy : m.busy = false → inHand m.writer = []) (idle : after.busy = false) :
    inHand after.writer = [] := by
  cases moves with
  | call tid call pc => exact busy idle
  | notify tid key bin woken pc blocked nobody => exact busy idle
  | client tid after moves => cases moves <;> exact busy idle
  | writer after moves =>
      cases moves with
      | pop job rest pc awake queued => cases idle
      | stopped pc awake empty stop => rfl
      | blocked pc awake empty running => exact busy idle
      | write job pc => simp [usesDisk, pc] at elsewhere
      | count pc => rfl
      | signal pc => rfl

end Jobs

/-! ## What a get reads -/

def FitsReading (known : Job → Prop) (dir : Directory String) (key : String) : Reading → Prop
  | .found => True
  | .opened file => Settled dir file ∧ ∀ bin, parse (dir.content file) = some bin → known (key, bin)
  | .accepted file hdr => Settled dir file ∧
      (∀ bin, parse (dir.content file) = some bin → known (key, bin)) ∧
      BinHeader.size ≤ (dir.content file).length ∧ hdr = BinHeader.ofBytes (dir.content file) ∧
      hdr.magic = kMagic ∧ hdr.version = kVersion

def Reads (known : Job → Prop) (s : FileCache Tid) : Prop :=
  ∀ tid reading, s.reading tid = some reading →
    ∃ key, (s.memory.client tid).pc = .getDisk key ∧ FitsReading known s.files.dir key reading

theorem fits_reading_weaken {known known' : Job → Prop} (more : ∀ job, known job → known' job)
    {dir : Directory String} {key : String} {reading : Reading}
    (fits : FitsReading known dir key reading) : FitsReading known' dir key reading := by
  cases reading with
  | found => trivial
  | opened file => exact ⟨fits.1, fun bin parsed => more _ (fits.2 bin parsed)⟩
  | accepted file hdr => exact ⟨fits.1, fun bin parsed => more _ (fits.2.1 bin parsed), fits.2.2⟩

theorem fits_reading_kept {known : Job → Prop} {dir after : Directory String}
    (leaves : LeavesSettled dir after) {key : String} {reading : Reading}
    (fits : FitsReading known dir key reading) : FitsReading known after key reading := by
  cases reading with
  | found => trivial
  | opened file =>
      obtain ⟨settled, values⟩ := fits
      rw [← leaves.content file settled] at values
      exact ⟨leaves.settled file settled, values⟩
  | accepted file hdr =>
      obtain ⟨settled, values⟩ := fits
      rw [← leaves.content file settled] at values
      exact ⟨leaves.settled file settled, values⟩

theorem parse_of_accepts {file bin : Bytes} (accepts : Accepts file bin) : parse file = some bin := by
  obtain ⟨long, magic, version, rfl, complete, intact⟩ := accepts
  have current : ¬((BinHeader.ofBytes file).magic ≠ kMagic ∨
      (BinHeader.ofBytes file).version ≠ kVersion) := by simp [magic, version]
  unfold parse
  rw [if_neg (Nat.not_lt.mpr long)]
  dsimp only
  rw [if_neg current, if_neg (Nat.not_lt.mpr complete), if_neg (not_not.mpr intact)]

theorem call_keys_of_calls {action : Action Tid String Bytes} {job : Job}
    (member : job ∈ calls action) : job.1 ∈ callKeys action := by
  unfold calls at member
  split at member
  case h_1 key bin =>
    rw [List.mem_singleton.mp member]
    exact List.mem_singleton_self _
  case h_2 => cases member

theorem pushes_known {known pushed : Job → Prop} {m : CacheStoreAsync Tid String Bytes}
    (fits : Fits known pushed m) (action : Action Tid String Bytes) :
    ∀ job ∈ pushes m action, known job := by
  intro job member
  cases action with
  | client tid =>
      have value := fits.clients tid
      rw [pushes] at member
      split at member
      case h_1 key bin stamp pc =>
        rw [pc] at value
        rw [List.mem_singleton.mp member]
        exact value
      case h_2 => cases member
  | call tid call => cases member
  | notify tid woken => cases member
  | writer => cases member

theorem moves_reader [DecidableEq Tid] {m after : CacheStoreAsync Tid String Bytes}
    {action : Action Tid String Bytes} (moves : Moves m action after)
    (elsewhere : usesDisk m action = false) {tid : Tid} {key : String}
    (reading : (m.client tid).pc = .getDisk key) : (after.client tid).pc = .getDisk key := by
  have bystander : ∀ (other : Tid) (next : Client String Bytes),
      (∀ key, (m.client other).pc ≠ .getDisk key) →
      (Function.update m.client other next tid).pc = .getDisk key := by
    intro other next away
    have apart : tid ≠ other := by
      rintro rfl
      exact away key reading
    rw [Function.update_of_ne apart]
    exact reading
  cases moves with
  | call other call pc => exact bystander other _ (by simp [pc])
  | notify other _ bin woken pc blocked nobody => exact bystander other _ (by simp [pc])
  | client other after moves =>
      cases moves with
      | lookupHit _ bin pc found => exact bystander other _ (by simp [pc])
      | lookupMiss _ pc missed => exact bystander other _ (by simp [pc])
      | diskHit _ bin pc found => simp [usesDisk, pc] at elsewhere
      | diskMiss _ pc missed => simp [usesDisk, pc] at elsewhere
      | promote _ bin pc => exact bystander other _ (by simp [pc])
      | store _ bin pc => exact bystander other _ (by simp [pc])
      | queue _ bin stamp pc => exact bystander other _ (by simp [pc])
      | count _ bin pc => exact bystander other _ (by simp [pc])
      | flushed pc awake empty done => exact bystander other _ (by simp [pc])
      | blocked pc awake pending => exact reading
  | writer after moves => cases moves <;> exact reading

/-! ## The invariant -/

/-- A payload that was put under a plain key, or that the directory had for it at first. -/
def Known (initial : Directory String) (called : List Job) (job : Job) : Prop :=
  Plain job.1 ∧ (job ∈ called ∨ get initial job.1 = some job.2)

structure Recoverable (initial : Directory String) (s : FileCache Tid) : Prop where
  files : CacheStoreCrash.Consistent initial s.files
  tracks : Tracks s
  values : Fits (Known initial s.called) (· ∈ s.queued) s.memory
  jobs : ∀ job ∈ s.queued, Known initial s.called job
  small : ∀ job ∈ s.called, job.2.length < 2 ^ 32
  reads : Reads (Known initial s.called) s

theorem start_recoverable (initial : Directory String) : Recoverable initial (start Tid initial) where
  files := CacheStoreCrash.start_consistent initial
  tracks := ⟨rfl, fun _ impossible => (nomatch impossible), fun _ => rfl⟩
  values := fits_create
  jobs := fun _ member => nomatch member
  small := fun _ member => nomatch member
  reads := fun _ _ impossible => nomatch impossible

section Recoverable

variable {initial : Directory String} {s : FileCache Tid}

theorem get_small {dir : Directory String} {key : String} {bin : Bytes}
    (found : get dir key = some bin) : bin.length < 2 ^ 32 := by
  obtain ⟨file, _, parsed⟩ := Option.bind_eq_some_iff.mp found
  rw [(parse_accepts parsed).payload]
  exact (List.length_take_le _ _).trans_lt (UInt32.toNat_lt _)

theorem known_small (recoverable : Recoverable initial s) {job : Job}
    (known : Known initial s.called job) : job.2.length < 2 ^ 32 := by
  rcases known.2 with called | found
  · exact recoverable.small job called
  · exact get_small found

theorem get_files (recoverable : Recoverable initial s) {key : String} (plain : Plain key) :
    get s.files.dir key = match lastPut key s.files.renamed with
      | some bin => some bin
      | none => get initial key := by
  rw [CacheStoreModel.get, recoverable.files.entries key plain]
  cases last : lastPut key s.files.renamed with
  | none => rfl
  | some bin => exact parse_entry (recoverable.files.small _ (last_put_mem last))

theorem renamed_are_queued (recoverable : Recoverable initial s) :
    s.files.renamed <+: s.queued := by
  rw [recoverable.tracks.order]
  exact List.prefix_append _ _

theorem disk_known (recoverable : Recoverable initial s) {key : String} (plain : Plain key)
    {bin : Bytes} (found : get s.files.dir key = some bin) : Known initial s.called (key, bin) := by
  rw [get_files recoverable plain] at found
  cases last : lastPut key s.files.renamed with
  | none =>
      rw [last] at found
      exact ⟨plain, .inr found⟩
  | some put =>
      rw [last] at found
      obtain rfl := Option.some.inj found
      exact recoverable.jobs _ ((renamed_are_queued recoverable).subset (last_put_mem last))

theorem underway_job (tracks : Tracks s) {job : Job} (writing : s.memory.writer = .writing job)
    (putting : CacheStoreCrash.Putting) (running : s.files.putting = some putting) :
    (putting.key, putting.bin) = job :=
  (WriterPc.writing.inj (writing.symm.trans (tracks.underway putting running))).symm

theorem write_tracks (tracks : Tracks s) {job : Job} (writing : s.memory.writer = .writing job)
    {files : CacheStoreCrash.State} (moves : PutStep s.files files job) :
    Tracks { s with
      files
      memory := if files.putting = none then { s.memory with writer := .written }
        else s.memory } := by
  have order := tracks.order
  cases moves with
  | underway putting running same renamed =>
      have unfinished : files.putting ≠ none := by simp [running]
      simp only [if_neg unfinished]
      refine ⟨?_, ?_, tracks.busy⟩
      · simp only [renamed]
        exact order
      · intro other started
        obtain rfl := Option.some.inj (running.symm.trans started)
        rw [same]
        exact writing
  | renamed done renamed =>
      simp only [if_pos done]
      refine ⟨?_, ?_, fun _ => rfl⟩
      · simp only [renamed, inHand, List.nil_append]
        rw [order, writing, inHand, List.append_assoc]
      · intro other started
        simp [done] at started

variable {after : FileCache Tid}

theorem write_recoverable (recoverable : Recoverable initial s)
    (moved : s.writeStep = some after) : Recoverable initial after := by
  unfold writeStep at moved
  split at moved
  case h_2 => cases moved
  case h_1 job writing =>
    obtain ⟨files, put, rfl⟩ := Option.map_eq_some_iff.mp moved
    have order := recoverable.tracks.order
    have queued : job ∈ s.queued := by
      rw [order, writing]
      simp [inHand]
    have fitting : CacheStoreCrash.allowed s.files (putMove s.files job) := by
      unfold putMove
      split
      case h_1 =>
        have known := recoverable.jobs job queued
        exact ⟨known.1, known_small recoverable known⟩
      case h_2 => split <;> [trivial; split <;> trivial]
    have leaves := put_leaves_settled recoverable.files fitting put
    have moves := put_step (underway_job recoverable.tracks writing) put
    refine ⟨CacheStoreCrash.step_consistent recoverable.files fitting put,
      write_tracks recoverable.tracks writing moves, ?_,
      recoverable.jobs, recoverable.small, ?_⟩
    · split
      case isTrue => exact fits_of_same recoverable.values rfl rfl rfl
      case isFalse => exact recoverable.values
    · intro tid reading started
      obtain ⟨key, pc, value⟩ := recoverable.reads tid reading started
      refine ⟨key, ?_, fits_reading_kept leaves value⟩
      split
      case isTrue => exact pc
      case isFalse => exact pc

variable [DecidableEq Tid]

theorem memory_recoverable (recoverable : Recoverable initial s)
    {action : Action Tid String Bytes} (fitting : Fitting s (.memory action))
    (moved : s.step (.memory action) = some after) : Recoverable initial after := by
  rw [FileCache.step] at moved
  split at moved
  case isTrue => cases moved
  case isFalse elsewhere =>
    rw [Bool.not_eq_true] at elsewhere
    obtain ⟨memory, stepped, rfl⟩ := Option.map_eq_some_iff.mp moved
    obtain ⟨next, moves, rfl⟩ := step_moves stepped
    have moreKnown : ∀ job, Known initial s.called job →
        Known initial (s.called ++ calls action) job :=
      fun job known => ⟨known.1, known.2.imp_left (List.mem_append_left _)⟩
    have calledKnown : ∀ job ∈ calls action, Known initial (s.called ++ calls action) job :=
      fun job member => ⟨fitting.1 job.1 (call_keys_of_calls member),
        .inl (List.mem_append_right _ member)⟩
    have pushedKnown := pushes_known recoverable.values action
    have fits := fits_moves (fits_weaken moreKnown (fun _ => List.mem_append_left _)
      recoverable.values) moves elsewhere fitting.1 calledKnown (fun _ => List.mem_append_right s.queued)
    constructor
    · exact recoverable.files
    · constructor
      · show s.queued ++ pushes s.memory action = _
        rw [recoverable.tracks.order, List.append_assoc, ← moves_jobs moves elsewhere]
      · intro putting running
        exact moves_writing moves elsewhere (recoverable.tracks.underway putting running)
      · have resting : next.busy = false → inHand next.writer = [] :=
          moves_busy moves elsewhere recoverable.tracks.busy
        exact resting
    · exact fits_of_same fits rfl rfl rfl
    · intro job member
      rcases List.mem_append.mp member with earlier | now
      · exact moreKnown job (recoverable.jobs job earlier)
      · exact moreKnown job (pushedKnown job now)
    · intro job member
      rcases List.mem_append.mp member with earlier | now
      · exact recoverable.small job earlier
      · exact fitting.2 job now
    · intro tid reading started
      obtain ⟨key, pc, value⟩ := recoverable.reads tid reading started
      exact ⟨key, moves_reader moves elsewhere pc, fits_reading_weaken moreKnown value⟩

theorem answer_recoverable (recoverable : Recoverable initial s) {tid : Tid} {key : String}
    {found : Option Bytes} (value : ∀ bin, found = some bin → Known initial s.called (key, bin)) :
    Recoverable initial (s.answer tid key found) where
  files := recoverable.files
  tracks := by
    obtain ⟨order, underway, busy⟩ := recoverable.tracks
    cases found with
    | none => exact ⟨order, underway, busy⟩
    | some bin => exact ⟨order, underway, busy⟩
  values := by
    cases found with
    | none => exact fits_finish recoverable.values value
    | some bin => exact fits_goto recoverable.values (value bin rfl)
  jobs := recoverable.jobs
  small := recoverable.small
  reads := by
    intro other reading started
    by_cases same : other = tid
    · simp [answer, same] at started
    · simp only [answer, Function.update_of_ne same] at started
      have client : (s.answer tid key found).memory.client other = s.memory.client other := by
        cases found with
        | none => exact Function.update_of_ne same _ _
        | some bin => exact Function.update_of_ne same _ _
      rw [client]
      exact recoverable.reads other reading started

theorem read_on_recoverable (recoverable : Recoverable initial s) {tid : Tid} {key : String}
    (pc : (s.memory.client tid).pc = .getDisk key) {reading : Reading}
    (value : FitsReading (Known initial s.called) s.files.dir key reading) :
    Recoverable initial (s.readOn tid reading) where
  files := recoverable.files
  tracks := ⟨recoverable.tracks.order, recoverable.tracks.underway, recoverable.tracks.busy⟩
  values := recoverable.values
  jobs := recoverable.jobs
  small := recoverable.small
  reads := by
    intro other current started
    by_cases same : other = tid
    · simp only [readOn, same, Function.update_self, Option.some.injEq] at started
      rw [same, ← started]
      exact ⟨key, pc, value⟩
    · simp only [readOn, Function.update_of_ne same] at started
      exact recoverable.reads other current started

theorem read_recoverable (recoverable : Recoverable initial s) {tid : Tid}
    (moved : s.readStep tid = some after) : Recoverable initial after := by
  obtain ⟨key, pc, moves⟩ := read_moves moved
  cases moves with
  | missed => exact answer_recoverable recoverable fun _ impossible => nomatch impossible
  | found => exact read_on_recoverable recoverable pc trivial
  | opened file entry =>
      apply read_on_recoverable recoverable pc
      have looking := recoverable.values.clients tid
      rw [pc] at looking
      refine ⟨settled_of_entry looking entry, ?_⟩
      intro bin parsed
      apply disk_known recoverable looking
      rw [CacheStoreModel.get, Directory.read_of_entry entry]
      exact parsed
  | accepted file opened long magic version =>
      obtain ⟨_, samePc, settled, values⟩ := recoverable.reads tid _ opened
      obtain rfl := ClientPc.getDisk.inj (pc.symm.trans samePc)
      exact read_on_recoverable recoverable pc ⟨settled, values, long, rfl, magic, version⟩
  | answered file hdr bin accepted payload complete intact =>
      obtain ⟨_, samePc, settled, values, long, rfl, magic, version⟩ :=
        recoverable.reads tid _ accepted
      obtain rfl := ClientPc.getDisk.inj (pc.symm.trans samePc)
      apply answer_recoverable recoverable
      intro answered same
      obtain rfl := Option.some.inj same
      exact values bin (parse_of_accepts ⟨long, magic, version, payload, complete, intact⟩)

theorem stop_recoverable (recoverable : Recoverable initial s) (moved : s.step .stop = some after) :
    Recoverable initial after := by
  rw [FileCache.step] at moved
  obtain ⟨files, stopped, rfl⟩ := Option.map_eq_some_iff.mp moved
  have allowed : CacheStoreCrash.allowed s.files .stop := trivial
  have consistent := CacheStoreCrash.step_consistent recoverable.files allowed stopped
  obtain rfl := Option.some.inj stopped
  refine ⟨consistent, ⟨(List.append_nil _).symm, fun _ impossible => (nomatch impossible),
    fun _ => rfl⟩, fits_create, ?_, recoverable.small, fun _ _ impossible => nomatch impossible⟩
  intro job member
  exact recoverable.jobs job ((renamed_are_queued recoverable).subset member)

theorem step_recoverable (recoverable : Recoverable initial s) {move : Move Tid}
    (fitting : Fitting s move) (moved : s.step move = some after) : Recoverable initial after := by
  cases move with
  | memory action => exact memory_recoverable recoverable fitting moved
  | read tid => exact read_recoverable recoverable moved
  | write => exact write_recoverable recoverable moved
  | stop => exact stop_recoverable recoverable moved

theorem reached_recoverable (reached : Reached initial s) : Recoverable initial s :=
  reaches_invariant (start_recoverable initial)
    (fun _ _ _ _ prior fitting moved => step_recoverable prior fitting moved) reached

/-! ## What a flush has settled -/

theorem read_files {tid : Tid} (moved : s.readStep tid = some after) : after.files = s.files := by
  obtain ⟨key, _, moves⟩ := read_moves moved
  cases moves <;> rfl

theorem step_renamed {move : Move Tid} (recoverable : Recoverable initial s)
    (moved : s.step move = some after) : s.files.renamed <+: after.files.renamed := by
  cases move with
  | memory action =>
      rw [FileCache.step] at moved
      split at moved
      case isTrue => cases moved
      case isFalse =>
        obtain ⟨memory, _, rfl⟩ := Option.map_eq_some_iff.mp moved
        exact List.prefix_refl _
  | read tid => rw [read_files moved]
  | write =>
      rw [FileCache.step, writeStep] at moved
      split at moved
      case h_2 => cases moved
      case h_1 job writing =>
        obtain ⟨files, put, rfl⟩ := Option.map_eq_some_iff.mp moved
        cases put_step (underway_job recoverable.tracks writing) put with
        | underway putting running same renamed => simp only [renamed, List.prefix_refl]
        | renamed done renamed => simp only [renamed, List.prefix_append]
  | stop =>
      rw [FileCache.step] at moved
      obtain ⟨files, stopped, rfl⟩ := Option.map_eq_some_iff.mp moved
      obtain rfl := Option.some.inj stopped
      exact List.prefix_refl _

theorem continued_renamed (reached : Reached initial s)
    (continued : Reaches FileCache.step Fitting s after) :
    s.files.renamed <+: after.files.renamed := by
  induction continued with
  | start => exact List.prefix_refl _
  | call prior move fitting moved ih =>
      have recoverable := reached_recoverable (reaches_trans reached prior)
      exact ih.trans (step_renamed recoverable moved)

/-- A flush returns with every job renamed. -/
theorem flush_returns_renamed (recoverable : Recoverable initial s) {tid : Tid}
    (waiting : (s.memory.client tid).pc = .flushWait)
    (returned : s.step (.memory (.client tid)) = some after)
    (idle : (after.memory.client tid).pc = .idle) : after.queued = after.files.renamed := by
  rw [FileCache.step] at returned
  split at returned
  case isTrue => cases returned
  case isFalse =>
    obtain ⟨memory, stepped, rfl⟩ := Option.map_eq_some_iff.mp returned
    obtain ⟨next, moves, rfl⟩ := step_moves stepped
    have nothing : pushes s.memory (.client tid) = [] := by simp [pushes, waiting]
    cases moves with
    | client tid next moves =>
        cases moves with
        | flushed pc awake empty done =>
            show s.queued ++ pushes s.memory (.client tid) = s.files.renamed
            rw [nothing, recoverable.tracks.order, recoverable.tracks.busy done, empty]
            simp only [List.append_nil]
        | blocked pc awake pending => simp [waiting] at idle
        | _ => simp_all

end Recoverable

/-- Let a flush return in any run, and let anything happen after it: stops, new
processes on the directory, calls of any threads. The files hold at every moment what a
prefix of the pushed jobs wrote over the directory of the start, and this prefix takes in
every put that had returned before the flush did. The keys are plain. A get returns
nothing else than what was put under its key or was there at the start. -/
theorem flushed_puts_survive_stops [DecidableEq Tid] {initial : Directory String}
    {s flushed later : FileCache Tid} {tid : Tid} (reached : Reached initial s)
    (waiting : (s.memory.client tid).pc = .flushWait)
    (returned : s.step (.memory (.client tid)) = some flushed)
    (idle : (flushed.memory.client tid).pc = .idle)
    (continued : Reaches FileCache.step Fitting flushed later) :
    (∀ record ∈ flushed.memory.history, ∀ key bin, record.call = .put key bin →
      (key, bin) ∈ flushed.queued) ∧
    flushed.queued <+: later.files.renamed ∧ later.files.renamed <+: later.queued ∧
    (∀ key, Plain key → get later.files.dir key = match lastPut key later.files.renamed with
      | some bin => some bin
      | none => get initial key) ∧
    ∀ record ∈ later.memory.history, ∀ key bin, record.call = .get key →
      record.result = some bin → (key, bin) ∈ later.called ∨ get initial key = some bin := by
  have fitting : Fitting s (.memory (.client tid)) :=
    ⟨fun _ member => (nomatch member), fun _ member => (nomatch member)⟩
  have onward : Reached initial flushed := .call reached _ fitting returned
  have atFlush := reached_recoverable onward
  have recoverable := reached_recoverable (reaches_trans onward continued)
  refine ⟨?_, ?_, renamed_are_queued recoverable, fun _ plain => get_files recoverable plain, ?_⟩
  · intro record member key bin call
    have fits := atFlush.values.history record member
    rw [call] at fits
    exact fits
  · rw [flush_returns_renamed (reached_recoverable reached) waiting returned idle]
    exact continued_renamed onward continued
  · intro record member key bin call result
    have fits := recoverable.values.history record member
    rw [call] at fits
    exact (fits bin result).2

/-- A put and a call of `flush()`. -/
def putThenFlush : List (Move Unit) :=
  [.memory (.call () (.put "k" [7])), .memory (.client ()), .memory (.client ()),
    .memory (.client ()), .memory (.notify () none), .memory .writer] ++
  List.replicate 20 .write ++
  [.memory .writer, .memory .writer, .memory (.call () .flush)]

/-- A stop within the next put, and a get by the process that follows. -/
def stopAndGet : List (Move Unit) :=
  [.memory (.call () (.put "k" [8])), .memory (.client ()), .memory (.client ()),
    .memory .writer, .write, .write, .stop, .memory (.call () (.get "k")), .memory (.client ()),
    .read (), .read (), .read (), .read (), .memory (.client ())]

theorem flushed_puts_survive_stops_put :
    let s := (runCalls FileCache.step Fitting (start Unit (Directory.empty String))
      putThenFlush).get (by decide +kernel)
    let flushed := (s.step (.memory (.client ()))).get (by decide +kernel)
    let later := (runCalls FileCache.step Fitting flushed stopAndGet).get (by decide +kernel)
    (∀ record ∈ flushed.memory.history, ∀ key bin, record.call = .put key bin →
      (key, bin) ∈ flushed.queued) ∧
    flushed.queued <+: later.files.renamed ∧ later.files.renamed <+: later.queued ∧
    (∀ key, Plain key → get later.files.dir key = match lastPut key later.files.renamed with
      | some bin => some bin
      | none => get (Directory.empty String) key) ∧
    ∀ record ∈ later.memory.history, ∀ key bin, record.call = .get key →
      record.result = some bin →
        (key, bin) ∈ later.called ∨ get (Directory.empty String) key = some bin := by
  intro s flushed later
  exact flushed_puts_survive_stops (reaches_of_run_get putThenFlush (by decide +kernel))
    (by decide +kernel) (Option.some_get _).symm (by decide +kernel)
    (reaches_of_run_get stopAndGet (by decide +kernel))

end AmpFormal.CacheAsyncRecovery
