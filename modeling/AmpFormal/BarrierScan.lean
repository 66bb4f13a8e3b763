import AmpFormal.DiagnoseModel
import AmpFormal.PastConditions
import Mathlib.Data.List.GetD

/-!
# What the barrier scan reports

For one shared array a line is a barrier, a write, a read or nothing of these, and the
scan is an automaton over these events. Its states are conditions on the events so
far; hence so are its findings.
-/

namespace AmpFormal.BarrierScan

open AmpFormal.DiagnoseModel AmpFormal.TextPatterns AmpFormal.PastConditions

set_option autoImplicit false

inductive LineEvent where
  | sync
  | write
  | read
  | nothing
  deriving DecidableEq, Repr

variable (unicode : Char → Bool)

/-- What a line is for an array; a barrier hides the accesses of its line. -/
def lineEvent (line n : Text) : LineEvent :=
  if hasSync line then .sync
  else if isWrite unicode line n then .write
  else if hasAccess unicode line n then .read
  else .nothing

def eventAt (lines : List Text) (n : Text) (i : ℕ) : LineEvent :=
  lineEvent unicode (lineAt lines i) n

/-! ## One array -/

def nextState : SyncState → LineEvent → SyncState
  | _, .sync => .synced
  | _, .write => .written
  | .written, .read => .flagged
  | .synced, .read => .read
  | state, _ => state

def reported (file : Text) (i : ℕ) (line n : Text) : SyncState → LineEvent → Option Finding
  | .read, .write => some (loopCarriedOverwrite file i line n)
  | .written, .read => some (missingSyncthreads file i line n)
  | _, _ => none

def stateAt (events : ℕ → LineEvent) (lo now : ℕ) : SyncState :=
  (range lo now).foldl (fun state k => nextState state (events k)) .unknown

theorem next_state_twice (state : SyncState) (event : LineEvent) :
    nextState (nextState state event) event = nextState state event := by
  cases state <;> cases event <;> rfl

theorem reported_twice (file : Text) (i : ℕ) (line n : Text) (state : SyncState)
    (event : LineEvent) : reported file i line n (nextState state event) event = none := by
  cases state <;> cases event <;> rfl

theorem range_of_le {lo hi : ℕ} (ended : hi ≤ lo) : range lo hi = [] := by
  rw [range, Nat.sub_eq_zero_of_le ended]
  rfl

theorem range_succ {lo now : ℕ} (begun : lo ≤ now) : range lo (now + 1) = range lo now ++ [now] := by
  have width : now + 1 - lo = now - lo + 1 := by omega
  have last : lo + (now - lo) = now := by omega
  rw [range, range, width, List.range'_1_concat, last]

theorem mem_range {lo hi i : ℕ} : i ∈ range lo hi ↔ lo ≤ i ∧ i < hi := by
  rw [range, List.mem_range'_1]
  omega

theorem state_at_self (events : ℕ → LineEvent) (lo : ℕ) : stateAt events lo lo = .unknown := by
  rw [stateAt, range_of_le (Nat.le_refl _)]
  rfl

theorem state_at_succ (events : ℕ → LineEvent) {lo now : ℕ} (begun : lo ≤ now) :
    stateAt events lo (now + 1) = nextState (stateAt events lo now) (events now) := by
  rw [stateAt, range_succ begun, List.foldl_append]
  rfl

/-- The array was written, with neither a barrier nor a read of it since. -/
def Unguarded (events : ℕ → LineEvent) (lo now : ℕ) : Prop :=
  Since (fun j => events j = .write) (fun k => events k ≠ .sync ∧ events k ≠ .read) lo now

/-- There was a barrier, and the array was not written since the last one. -/
def Guarded (events : ℕ → LineEvent) (lo now : ℕ) : Prop :=
  Since (fun j => events j = .sync) (fun k => events k ≠ .sync ∧ events k ≠ .write) lo now

/-- Since the last barrier the array was read, but not written. -/
def GuardedRead (events : ℕ → LineEvent) (lo now : ℕ) : Prop :=
  SinceSeen (fun j => events j = .sync) (fun k => events k ≠ .sync ∧ events k ≠ .write)
    (fun r => events r = .read) lo now

structure Tracks (events : ℕ → LineEvent) (lo now : ℕ) (state : SyncState) : Prop where
  written : state = .written ↔ Unguarded events lo now
  clear : state = .synced ∨ state = .read ↔ Guarded events lo now
  read : state = .read ↔ GuardedRead events lo now

theorem tracks_next {events : ℕ → LineEvent} {lo now : ℕ} {state : SyncState} (begun : lo ≤ now)
    (tracks : Tracks events lo now state) :
    Tracks events lo (now + 1) (nextState state (events now)) := by
  have written := tracks.written
  have clear := tracks.clear
  have read := tracks.read
  constructor
  · rw [Unguarded, since_succ begun]
    change _ ↔ _ ∨ _ ∧ Unguarded events lo now
    rw [← written]
    cases events now <;> cases state <;> simp [nextState]
  · rw [Guarded, since_succ begun]
    change _ ↔ _ ∨ _ ∧ Guarded events lo now
    rw [← clear]
    cases events now <;> cases state <;> simp [nextState]
  · rw [GuardedRead, since_seen_succ]
    change _ ↔ _ ∧ (GuardedRead events lo now ∨ _ ∧ Guarded events lo now)
    rw [← clear, ← read]
    cases events now <;> cases state <;> simp [nextState]

theorem tracks_state_at (events : ℕ → LineEvent) {lo now : ℕ} (begun : lo ≤ now) :
    Tracks events lo now (stateAt events lo now) := by
  induction now, begun using Nat.le_induction with
  | base =>
      rw [state_at_self]
      have never := @not_since_first
      have unseen := @not_since_seen_first
      exact ⟨by simp [Unguarded, never], by simp [Guarded, never], by simp [GuardedRead, unseen]⟩
  | succ now begun ih =>
      rw [state_at_succ events begun]
      exact tracks_next begun ih

/-! ## All arrays of a scope -/

section Arrays

variable {unicode} {file : Text} {i : ℕ} {line : Text} {lines : List Text} {names : List Text}

theorem write_has_access {n : Text} (writes : isWrite unicode line n = true) :
    hasAccess unicode line n = true := by
  rw [hasAccess, ← Option.ne_none_iff_isSome]
  intro missing
  have empty : ∀ previous, accessAt unicode n previous [] = none := by
    intro previous
    cases n <;> simp [accessAt, literal, skipSpaces, subscriptAt]
  rw [isWrite, accesses, (find_all_nil_iff empty none line).mpr missing] at writes
  cases writes

theorem line_event_nil (n : Text) : lineEvent unicode [] n = .nothing := by
  have untouched : hasAccess unicode [] n = false := by
    cases n <;> simp [hasAccess, search, accessAt, literal, skipSpaces, subscriptAt]
  have unwritten : isWrite unicode [] n = false := rfl
  have unguarded : hasSync [] = false := rfl
  rw [lineEvent, unguarded, unwritten, untouched]
  rfl

theorem event_outside {n : Text} {i : ℕ} (outside : lines.length ≤ i) :
    eventAt unicode lines n i = .nothing := by
  have empty : lineAt lines i = [] := List.getD_eq_default _ _ outside
  rw [eventAt, empty, line_event_nil]

theorem event_inside {n : Text} {i : ℕ} {event : LineEvent} (happens : eventAt unicode lines n i = event)
    (something : event ≠ .nothing) : i < lines.length := by
  by_contra outside
  rw [event_outside (Nat.le_of_not_lt outside)] at happens
  exact something happens.symm

theorem scan_name_effect (unguarded : hasSync line = false) (scan : SyncScan) (n : Text) :
    scanName unicode file i line scan n =
      { state := Function.update scan.state n
          (nextState (scan.state n) (lineEvent unicode line n))
        findings := scan.findings ++
          (reported file i line n (scan.state n) (lineEvent unicode line n)).toList } := by
  obtain ⟨state, findings⟩ := scan
  rw [lineEvent, unguarded, if_neg Bool.false_ne_true]
  by_cases writes : isWrite unicode line n = true
  · rw [scanName, if_pos (write_has_access writes), if_pos writes, if_pos writes]
    cases before : state n <;> simp [nextState, reported, before]
  · rw [scanName, if_neg writes, if_neg writes]
    by_cases touched : hasAccess unicode line n = true
    · rw [if_pos touched, if_pos touched]
      cases before : state n <;> simp [nextState, reported, before]
    · rw [if_neg touched, if_neg touched]
      cases before : state n <;> simp [nextState, reported, before]

theorem scan_names_state (unguarded : hasSync line = false) (names : List Text) (scan : SyncScan)
    (n : Text) :
    (names.foldl (scanName unicode file i line) scan).state n =
      if n ∈ names then nextState (scan.state n) (lineEvent unicode line n) else scan.state n := by
  induction names generalizing scan with
  | nil => rfl
  | cons m rest ih =>
      rw [List.foldl_cons, ih, scan_name_effect unguarded]
      by_cases same : n = m
      · subst same
        simp [next_state_twice]
      · simp [same]

/-- An array that stands twice among the names is reported once. -/
theorem mem_scan_names (unguarded : hasSync line = false) (names : List Text) (scan : SyncScan)
    (finding : Finding) :
    finding ∈ (names.foldl (scanName unicode file i line) scan).findings ↔
      finding ∈ scan.findings ∨ ∃ n ∈ names,
        reported file i line n (scan.state n) (lineEvent unicode line n) = some finding := by
  induction names generalizing scan with
  | nil => simp
  | cons m rest ih =>
      have later : ∀ n ∈ rest,
          (reported file i line n
              (Function.update scan.state m
                (nextState (scan.state m) (lineEvent unicode line m)) n)
              (lineEvent unicode line n) = some finding ↔
            n ≠ m ∧ reported file i line n (scan.state n) (lineEvent unicode line n) =
              some finding) := by
        intro n member
        by_cases same : n = m
        · subst same
          simp [reported_twice]
        · simp [same]
      rw [List.foldl_cons, ih, scan_name_effect unguarded, List.mem_append, Option.mem_toList, or_assoc]
      refine or_congr_right ?_
      constructor
      · rintro (first | ⟨n, member, found⟩)
        · exact ⟨m, List.mem_cons_self, first⟩
        · exact ⟨n, List.mem_cons_of_mem _ member, ((later n member).mp found).2⟩
      · rintro ⟨n, member, found⟩
        by_cases same : n = m
        · subst same
          exact .inl found
        · have member : n ∈ rest := List.mem_of_ne_of_mem same member
          exact .inr ⟨n, member, (later n member).mpr ⟨same, found⟩⟩

/-- The state of every array follows its own events. -/
theorem scan_state (lines : List Text) (names : List Text) (file : Text) {lo hi : ℕ}
    (begun : lo ≤ hi) {n : Text} (declared : n ∈ names) :
    ((range lo hi).foldl (scanLine unicode lines names file)
        { state := fun _ => .unknown, findings := [] }).state n =
      stateAt (eventAt unicode lines n) lo hi := by
  induction hi, begun using Nat.le_induction with
  | base =>
      rw [state_at_self, range_of_le (Nat.le_refl _)]
      rfl
  | succ hi begun ih =>
      rw [range_succ begun, List.foldl_append, List.foldl_cons, List.foldl_nil,
        state_at_succ _ begun, ← ih, scanLine]
      by_cases guard : hasSync (lineAt lines hi) = true
      · rw [if_pos guard, eventAt, lineEvent, if_pos guard]
        rfl
      · rw [if_neg guard, scan_names_state (eq_false_of_ne_true guard), if_pos declared]
        rfl

theorem mem_detect_sync_issues (lines : List Text) (names : List Text) (file : Text) (lo hi : ℕ)
    (finding : Finding) :
    finding ∈ detectSyncIssues unicode lines lo hi names file ↔
      ∃ i, lo ≤ i ∧ i < hi ∧ ∃ n ∈ names,
        reported file i (lineAt lines i) n (stateAt (eventAt unicode lines n) lo i)
          (eventAt unicode lines n i) = some finding := by
  rw [detectSyncIssues]
  obtain ended | begun := Nat.le_total hi lo
  · rw [range_of_le ended]
    exact iff_of_false List.not_mem_nil (not_exists_before ended)
  induction hi, begun using Nat.le_induction with
  | base =>
      rw [range_of_le (Nat.le_refl _)]
      exact iff_of_false List.not_mem_nil (not_exists_before (Nat.le_refl _))
  | succ hi begun ih =>
      rw [range_succ begun, List.foldl_append, List.foldl_cons, List.foldl_nil,
        exists_before_succ begun, ← ih, scanLine]
      by_cases guard : hasSync (lineAt lines hi) = true
      · have silent : ∀ n, reported file hi (lineAt lines hi) n
            (stateAt (eventAt unicode lines n) lo hi) (eventAt unicode lines n hi) = none := by
          intro n
          rw [eventAt, lineEvent, if_pos guard]
          cases stateAt (eventAt unicode lines n) lo hi <;> rfl
        simp [if_pos guard, silent]
      · rw [if_neg guard, mem_scan_names (eq_false_of_ne_true guard)]
        refine or_congr_right (exists_congr fun n => and_congr_right fun declared => ?_)
        rw [scan_state lines names file begun declared]
        rfl

theorem quoted_name {left right n n' : Text} (same : left ++ n ++ right = left ++ n' ++ right) :
    n = n' :=
  List.append_cancel_left (List.append_cancel_right same)

theorem missing_injective {i' : ℕ} {line' n n' : Text}
    (same : missingSyncthreads file i line n = missingSyncthreads file i' line' n') :
    i = i' ∧ n = n' :=
  ⟨Nat.succ.inj (congrArg Finding.line same), quoted_name (congrArg Finding.extra same)⟩

theorem overwrite_injective {i' : ℕ} {line' n n' : Text}
    (same : loopCarriedOverwrite file i line n = loopCarriedOverwrite file i' line' n') :
    i = i' ∧ n = n' :=
  ⟨Nat.succ.inj (congrArg Finding.line same), quoted_name (congrArg Finding.extra same)⟩

theorem reported_some_iff {n : Text} {state : SyncState} {event : LineEvent} {finding : Finding} :
    reported file i line n state event = some finding ↔
      state = .read ∧ event = .write ∧ loopCarriedOverwrite file i line n = finding ∨
        state = .written ∧ event = .read ∧ missingSyncthreads file i line n = finding := by
  cases state <;> cases event <;> simp [reported]

/-- A missing barrier is reported at the first read behind an unguarded write. -/
theorem missing_iff (lines : List Text) (names : List Text) (file : Text) (lo hi : ℕ)
    {n : Text} (declared : n ∈ names) (i : ℕ) :
    missingSyncthreads file i (lineAt lines i) n ∈
        detectSyncIssues unicode lines lo hi names file ↔
      lo ≤ i ∧ i < hi ∧ eventAt unicode lines n i = .read ∧
        Unguarded (eventAt unicode lines n) lo i := by
  rw [mem_detect_sync_issues]
  constructor
  · rintro ⟨i', after, before, n', -, found⟩
    obtain ⟨-, -, other⟩ | ⟨written, reads, same⟩ := reported_some_iff.mp found
    · cases congrArg Finding.patternId other
    · obtain ⟨rfl, rfl⟩ := missing_injective same
      exact ⟨after, before, reads, (tracks_state_at _ after).written.mp written⟩
  · rintro ⟨after, before, reads, exposed⟩
    have written := (tracks_state_at _ after).written.mpr exposed
    exact ⟨i, after, before, n, declared, reported_some_iff.mpr (.inr ⟨written, reads, rfl⟩)⟩

/-- An overwrite is reported at the first write behind guarded reads. -/
theorem overwrite_iff (lines : List Text) (names : List Text) (file : Text) (lo hi : ℕ)
    {n : Text} (declared : n ∈ names) (i : ℕ) :
    loopCarriedOverwrite file i (lineAt lines i) n ∈
        detectSyncIssues unicode lines lo hi names file ↔
      lo ≤ i ∧ i < hi ∧ eventAt unicode lines n i = .write ∧
        GuardedRead (eventAt unicode lines n) lo i := by
  rw [mem_detect_sync_issues]
  constructor
  · rintro ⟨i', after, before, n', -, found⟩
    obtain ⟨read, writes, same⟩ | ⟨-, -, other⟩ := reported_some_iff.mp found
    · obtain ⟨rfl, rfl⟩ := overwrite_injective same
      exact ⟨after, before, writes, (tracks_state_at _ after).read.mp read⟩
    · cases congrArg Finding.patternId other
  · rintro ⟨after, before, writes, reread⟩
    have read := (tracks_state_at _ after).read.mpr reread
    exact ⟨i, after, before, n, declared, reported_some_iff.mpr (.inl ⟨read, writes, rfl⟩)⟩

/-- The findings at a line are those its event and the events before it call for. -/
theorem barrier_findings_exact (lines : List Text) (lo hi : ℕ) (names : List Text) (file : Text)
    (n : Text) (declared : n ∈ names) (i : ℕ) :
    (missingSyncthreads file i (lineAt lines i) n ∈
        detectSyncIssues unicode lines lo hi names file ↔
      lo ≤ i ∧ i < hi ∧ eventAt unicode lines n i = .read ∧
        ∃ j, lo ≤ j ∧ j < i ∧ eventAt unicode lines n j = .write ∧
          ∀ k, j < k → k < i →
            eventAt unicode lines n k ≠ .sync ∧ eventAt unicode lines n k ≠ .read) ∧
    (loopCarriedOverwrite file i (lineAt lines i) n ∈
        detectSyncIssues unicode lines lo hi names file ↔
      lo ≤ i ∧ i < hi ∧ eventAt unicode lines n i = .write ∧
        ∃ s, lo ≤ s ∧ s < i ∧ eventAt unicode lines n s = .sync ∧
          (∀ k, s < k → k < i →
            eventAt unicode lines n k ≠ .sync ∧ eventAt unicode lines n k ≠ .write) ∧
          ∃ r, s < r ∧ r < i ∧ eventAt unicode lines n r = .read) :=
  ⟨missing_iff lines names file lo hi declared i, overwrite_iff lines names file lo hi declared i⟩

end Arrays

/-- A tile read before the barrier, and refilled behind it and a second read. -/
def racyLines : List Text :=
  ["__shared__ float sA[BM][BK];".toList, "sA[ty][tx] = A[tx];".toList,
    "acc += sA[ty][k];".toList, "__syncthreads();".toList, "acc += sA[ty][k];".toList,
    "sA[ty][tx] = A[tx + 1];".toList]

theorem barrier_findings_exact_racy :
    missingSyncthreads [] 2 (lineAt racyLines 2) "sA".toList ∈
        detectSyncIssues (fun _ => false) racyLines 0 6 ["sA".toList] [] ∧
      loopCarriedOverwrite [] 5 (lineAt racyLines 5) "sA".toList ∈
        detectSyncIssues (fun _ => false) racyLines 0 6 ["sA".toList] [] := by
  have declared : "sA".toList ∈ ["sA".toList] := List.mem_singleton.mpr rfl
  refine ⟨(barrier_findings_exact racyLines 0 6 _ [] _ declared 2).1.mpr ?_,
    (barrier_findings_exact racyLines 0 6 _ [] _ declared 5).2.mpr ?_⟩
  · refine ⟨by decide, by decide, by decide, 1, by decide, by decide, by decide, ?_⟩
    intro k after before
    omega
  · refine ⟨by decide, by decide, by decide, 3, by decide, by decide, by decide, ?_, 4, by decide,
      by decide, by decide⟩
    intro k after before
    obtain rfl : k = 4 := by omega
    decide

end AmpFormal.BarrierScan
