import AmpFormal.CacheFastRefinement
import AmpFormal.TransitionRuns
import Mathlib.Data.Fintype.Basic

/-!
# The two-tier cache under threads

Each section under `smtx_` and each call into `disk_` is a step. The disk is
written and L1 is updated in two steps that nothing ties together, and a get
promotes what it read from disk earlier. A call that reaches its update of L1 when
the disk no longer returns its payload leaves L1 stale, unless another put of the
key is still to update it.
-/

namespace AmpFormal.CacheFastThreads

open AmpFormal.FileDirectory AmpFormal.TransitionRuns AmpFormal.CacheFastModel
open AmpFormal.CacheFastModel.CacheStoreFast AmpFormal.CacheFastRefinement

set_option autoImplicit false

variable {Tid : Type}

inductive Pc where
  | idle
  | getLookup (key : String)
  | getDisk (key : String)
  | getPromote (key : String) (bin : Bytes)
  | putDisk (key : String) (bin : Bytes)
  | putStore (key : String) (bin : Bytes)
  deriving DecidableEq, Repr

structure Threads (Tid : Type) where
  cache : CacheStoreFast
  pc : Tid → Pc

inductive Action (Tid : Type) where
  | call (tid : Tid) (call : Call)
  | step (tid : Tid)
  deriving DecidableEq, Repr

def entry : Call → Pc
  | .get key => .getLookup key
  | .put key bin => .putDisk key bin

def next (cache : CacheStoreFast) : Pc → Option (CacheStoreFast × Pc)
  | .idle => none
  | .getLookup key =>
      match cache.l1 key with
      | some entry => some (cache.hit key entry, .idle)
      | none => some (cache, .getDisk key)
  | .getDisk key =>
      match CacheStoreModel.get cache.disk key with
      | none => some ({ cache with misses := cache.misses + 1 }, .idle)
      | some bin => some (cache, .getPromote key bin)
  | .getPromote key bin =>
      some ({ cache.promote key bin with l2Hits := cache.l2Hits + 1 }, .idle)
  | .putDisk key bin =>
      (CacheStoreModel.put cache.disk key bin).map fun disk =>
        ({ cache with disk }, .putStore key bin)
  | .putStore key bin => some (cache.store key bin, .idle)

namespace Threads

variable [DecidableEq Tid]

def create (Tid : Type) (disk : Directory String) (maxL1Bytes : UInt64) : Threads Tid where
  cache := CacheStoreFast.create disk maxL1Bytes
  pc := fun _ => .idle

def step (s : Threads Tid) : Action Tid → Option (Threads Tid)
  | .call tid call =>
      if s.pc tid = .idle then some { s with pc := Function.update s.pc tid (entry call) } else none
  | .step tid =>
      (next s.cache (s.pc tid)).map fun after =>
        { cache := after.1, pc := Function.update s.pc tid after.2 }

abbrev Reached (allowed : Threads Tid → Action Tid → Prop) (disk : Directory String)
    (maxL1Bytes : UInt64) (s : Threads Tid) : Prop :=
  Reaches step allowed (create Tid disk maxL1Bytes) s

end Threads

open Threads

/-- Whenever no call is in progress, L1 agrees with the disk. -/
def CoherentAtRest (s : Threads Tid) : Prop :=
  (∀ tid, s.pc tid = .idle) → Coherent s.cache

def storing (pc : Pc) (key : String) : Bool :=
  match pc with
  | .putStore name _ => name == key
  | _ => false

/-- The disk does not return the payload of the call any more, and no other put of
the key is going to update L1. -/
def Overtaken (s : Threads Tid) (tid : Tid) (key : String) (bin : Bytes) : Prop :=
  CacheStoreModel.get s.cache.disk key ≠ some bin ∧
    ∀ other, other ≠ tid → storing (s.pc other) key = false

/-- The payload that the next step of a thread writes into L1. -/
def written (cache : CacheStoreFast) : Pc → Option (String × Bytes)
  | .getPromote key bin => if (cache.l1 key).isSome then none else some (key, bin)
  | .putStore key bin => some (key, bin)
  | _ => none

def callKey : Call → String
  | .get key | .put key _ => key

/-- Calls have plain keys, and one that was overtaken does not write L1. -/
def WritesInTime (s : Threads Tid) : Action Tid → Prop
  | .call _ call => CacheStoreModel.Plain (callKey call)
  | .step tid => ∀ write ∈ written s.cache (s.pc tid), ¬Overtaken s tid write.1 write.2

/-- An entry that the disk does not confirm has a put of its key behind it. -/
def Covered (s : Threads Tid) : Prop :=
  ∀ key entry, s.cache.l1 key = some entry →
    CacheStoreModel.get s.cache.disk key = some entry.data ∨
      ∃ tid, storing (s.pc tid) key = true

/-- The key of the call that a thread is in. -/
def Pc.key : Pc → Option String
  | .idle => none
  | .getLookup key | .getDisk key | .getPromote key _ | .putDisk key _ | .putStore key _ => some key

structure PlainKeys (s : Threads Tid) : Prop where
  called : ∀ tid key, (s.pc tid).key = some key → CacheStoreModel.Plain key
  cached : ∀ key entry, s.cache.l1 key = some entry → CacheStoreModel.Plain key

theorem next_key {cache after : CacheStoreFast} {pc later : Pc}
    (moved : next cache pc = some (after, later)) :
    (∀ key, later.key = some key → pc.key = some key) ∧
      ∀ key entry, after.l1 key = some entry →
        pc.key = some key ∨ ∃ older, cache.l1 key = some older := by
  have shrunk : Shrinks cache after → ∀ key entry, after.l1 key = some entry →
      pc.key = some key ∨ ∃ older, cache.l1 key = some older := by
    intro shrinks key entry present
    obtain ⟨older, before, _⟩ := shrinks.entries key entry present
    exact Or.inr ⟨older, before⟩
  have written : ∀ key bin, pc.key = some key → Writes cache after key bin →
      ∀ other entry, after.l1 other = some entry →
        pc.key = some other ∨ ∃ older, cache.l1 other = some older := by
    intro key bin own writes other entry present
    by_cases here : other = key
    · exact Or.inl (here ▸ own)
    · obtain ⟨older, before, _⟩ := writes.others other entry here present
      exact Or.inr ⟨older, before⟩
  cases pc with
  | idle => cases moved
  | getLookup key =>
      simp only [next] at moved
      split at moved
      case h_1 entry present =>
        cases moved
        exact ⟨fun _ none => (nomatch none), shrunk (hit_shrinks present)⟩
      case h_2 =>
        cases moved
        exact ⟨fun _ same => same, shrunk (shrinks_refl cache)⟩
  | getDisk key =>
      simp only [next] at moved
      split at moved
      case h_1 =>
        cases moved
        exact ⟨fun _ none => (nomatch none), shrunk ⟨rfl, rfl, (shrinks_refl cache).entries⟩⟩
      case h_2 =>
        cases moved
        exact ⟨fun _ same => same, shrunk (shrinks_refl cache)⟩
  | getPromote key bin =>
      cases moved
      refine ⟨fun _ none => (nomatch none), ?_⟩
      cases present : cache.l1 key with
      | some entry =>
          have unchanged : cache.promote key bin = cache := by
            rw [CacheStoreFast.promote, present]
          rw [unchanged] at shrunk ⊢
          exact shrunk ⟨rfl, rfl, (shrinks_refl cache).entries⟩
      | none =>
          have promoted := promote_writes present bin
          exact written key bin rfl
            ⟨promoted.disk, promoted.limit, promoted.written, promoted.others⟩
  | putDisk key bin =>
      obtain ⟨disk, _, result⟩ := Option.map_eq_some_iff.mp moved
      cases result
      exact ⟨fun _ same => same, fun name entry present => Or.inr ⟨entry, present⟩⟩
  | putStore key bin =>
      cases moved
      exact ⟨fun _ none => (nomatch none), written key bin rfl (store_writes cache key bin)⟩

theorem still_storing [DecidableEq Tid] {pcs : Tid → Pc} {tid other : Tid} {key : String}
    (pending : storing (pcs other) key = true) (apart : other ≠ tid) (pc : Pc) :
    storing (Function.update pcs tid pc other) key = true := by
  rw [Function.update_of_ne apart]
  exact pending

section Step

variable [DecidableEq Tid] {s : Threads Tid}

theorem covered_of_shrinks (covered : Covered s) {cache : CacheStoreFast}
    (shrinks : Shrinks s.cache cache) {tid : Tid} (pc : Pc)
    (bystander : ∀ key, storing (s.pc tid) key = false) :
    Covered { cache, pc := Function.update s.pc tid pc } := by
  intro key entry present
  obtain ⟨older, before, same⟩ := shrinks.entries key entry present
  rcases covered key older before with fresh | ⟨other, pending⟩
  · rw [same] at fresh
    exact Or.inl (by rw [shrinks.disk]; exact fresh)
  · have apart : other ≠ tid := by
      rintro rfl
      rw [bystander key] at pending
      cases pending
    exact Or.inr ⟨other, still_storing pending apart pc⟩

theorem covered_of_writes (covered : Covered s) {cache : CacheStoreFast} {tid : Tid} {key : String}
    {bin : Bytes} (writes : Writes s.cache cache key bin)
    (inTime : ¬Overtaken s tid key bin)
    (owner : ∀ other, storing (s.pc tid) other = true → other = key) :
    Covered { cache, pc := Function.update s.pc tid .idle } := by
  intro name entry present
  rw [writes.disk]
  by_cases here : name = key
  · subst here
    obtain ⟨written, found, data⟩ := writes.written
    rw [present] at found
    rw [Option.some.inj found, data]
    by_cases fresh : CacheStoreModel.get s.cache.disk name = some bin
    · exact Or.inl fresh
    · have pending : ∃ other, other ≠ tid ∧ storing (s.pc other) name = true := by
        by_contra alone
        refine inTime ⟨fresh, fun other apart => ?_⟩
        by_contra busy
        exact alone ⟨other, apart, by simpa using busy⟩
      obtain ⟨other, apart, busy⟩ := pending
      exact Or.inr ⟨other, still_storing busy apart .idle⟩
  · obtain ⟨older, before, same⟩ := writes.others name entry here present
    rw [← same]
    rcases covered name older before with fresh | ⟨other, pending⟩
    · exact Or.inl fresh
    · have apart : other ≠ tid := by
        rintro rfl
        exact here (owner name pending)
      exact Or.inr ⟨other, still_storing pending apart .idle⟩

theorem call_covered (covered : Covered s) {tid : Tid} (idle : s.pc tid = .idle) (call : Call) :
    Covered { s with pc := Function.update s.pc tid (entry call) } :=
  covered_of_shrinks covered (shrinks_refl s.cache) (entry call) fun key => by rw [idle]; rfl

/-- A put writes the disk: its entry in L1 is covered by the put itself. -/
theorem put_disk_covered (covered : Covered s) (plain : PlainKeys s) {tid : Tid} {key : String}
    {bin : Bytes} {disk : Directory String} (pc : s.pc tid = .putDisk key bin)
    (written : CacheStoreModel.put s.cache.disk key bin = some disk) :
    Covered { cache := { s.cache with disk },
              pc := Function.update s.pc tid (.putStore key bin) } := by
  intro name entry present
  by_cases here : name = key
  · refine Or.inr ⟨tid, ?_⟩
    simp [here, storing]
  · rw [CacheStoreModel.put_get written (plain.called tid key (by rw [pc]; rfl))
      (plain.cached name entry present), if_neg here]
    rcases covered name entry present with fresh | ⟨other, pending⟩
    · exact Or.inl fresh
    · have apart : other ≠ tid := by
        rintro rfl
        rw [pc] at pending
        cases pending
      exact Or.inr ⟨other, still_storing pending apart (.putStore key bin)⟩

theorem step_covered (covered : Covered s) (plain : PlainKeys s) {tid : Tid}
    (inTime : WritesInTime s (.step tid)) {cache : CacheStoreFast} {pc : Pc}
    (moved : next s.cache (s.pc tid) = some (cache, pc)) :
    Covered { cache, pc := Function.update s.pc tid pc } := by
  have inTime : ∀ write ∈ written s.cache (s.pc tid), ¬Overtaken s tid write.1 write.2 := inTime
  cases at_step : s.pc tid with
  | idle =>
      rw [at_step] at moved
      cases moved
  | getLookup key =>
      have bystander : ∀ other, storing (s.pc tid) other = false := fun other => by rw [at_step]; rfl
      simp only [at_step, next] at moved
      split at moved
      case h_1 entry present =>
        cases moved
        exact covered_of_shrinks covered (hit_shrinks present) .idle bystander
      case h_2 =>
        cases moved
        exact covered_of_shrinks covered (shrinks_refl s.cache) (.getDisk key) bystander
  | getDisk key =>
      have bystander : ∀ other, storing (s.pc tid) other = false := fun other => by rw [at_step]; rfl
      simp only [at_step, next] at moved
      split at moved
      case h_1 =>
        cases moved
        have same : Shrinks s.cache { s.cache with misses := s.cache.misses + 1 } :=
          ⟨rfl, rfl, (shrinks_refl s.cache).entries⟩
        exact covered_of_shrinks covered same .idle bystander
      case h_2 bin found =>
        cases moved
        exact covered_of_shrinks covered (shrinks_refl s.cache) (.getPromote key bin) bystander
  | getPromote key bin =>
      have bystander : ∀ other, storing (s.pc tid) other = false := fun other => by rw [at_step]; rfl
      rw [at_step] at inTime moved
      cases moved
      cases present : s.cache.l1 key with
      | some entry =>
          have unchanged : s.cache.promote key bin = s.cache := by
            rw [CacheStoreFast.promote, present]
          rw [unchanged]
          exact covered_of_shrinks covered ⟨rfl, rfl, (shrinks_refl s.cache).entries⟩ .idle bystander
      | none =>
          have promoted := promote_writes present bin
          refine covered_of_writes covered
            ⟨promoted.disk, promoted.limit, promoted.written, promoted.others⟩
            (inTime (key, bin) (by simp [written, present])) ?_
          intro other pending
          rw [bystander other] at pending
          cases pending
  | putDisk key bin =>
      rw [at_step] at moved
      obtain ⟨disk, written, result⟩ := Option.map_eq_some_iff.mp moved
      cases result
      exact put_disk_covered covered plain at_step written
  | putStore key bin =>
      rw [at_step] at inTime moved
      cases moved
      refine covered_of_writes covered (store_writes s.cache key bin) (inTime (key, bin) rfl) ?_
      intro other pending
      rw [at_step] at pending
      exact (beq_iff_eq.mp pending).symm

theorem overtaken_write_uncovers {tid : Tid} {key : String} {bin : Bytes}
    (overtaken : Overtaken s tid key bin) {cache : CacheStoreFast}
    (writes : Writes s.cache cache key bin) :
    ¬Covered { cache, pc := Function.update s.pc tid .idle } := by
  intro covered
  obtain ⟨entry, present, data⟩ := writes.written
  rcases covered key entry present with fresh | ⟨other, pending⟩
  · rw [writes.disk, data] at fresh
    exact overtaken.1 fresh
  · by_cases same : other = tid
    · subst same
      simp [storing] at pending
    · simp only [Function.update_of_ne same, overtaken.2 other same] at pending
      cases pending

/-- Exactly the writes of overtaken calls break the invariant. -/
theorem step_covered_iff (covered : Covered s) (plain : PlainKeys s) {tid : Tid}
    {cache : CacheStoreFast} {pc : Pc} (moved : next s.cache (s.pc tid) = some (cache, pc)) :
    Covered { cache, pc := Function.update s.pc tid pc } ↔ WritesInTime s (.step tid) := by
  refine ⟨fun after write writing overtaken => ?_,
    fun inTime => step_covered covered plain inTime moved⟩
  cases at_step : s.pc tid with
  | idle => simp [at_step, written] at writing
  | getLookup key => simp [at_step, written] at writing
  | getDisk key => simp [at_step, written] at writing
  | putDisk key bin => simp [at_step, written] at writing
  | getPromote key bin =>
      cases present : s.cache.l1 key with
      | some entry => simp [at_step, written, present] at writing
      | none =>
          simp only [at_step, written, present, Option.isSome_none, Bool.false_eq_true, if_false,
            Option.mem_def, Option.some.injEq] at writing
          rw [at_step] at moved
          cases moved
          cases writing
          have promoted := promote_writes present bin
          exact overtaken_write_uncovers overtaken
            ⟨promoted.disk, promoted.limit, promoted.written, promoted.others⟩ after
  | putStore key bin =>
      simp only [at_step, written, Option.mem_def, Option.some.injEq] at writing
      rw [at_step] at moved
      cases moved
      cases writing
      exact overtaken_write_uncovers overtaken (store_writes s.cache key bin) after

theorem call_plain_keys (plain : PlainKeys s) (tid : Tid) {call : Call}
    (named : CacheStoreModel.Plain (callKey call)) :
    PlainKeys { s with pc := Function.update s.pc tid (entry call) } := by
  refine ⟨?_, plain.cached⟩
  intro other key own
  by_cases same : other = tid
  · rw [same] at own
    simp only [Function.update_self] at own
    cases call <;> (cases own; exact named)
  · simp only [Function.update_of_ne same] at own
    exact plain.called other key own

theorem step_plain_keys (plain : PlainKeys s) {tid : Tid} {cache : CacheStoreFast} {pc : Pc}
    (moved : next s.cache (s.pc tid) = some (cache, pc)) :
    PlainKeys { cache, pc := Function.update s.pc tid pc } := by
  obtain ⟨thread, cached⟩ := next_key moved
  constructor
  · intro other key own
    by_cases same : other = tid
    · rw [same] at own
      simp only [Function.update_self] at own
      exact plain.called tid key (thread key own)
    · simp only [Function.update_of_ne same] at own
      exact plain.called other key own
  · intro key entry present
    rcases cached key entry present with own | ⟨older, before⟩
    · exact plain.called tid key own
    · exact plain.cached key older before

theorem reached_covered {disk : Directory String} {maxL1Bytes : UInt64}
    (reached : Reached WritesInTime disk maxL1Bytes s) : Covered s ∧ PlainKeys s := by
  have start : Covered (create Tid disk maxL1Bytes) ∧ PlainKeys (create Tid disk maxL1Bytes) :=
    ⟨fun _ _ present => (nomatch present), fun _ _ own => (nomatch own),
      fun _ _ present => (nomatch present)⟩
  refine reaches_invariant (motive := fun s => Covered s ∧ PlainKeys s) start ?_ reached
  rintro before action after - ⟨covered, plain⟩ inTime moved
  cases action with
  | call tid call =>
      simp only [step] at moved
      split at moved
      case isTrue idle =>
        cases moved
        exact ⟨call_covered covered idle call, call_plain_keys plain tid inTime⟩
      case isFalse => cases moved
  | step tid =>
      obtain ⟨⟨cache, pc⟩, taken, rfl⟩ := Option.map_eq_some_iff.mp moved
      exact ⟨step_covered covered plain inTime taken, step_plain_keys plain taken⟩

/-- When no overtaken call writes L1, L1 agrees with the disk whenever the cache is
at rest. -/
theorem coherent_in_time {disk : Directory String} {maxL1Bytes : UInt64}
    (reached : Reached WritesInTime disk maxL1Bytes s) : CoherentAtRest s := by
  intro idle key entry present
  rcases (reached_covered reached).1 key entry present with fresh | ⟨tid, pending⟩
  · exact fresh
  · rw [idle tid] at pending
    cases pending

end Step

instance overtakenDecidable [Fintype Tid] [DecidableEq Tid] (s : Threads Tid) (tid : Tid)
    (key : String) (bin : Bytes) : Decidable (Overtaken s tid key bin) :=
  inferInstanceAs (Decidable (_ ∧ _))

instance writesInTimeDecidable [Fintype Tid] [DecidableEq Tid] (s : Threads Tid) :
    ∀ action, Decidable (WritesInTime s action)
  | .call _ call => inferInstanceAs (Decidable (CacheStoreModel.Plain (callKey call)))
  | .step tid =>
      inferInstanceAs (Decidable (∀ write ∈ written s.cache (s.pc tid),
        ¬Overtaken s tid write.1 write.2))

def putTwice : List (Action Bool) :=
  [.call true (.put "key" [7]), .step true, .step true, .call false (.put "key" [8]), .step false,
    .step false]

theorem coherent_in_time_twice :
    CoherentAtRest ((runCalls step WritesInTime (create Bool (Directory.empty String) 100)
      putTwice).get (by decide +kernel)) :=
  coherent_in_time (reaches_of_run_get putTwice (by decide +kernel))

def putCrossed : List (Action Bool) :=
  [.call true (.put "key" [7]), .call false (.put "key" [8]), .step true, .step false, .step false,
    .step true]

theorem crossed_puts_leave_stale_entry :
    ∃ s : Threads Bool,
      Reached (fun _ _ => True) (Directory.empty String) 100 s ∧ ¬CoherentAtRest s := by
  refine ⟨_, reaches_of_run_get putCrossed (by decide +kernel), fun coherent => ?_⟩
  have fresh := coherent (by decide +kernel) "key" { data := [7], recentlyUsed := true }
    (by decide +kernel)
  revert fresh
  decide +kernel

end AmpFormal.CacheFastThreads
