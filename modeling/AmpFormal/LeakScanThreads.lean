import AmpFormal.PagePoolFastThreads

/-!
# leak_scan beside other threads

`PagePoolFast::leak_scan` samples the clock, loads the timestamp of each page in
turn, and then frees what it collected, while other threads allocate, free and
touch pages. Every load and store is a step of its own. Timestamps are readings of
one clock, and a page may be stamped after a scan took its sample and before the
scan loads that page. The age is an unsigned difference, which then wraps.
-/

namespace AmpFormal.LeakScanThreads

open AmpFormal.PagePoolFastModel AmpFormal.PagePoolFastThreads AmpFormal.TransitionRuns

set_option autoImplicit false

/-- The locals of `leak_scan`: its sample of the clock, the pages it has still to
load, and those it collected. -/
structure Scan (pages : Nat) where
  ttlMs : Int32
  now : UInt64
  rest : List (Fin pages)
  orphan : List (Fin pages)

/-- A call of a thread other than `alloc` and `free_pages`, whose program counter
the pool keeps. -/
inductive Call (pages : Nat) where
  | none
  | touching (ts : UInt64) (rest : List (Fin pages))
  | scanning (scan : Scan pages)

def ttlUs (ttlMs : Int32) : Nat := ttlMs.toInt.toNat * 1000

/-- A page collected as an orphan, with the stamp that the scan loaded. -/
structure Collection (pages : Nat) where
  id : Fin pages
  stamp : UInt64
  now : UInt64
  ttlMs : Int32
  deriving DecidableEq, Repr

/-- The stamp was at least `ttl_ms` older than the sample. -/
def Collection.Expired {pages : Nat} (collection : Collection pages) : Prop :=
  collection.stamp.toNat + ttlUs collection.ttlMs ≤ collection.now.toNat

inductive Move (pages : Nat) where
  | alloc (n : Nat) (threadHash : Int) (now : UInt64)
  | freePages (ids : List (Fin pages))
  | touch (ids : List (Fin pages)) (now : UInt64)
  | leakScan (ttlMs : Int32) (now : UInt64)
  | advance (spurious : Bool)
  deriving DecidableEq

structure Scans (Tid : Type) (pages shards : Nat) where
  pool : Threads Tid pages shards
  call : Tid → Call pages
  /-- The last reading of the clock. -/
  clock : UInt64
  collected : List (Collection pages)

namespace Scans

variable {Tid : Type} {pages shards : Nat}

def create (Tid : Type) (pages shards : Nat) [NeZero shards] : Scans Tid pages shards where
  pool := Threads.create Tid pages shards
  call := fun _ => .none
  clock := 0
  collected := []

variable [DecidableEq Tid] [NeZero shards]

def stamp (s : Scans Tid pages shards) (id : Fin pages) (ts : UInt64) : Threads Tid pages shards :=
  let memory := s.pool.memory
  { s.pool with memory := { memory with touchUs := Function.update memory.touchUs id ts } }

def enter (s : Scans Tid pages shards) (tid : Tid) (call : Call pages) : Scans Tid pages shards :=
  { s with call := Function.update s.call tid call }

/-- The page is loaded and compared, and collected when it looks stale. -/
def load (s : Scans Tid pages shards) (tid : Tid) (scan : Scan pages) (id : Fin pages)
    (rest : List (Fin pages)) : Scans Tid pages shards :=
  if s.pool.memory.isStale scan.ttlMs.toInt scan.now id then
    { s with
      call := Function.update s.call tid
        (.scanning { scan with rest, orphan := scan.orphan ++ [id] })
      collected := s.collected ++
        [{ id, stamp := s.pool.memory.touchUs id, now := scan.now, ttlMs := scan.ttlMs }] }
  else s.enter tid (.scanning { scan with rest })

/-- The scan has loaded every page and goes on as `free_pages(orphan)`. -/
def release (s : Scans Tid pages shards) (tid : Tid) (scan : Scan pages) : Scans Tid pages shards :=
  { s.enter tid .none with
    pool := s.pool.put tid s.pool.memory
      { s.pool.thread tid with pc := .freeLoop scan.orphan scan.orphan.length } }

/-- A move of the pool: `alloc`, `free_pages` and their accesses. -/
def stepPool (s : Scans Tid pages shards) (tid : Tid) (move : PagePoolFastThreads.Move pages)
    (clock : UInt64) : Option (Scans Tid pages shards) :=
  (s.pool.step (tid, move)).map fun pool => { s with pool, clock }

/-- One step of one thread. The clock is read when a call is entered. -/
def step (s : Scans Tid pages shards) (move : Tid × Move pages) : Option (Scans Tid pages shards) :=
  match s.call move.1, move.2 with
  | .none, .alloc n threadHash now => s.stepPool move.1 (.alloc n threadHash now) now
  | .none, .freePages ids => s.stepPool move.1 (.freePages ids) s.clock
  | .none, .touch ids now =>
      match (s.pool.thread move.1).pc with
      | .idle => some { s.enter move.1 (.touching now ids) with clock := now }
      | _ => none
  | .none, .leakScan ttlMs now =>
      match (s.pool.thread move.1).pc with
      | .idle =>
          let scan : Scan pages := { ttlMs, now, rest := List.finRange pages, orphan := [] }
          some { s.enter move.1 (.scanning scan) with clock := now }
      | _ => none
  | .none, .advance spurious => s.stepPool move.1 (.advance spurious) s.clock
  | .touching ts (id :: rest), .advance _ =>
      some { s.enter move.1 (.touching ts rest) with pool := s.stamp id ts }
  | .touching _ [], .advance _ => some (s.enter move.1 .none)
  | .scanning scan, .advance _ =>
      match scan.rest with
      | id :: rest => some (s.load move.1 scan id rest)
      | [] => some (s.release move.1 scan)
  | _, _ => none

/-- The clock does not go back, and a scan has a nonnegative `ttl_ms`. -/
def Clocked (s : Scans Tid pages shards) : Tid × Move pages → Prop
  | (_, .alloc _ _ now) | (_, .touch _ now) => s.clock ≤ now
  | (_, .leakScan ttlMs now) => s.clock ≤ now ∧ 0 ≤ ttlMs.toInt
  | (_, .freePages _) | (_, .advance _) => True

def loading (s : Scans Tid pages shards) : Tid × Move pages → Option (Scan pages × Fin pages)
  | (tid, .advance _) =>
      match s.call tid with
      | .scanning scan => scan.rest.head?.map fun id => (scan, id)
      | _ => none
  | _ => none

/-- A loaded stamp is not later than the sample of the scan, or so much later that
the wrapped difference is within the time to live. -/
def Timely (s : Scans Tid pages shards) (move : Tid × Move pages) : Prop :=
  ∀ load ∈ s.loading move,
    (s.pool.memory.touchUs load.2).toNat ≤ load.1.now.toNat ∨
      load.1.now.toNat + 2 ^ 64 ≤ (s.pool.memory.touchUs load.2).toNat + ttlUs load.1.ttlMs

def records (s : Scans Tid pages shards) (move : Tid × Move pages) : List (Collection pages) :=
  match s.loading move with
  | some (scan, id) =>
      if s.pool.memory.isStale scan.ttlMs.toInt scan.now id then
        [{ id, stamp := s.pool.memory.touchUs id, now := scan.now, ttlMs := scan.ttlMs }]
      else []
  | none => []

end Scans

/-! ## One comparison -/

theorem ttl_product {ttlMs : Int32} (nonneg : 0 ≤ ttlMs.toInt) :
    (UInt64.ofInt ttlMs.toInt * 1000).toNat = ttlUs ttlMs := by
  have bound := ttlMs.toInt_lt
  have fits : (ttlMs.toInt % 2 ^ 64).toNat < UInt64.size := by
    have size : UInt64.size = 2 ^ 64 := rfl
    omega
  have converted : (UInt64.ofInt ttlMs.toInt).toNat = ttlMs.toInt.toNat := by
    rw [UInt64.ofInt, UInt64.toNat_ofNat_of_lt' fits]
    omega
  have factor : (1000 : UInt64).toNat = 1000 := rfl
  rw [UInt64.toNat_mul, converted, factor, ttlUs]
  omega

theorem elapsed_exceeds_iff (now stamp ttl : UInt64) :
    now - stamp > ttl ↔ stamp.toNat + ttl.toNat < now.toNat ∨
      (now.toNat < stamp.toNat ∧ stamp.toNat + ttl.toNat < now.toNat + 2 ^ 64) := by
  have nowBound := now.toNat_lt
  have stampBound := stamp.toNat_lt
  have ttlBound := ttl.toNat_lt
  rw [gt_iff_lt, UInt64.lt_iff_toNat_lt, UInt64.toNat_sub]
  omega

/-- The comparison collects expired stamps only, exactly when the stamp is timely. -/
theorem stale_expired_iff {pages shards : Nat} (memory : PagePoolFast pages shards)
    {ttlMs : Int32} (nonneg : 0 ≤ ttlMs.toInt) (now : UInt64) (id : Fin pages) :
    (memory.isStale ttlMs.toInt now id = true →
        (memory.touchUs id).toNat + ttlUs ttlMs ≤ now.toNat) ↔
      (memory.touchUs id).toNat ≤ now.toNat ∨
        now.toNat + 2 ^ 64 ≤ (memory.touchUs id).toNat + ttlUs ttlMs := by
  have nonzero : memory.touchUs id ≠ 0 ↔ (memory.touchUs id).toNat ≠ 0 :=
    not_congr UInt64.toNat_inj.symm
  rw [PagePoolFast.isStale, Bool.and_eq_true, bne_iff_ne, nonzero, decide_eq_true_iff,
    elapsed_exceeds_iff, ttl_product nonneg]
  omega

/-! ## Runs -/

section Runs

variable {Tid : Type} {pages shards : Nat} {s after : Scans Tid pages shards}

def Nonnegative (s : Scans Tid pages shards) : Prop :=
  ∀ tid scan, s.call tid = .scanning scan → 0 ≤ scan.ttlMs.toInt

theorem nonneg_of_loading (nonneg : Nonnegative s) {move : Tid × Move pages}
    {load : Scan pages × Fin pages} (loads : s.loading move = some load) :
    0 ≤ load.1.ttlMs.toInt := by
  obtain ⟨tid, move⟩ := move
  cases move with
  | advance spurious =>
      rw [Scans.loading] at loads
      split at loads
      case h_1 scan within =>
        obtain ⟨id, -, rfl⟩ := Option.map_eq_some_iff.mp loads
        exact nonneg tid scan within
      case h_2 => cases loads
  | _ => cases loads

theorem records_expired_iff (nonneg : Nonnegative s) (move : Tid × Move pages) :
    (∀ collection ∈ s.records move, collection.Expired) ↔ s.Timely move := by
  cases loads : s.loading move with
  | none => simp [Scans.records, Scans.Timely, loads]
  | some load =>
      obtain ⟨scan, id⟩ := load
      have bounded := nonneg_of_loading nonneg loads
      have compared := stale_expired_iff s.pool.memory bounded scan.now id
      simp only [Scans.records, Scans.Timely, loads, Option.mem_def, Option.some.injEq,
        forall_eq']
      rw [← compared]
      by_cases stale : s.pool.memory.isStale scan.ttlMs.toInt scan.now id = true
      · simp [stale, Collection.Expired]
      · simp [stale]

variable [DecidableEq Tid] [NeZero shards]

/-- A move that loads nothing; it may enter or leave a call of its thread. -/
structure LoadsNothing (s after : Scans Tid pages shards) (tid : Tid) (move : Move pages) :
    Prop where
  quiet : s.loading (tid, move) = none
  collected : after.collected = s.collected
  call : after.call = s.call ∨ ∃ call, after.call = Function.update s.call tid call ∧
    ∀ scan, call = .scanning scan → move = .leakScan scan.ttlMs scan.now

theorem step_pool_calls {tid : Tid} {inner : PagePoolFastThreads.Move pages} {clock : UInt64}
    (moved : s.stepPool tid inner clock = some after) :
    after.collected = s.collected ∧ after.call = s.call := by
  obtain ⟨pool, -, rfl⟩ := Option.map_eq_some_iff.mp moved
  exact ⟨rfl, rfl⟩

theorem step_outside {tid : Tid} {move : Move pages} (outside : s.call tid = .none)
    (moved : s.step (tid, move) = some after) : LoadsNothing s after tid move := by
  have quiet : s.loading (tid, move) = none := by
    cases move <;> simp [Scans.loading, outside]
  cases move with
  | alloc n threadHash now =>
      simp only [Scans.step, outside] at moved
      exact ⟨quiet, (step_pool_calls moved).1, Or.inl (step_pool_calls moved).2⟩
  | freePages ids =>
      simp only [Scans.step, outside] at moved
      exact ⟨quiet, (step_pool_calls moved).1, Or.inl (step_pool_calls moved).2⟩
  | advance spurious =>
      simp only [Scans.step, outside] at moved
      exact ⟨quiet, (step_pool_calls moved).1, Or.inl (step_pool_calls moved).2⟩
  | touch ids now =>
      simp only [Scans.step, outside] at moved
      split at moved
      · obtain rfl := Option.some.inj moved
        exact ⟨quiet, rfl, Or.inr ⟨_, rfl, fun scan same => by cases same⟩⟩
      · cases moved
  | leakScan ttlMs now =>
      simp only [Scans.step, outside] at moved
      split at moved
      · obtain rfl := Option.some.inj moved
        exact ⟨quiet, rfl, Or.inr ⟨_, rfl, fun scan same => by cases same; rfl⟩⟩
      · cases moved

theorem step_cases {tid : Tid} {move : Move pages} (moved : s.step (tid, move) = some after) :
    (∃ scan id rest, s.call tid = .scanning scan ∧ s.loading (tid, move) = some (scan, id) ∧
      after = s.load tid scan id rest) ∨ LoadsNothing s after tid move := by
  cases within : s.call tid with
  | none => exact Or.inr (step_outside within moved)
  | touching ts rest =>
      have quiet : s.loading (tid, move) = none := by
        cases move <;> simp [Scans.loading, within]
      cases move with
      | advance spurious =>
          cases rest <;> simp only [Scans.step, within] at moved <;>
            obtain rfl := Option.some.inj moved <;>
            exact Or.inr ⟨quiet, rfl, Or.inr ⟨_, rfl, fun scan same => by cases same⟩⟩
      | _ => simp [Scans.step, within] at moved
  | scanning scan =>
      cases move with
      | advance spurious =>
          cases left : scan.rest with
          | nil =>
              simp only [Scans.step, within, left] at moved
              obtain rfl := Option.some.inj moved
              have quiet : s.loading (tid, .advance spurious) = none := by
                simp [Scans.loading, within, left]
              exact Or.inr ⟨quiet, rfl, Or.inr ⟨_, rfl, fun other same => by cases same⟩⟩
          | cons id rest =>
              simp only [Scans.step, within, left] at moved
              obtain rfl := Option.some.inj moved
              exact Or.inl ⟨scan, id, rest, rfl, by simp [Scans.loading, within, left], rfl⟩
      | _ => simp [Scans.step, within] at moved

theorem step_collected {move : Tid × Move pages} (moved : s.step move = some after) :
    after.collected = s.collected ++ s.records move := by
  obtain ⟨scan, id, rest, -, loads, rfl⟩ | nothing := step_cases moved
  · rw [Scans.records, loads, Scans.load]
    dsimp only
    split
    · rfl
    · rw [List.append_nil]
      rfl
  · rw [Scans.records, nothing.quiet, nothing.collected, List.append_nil]

theorem step_nonnegative (nonneg : Nonnegative s) {move : Tid × Move pages}
    (clocked : s.Clocked move) (moved : s.step move = some after) : Nonnegative after := by
  intro other scan within
  obtain ⟨before, id, rest, running, -, rfl⟩ | ⟨-, -, same | ⟨call, changed, enters⟩⟩ :=
    step_cases moved
  · have calls : ∃ orphan, (s.load move.1 before id rest).call =
        Function.update s.call move.1 (.scanning { before with rest, orphan }) := by
      rw [Scans.load]
      split <;> exact ⟨_, rfl⟩
    obtain ⟨orphan, calls⟩ := calls
    rw [calls] at within
    by_cases own : other = move.1
    · subst own
      rw [Function.update_self] at within
      cases within
      exact nonneg _ before running
    · rw [Function.update_of_ne own] at within
      exact nonneg other scan within
  · rw [same] at within
    exact nonneg other scan within
  · rw [changed] at within
    by_cases own : other = move.1
    · subst own
      rw [Function.update_self] at within
      have entered := enters scan within
      obtain ⟨tid, inner⟩ := move
      cases entered
      exact clocked.2
    · rw [Function.update_of_ne own] at within
      exact nonneg other scan within

theorem reached_nonnegative
    (reached : Reaches Scans.step Scans.Clocked (Scans.create Tid pages shards) s) :
    Nonnegative s := by
  refine reaches_invariant ?_ ?_ reached
  · intro tid scan within
    cases within
  · intro before move after _ nonneg clocked moved
    exact step_nonnegative nonneg clocked moved

/-- A run is timely throughout exactly when every page that its scans collected had
expired. -/
theorem orphans_expired_iff :
    Reaches Scans.step (fun s move => s.Clocked move ∧ s.Timely move)
        (Scans.create Tid pages shards) s ↔
      Reaches Scans.step Scans.Clocked (Scans.create Tid pages shards) s ∧
        ∀ collection ∈ s.collected, collection.Expired := by
  constructor
  · intro reached
    have clocked := reaches_weaken (fun _ _ allowed => And.left allowed) reached
    refine ⟨clocked, ?_⟩
    refine reaches_invariant (motive := fun s => ∀ collection ∈ s.collected, collection.Expired)
      (by simp [Scans.create]) ?_ reached
    intro before move after prior expired allowed moved collection member
    rw [step_collected moved, List.mem_append] at member
    have nonneg := reached_nonnegative (reaches_weaken (fun _ _ allowed => And.left allowed) prior)
    obtain old | new := member
    · exact expired collection old
    · exact (records_expired_iff nonneg move).mpr allowed.2 collection new
  · rintro ⟨reached, expired⟩
    induction reached with
    | start => exact .start
    | @call before after prior move clocked moved ih =>
        have nonneg := reached_nonnegative prior
        rw [step_collected moved] at expired
        have timely := (records_expired_iff nonneg move).mp fun collection new =>
          expired collection (List.mem_append_right _ new)
        exact .call (ih fun collection old => expired collection (List.mem_append_left _ old))
          move ⟨clocked, timely⟩ moved

end Runs

section Decidable

variable {Tid : Type} {pages shards : Nat} (s : Scans Tid pages shards)

instance clockedDecidable : ∀ move, Decidable (s.Clocked move)
  | (_, .alloc _ _ now) | (_, .touch _ now) => inferInstanceAs (Decidable (s.clock ≤ now))
  | (_, .leakScan ttlMs now) =>
      inferInstanceAs (Decidable (s.clock ≤ now ∧ 0 ≤ ttlMs.toInt))
  | (_, .freePages _) | (_, .advance _) => isTrue trivial

instance timelyDecidable (move : Tid × Move pages) : Decidable (s.Timely move) :=
  inferInstanceAs (Decidable (∀ load ∈ s.loading move, _ ∨ _))

instance expiredDecidable (collection : Collection pages) : Decidable collection.Expired :=
  inferInstanceAs (Decidable (_ ≤ _))

end Decidable

/-- One thread allocates the only page, and another scans long after. -/
def lateScanMoves : List (Bool × Move 1) :=
  [(false, .alloc 1 0 5), (false, .advance false), (false, .advance false),
    (false, .advance false), (false, .advance false), (false, .advance false),
    (true, .leakScan 1 2000), (true, .advance false)]

theorem orphans_expired_late_scan :
    ({ id := 0, stamp := 5, now := 2000, ttlMs := 1 } : Collection 1).Expired := by
  have reached : Reaches Scans.step (fun s move => s.Clocked move ∧ s.Timely move)
      (Scans.create Bool 1 1) _ := reaches_of_run_get lateScanMoves (by decide +kernel)
  exact (orphans_expired_iff.mp reached).2 _ (by decide +kernel)

/-- The page is touched between the sample of the scan and its load. -/
def touchedMoves : List (Bool × Move 1) :=
  [(false, .alloc 1 0 5), (false, .advance false), (false, .advance false),
    (false, .advance false), (false, .advance false), (false, .advance false),
    (true, .leakScan 1 10), (false, .touch [0] 11), (false, .advance false),
    (true, .advance false)]

/-- The scan collects a page that was touched a microsecond after its sample. -/
theorem touched_page_collected :
    ∃ s : Scans Bool 1 1, Reaches Scans.step Scans.Clocked (Scans.create Bool 1 1) s ∧
      ∃ collection ∈ s.collected, ¬collection.Expired := by
  refine ⟨_, reaches_of_run_get touchedMoves (by decide +kernel), ?_⟩
  exact ⟨{ id := 0, stamp := 11, now := 10, ttlMs := 1 }, by decide +kernel, by decide +kernel⟩

end AmpFormal.LeakScanThreads
