import AmpFormal.LeakScanThreads
import AmpFormal.PagePoolFastSequential
import AmpFormal.PagePoolFastSolo

/-!
# A scan without interruption

When no other thread takes a step during a `leak_scan`, it does what the sequential
`leak_scan` does. Every timestamp in memory, or on its way there, was read from the
clock before, so none is later than the sample of such a scan, and only expired
pages are reclaimed.
-/

namespace AmpFormal.LeakScanAlone

open AmpFormal.PagePoolFastModel AmpFormal.PagePoolFastThreads AmpFormal.PagePoolFastSolo
open AmpFormal.LeakScanThreads AmpFormal.TransitionRuns

set_option autoImplicit false

variable {Tid : Type} {pages shards : Nat}

/-! ## Stamps and the clock -/

/-- The timestamp that an `alloc` under way stores into the pages it pops. -/
def pendingStamp : Pc pages shards → Option UInt64
  | .loadTop alloc | .loadNext alloc _ | .popHead alloc _ _ | .stampTop alloc _
  | .countAlloc alloc => some alloc.ts
  | _ => none

theorem free_loop_stamp (ids : List (Fin pages)) (count : Nat) :
    pendingStamp (Pc.freeLoop ids count : Pc pages shards) = none := by
  cases ids <;> rfl

theorem alloc_loop_stamp (alloc : AllocFrame pages shards) {ts : UInt64}
    (pending : ts ∈ pendingStamp (Pc.allocLoop alloc)) : ts = alloc.ts := by
  unfold Pc.allocLoop at pending
  split at pending
  · split at pending
    · exact (Option.mem_some.mp pending).symm
    · rw [free_loop_stamp] at pending
      cases pending
  · exact (Option.mem_some.mp pending).symm

/-- No timestamp in memory, or on its way there from one thread, is later than `clock`. -/
structure Bounded (clock : UInt64) (memory : PagePoolFast pages shards) (pc : Pc pages shards) :
    Prop where
  stored : ∀ id, memory.touchUs id ≤ clock
  pending : ∀ ts ∈ pendingStamp pc, ts ≤ clock

theorem stamped_le {clock ts : UInt64} {touchUs : Fin pages → UInt64}
    (stored : ∀ id, touchUs id ≤ clock) (bound : ts ≤ clock) (top id : Fin pages) :
    Function.update touchUs top ts id ≤ clock := by
  by_cases same : id = top
  · rw [same, Function.update_self]
    exact bound
  · rw [Function.update_of_ne same]
    exact stored id

theorem bounded_later {clock later : UInt64} (passes : clock ≤ later)
    {memory : PagePoolFast pages shards} {pc : Pc pages shards} (bounded : Bounded clock memory pc) :
    Bounded later memory pc :=
  ⟨fun id => UInt64.le_trans (bounded.stored id) passes,
    fun ts pending => UInt64.le_trans (bounded.pending ts pending) passes⟩

/-- No timestamp in memory, or on its way there, is later than the clock. -/
structure Stamped (s : Scans Tid pages shards) : Prop where
  pool : ∀ tid, Bounded s.clock s.pool.memory (s.pool.thread tid).pc
  touching : ∀ tid ts rest, s.call tid = .touching ts rest → ts ≤ s.clock

theorem stamped_pool_later {s : Scans Tid pages shards} (stamped : Stamped s) {clock : UInt64}
    (passes : s.clock ≤ clock) (tid : Tid) :
    Bounded clock s.pool.memory (s.pool.thread tid).pc :=
  bounded_later passes (stamped.pool tid)

variable [DecidableEq Tid]

theorem put_bounded {clock : UInt64} {pool : Threads Tid pages shards}
    (bounded : ∀ tid, Bounded clock pool.memory (pool.thread tid).pc) {tid : Tid}
    {memory : PagePoolFast pages shards} {thread : Thread pages shards}
    (moved : Bounded clock memory thread.pc) (other : Tid) :
    Bounded clock (pool.put tid memory thread).memory ((pool.put tid memory thread).thread other).pc := by
  refine ⟨moved.stored, fun ts pending => ?_⟩
  by_cases own : other = tid
  · subst own
    simp only [Threads.put, Function.update_self] at pending
    exact moved.pending ts pending
  · simp only [Threads.put, Function.update_of_ne own] at pending
    exact (bounded other).pending ts pending

theorem call_stamped {s after : Scans Tid pages shards} (stamped : Stamped s) {tid : Tid}
    {call : LeakScanThreads.Call pages}
    (pool : ∀ tid, Bounded after.clock after.pool.memory (after.pool.thread tid).pc)
    (changed : after.call = Function.update s.call tid call) (passes : s.clock ≤ after.clock)
    (sampled : ∀ ts rest, call = .touching ts rest → ts ≤ after.clock) : Stamped after := by
  refine ⟨pool, fun other ts rest within => ?_⟩
  rw [changed] at within
  by_cases own : other = tid
  · subst own
    rw [Function.update_self] at within
    exact sampled ts rest within
  · rw [Function.update_of_ne own] at within
    exact UInt64.le_trans (stamped.touching other ts rest within) passes

variable [NeZero shards]

theorem on_top_stamp (alloc : AllocFrame pages shards) (top : Option (Fin pages)) {ts : UInt64}
    (pending : ts ∈ pendingStamp (Pc.onTop alloc top)) : ts = alloc.ts := by
  cases top with
  | none => exact alloc_loop_stamp { alloc with s := alloc.s + 1 } pending
  | some top => exact (Option.mem_some.mp pending).symm

theorem taken_stamp (alloc : AllocFrame pages shards) {ts : UInt64}
    (pending : ts ∈ pendingStamp (Pc.taken alloc)) : ts = alloc.ts := by
  unfold Pc.taken at pending
  split at pending
  · exact alloc_loop_stamp { alloc with s := alloc.s + 1 } pending
  · exact (Option.mem_some.mp pending).symm

theorem advance_bounded {clock : UInt64} {spurious : Bool}
    {memory memory' : PagePoolFast pages shards} {thread thread' : Thread pages shards}
    (bounded : Bounded clock memory thread.pc)
    (moved : advance spurious memory thread = some (memory', thread')) :
    Bounded clock memory' thread'.pc := by
  obtain ⟨stored, pending⟩ := bounded
  unfold advance at moved
  split at moved
  case h_1 => cases moved
  case h_2 alloc pc =>
    rw [pc] at pending
    cases moved
    exact ⟨stored, fun ts later => on_top_stamp alloc _ later ▸ pending alloc.ts rfl⟩
  case h_3 alloc top pc =>
    rw [pc] at pending
    cases moved
    exact ⟨stored, pending⟩
  case h_4 alloc top nxt pc =>
    rw [pc] at pending
    split at moved
    case isTrue =>
      cases moved
      exact ⟨stored, pending⟩
    case isFalse =>
      cases moved
      exact ⟨stored, fun ts later => on_top_stamp alloc _ later ▸ pending alloc.ts rfl⟩
  case h_5 alloc top pc =>
    rw [pc] at pending
    cases moved
    exact ⟨stamped_le stored (pending alloc.ts rfl) top,
      fun ts later => taken_stamp _ later ▸ pending alloc.ts rfl⟩
  case h_6 alloc pc =>
    cases moved
    exact ⟨stored, fun ts later => by cases later⟩
  case h_7 free pc =>
    cases moved
    exact ⟨stamped_le stored (UInt64.zero_le) free.id, fun ts later => by cases later⟩
  case h_8 free pc =>
    cases moved
    exact ⟨stored, fun ts later => by cases later⟩
  case h_9 free shard pc =>
    cases moved
    exact ⟨stored, fun ts later => by cases later⟩
  case h_10 free shard top pc =>
    cases moved
    exact ⟨stored, fun ts later => by cases later⟩
  case h_11 free shard top pc =>
    split at moved
    case isTrue =>
      cases moved
      exact ⟨stored, fun ts later => by rw [free_loop_stamp] at later; cases later⟩
    case isFalse =>
      cases moved
      exact ⟨stored, fun ts later => by cases later⟩
  case h_12 count pc =>
    cases moved
    exact ⟨stored, fun ts later => by cases later⟩

theorem pool_step_bounded {clock : UInt64} {pool after : Threads Tid pages shards}
    (bounded : ∀ tid, Bounded clock pool.memory (pool.thread tid).pc) {tid : Tid}
    {inner : PagePoolFastThreads.Move pages}
    (sampled : ∀ n threadHash ts, inner = .alloc n threadHash ts → ts ≤ clock)
    (moved : pool.step (tid, inner) = some after) (other : Tid) :
    Bounded clock after.memory (after.thread other).pc := by
  cases inner with
  | alloc n threadHash ts =>
      simp only [Threads.step] at moved
      split at moved
      · obtain rfl := Option.some.inj moved
        refine put_bounded bounded ⟨(bounded tid).stored, fun pending entered => ?_⟩ other
        exact alloc_loop_stamp _ entered ▸ sampled n threadHash ts rfl
      · cases moved
  | freePages ids =>
      simp only [Threads.step] at moved
      split at moved
      · obtain rfl := Option.some.inj moved
        refine put_bounded bounded ⟨(bounded tid).stored, fun pending entered => ?_⟩ other
        rw [free_loop_stamp] at entered
        cases entered
      · cases moved
  | advance spurious =>
      obtain ⟨⟨memory, thread⟩, access, rfl⟩ := Option.map_eq_some_iff.mp moved
      exact put_bounded bounded (advance_bounded (bounded tid) access) other

section Steps

variable {s after : Scans Tid pages shards} {tid : Tid}

theorem step_pool_stamped (stamped : Stamped s) {inner : PagePoolFastThreads.Move pages}
    {clock : UInt64} (passes : s.clock ≤ clock)
    (sampled : ∀ n threadHash ts, inner = .alloc n threadHash ts → ts ≤ clock)
    (moved : s.stepPool tid inner clock = some after) : Stamped after := by
  obtain ⟨pool, done, rfl⟩ := Option.map_eq_some_iff.mp moved
  refine ⟨?_, fun other ts rest within => ?_⟩
  · exact pool_step_bounded (fun other => bounded_later passes (stamped.pool other)) sampled done
  · exact UInt64.le_trans (stamped.touching other ts rest within) passes

theorem step_stamped (stamped : Stamped s) {move : LeakScanThreads.Move pages}
    (clocked : s.Clocked (tid, move)) (moved : s.step (tid, move) = some after) :
    Stamped after := by
  have same := UInt64.le_refl s.clock
  cases within : s.call tid with
  | none =>
      cases move with
      | alloc n threadHash now =>
          simp only [Scans.step, within] at moved
          refine step_pool_stamped stamped clocked ?_ moved
          intro m hash ts equal
          cases equal
          exact UInt64.le_refl now
      | freePages ids =>
          simp only [Scans.step, within] at moved
          exact step_pool_stamped stamped same (fun n hash ts equal => by cases equal) moved
      | advance spurious =>
          simp only [Scans.step, within] at moved
          exact step_pool_stamped stamped same (fun n hash ts equal => by cases equal) moved
      | touch ids now =>
          simp only [Scans.step, within] at moved
          split at moved
          · obtain rfl := Option.some.inj moved
            refine call_stamped stamped (stamped_pool_later stamped clocked) rfl clocked ?_
            intro ts rest equal
            cases equal
            exact UInt64.le_refl now
          · cases moved
      | leakScan ttlMs now =>
          simp only [Scans.step, within] at moved
          split at moved
          · obtain rfl := Option.some.inj moved
            refine call_stamped stamped (stamped_pool_later stamped clocked.1) rfl clocked.1 ?_
            intro ts rest equal
            cases equal
          · cases moved
  | touching ts rest =>
      cases move with
      | advance spurious =>
          have bound := stamped.touching tid ts rest within
          cases rest with
          | nil =>
              simp only [Scans.step, within] at moved
              obtain rfl := Option.some.inj moved
              exact call_stamped stamped stamped.pool rfl same fun ts rest equal => by cases equal
          | cons id rest =>
              simp only [Scans.step, within] at moved
              obtain rfl := Option.some.inj moved
              refine call_stamped stamped (fun other => ⟨?_, (stamped.pool other).pending⟩) rfl same ?_
              · exact stamped_le (stamped.pool tid).stored bound id
              · intro later rest equal
                cases equal
                exact bound
      | _ => simp [Scans.step, within] at moved
  | scanning scan =>
      cases move with
      | advance spurious =>
          cases left : scan.rest with
          | nil =>
              simp only [Scans.step, within, left] at moved
              obtain rfl := Option.some.inj moved
              refine call_stamped stamped (put_bounded stamped.pool ⟨(stamped.pool tid).stored, ?_⟩)
                rfl same fun ts rest equal => by cases equal
              intro ts pending
              rw [free_loop_stamp] at pending
              cases pending
          | cons id rest =>
              simp only [Scans.step, within, left] at moved
              obtain rfl := Option.some.inj moved
              unfold Scans.load
              split
              · exact call_stamped stamped stamped.pool rfl same fun ts rest equal => by cases equal
              · exact call_stamped stamped stamped.pool rfl same fun ts rest equal => by cases equal
      | _ => simp [Scans.step, within] at moved

theorem reached_stamped
    (reached : Reaches Scans.step Scans.Clocked (Scans.create Tid pages shards) s) :
    Stamped s := by
  have initial : Stamped (Scans.create Tid pages shards) := by
    refine ⟨fun tid => ⟨fun id => ?_, fun ts pending => ?_⟩, fun tid ts rest within => ?_⟩
    · have zero : (Scans.create Tid pages shards).pool.memory.touchUs id = 0 :=
        PagePoolFastSequential.create_touch id
      rw [zero]
      exact UInt64.zero_le
    · cases pending
    · cases within
  refine reaches_invariant initial ?_ reached
  intro before move after _ stamped clocked moved
  exact step_stamped stamped clocked moved

end Steps

/-! ## A thread alone -/

theorem loads_alone (rest : List (Fin pages)) {s : Scans Tid pages shards} {tid : Tid}
    {scan : Scan pages} (within : s.call tid = .scanning scan) (left : scan.rest = rest) :
    ∃ after, Reaches Scans.step (fun _ _ => True) s after ∧
      after.call = Function.update s.call tid (.scanning { scan with
        rest := [], orphan := scan.orphan ++
          rest.filter (s.pool.memory.isStale scan.ttlMs.toInt scan.now) }) ∧
      after.pool = s.pool ∧ after.clock = s.clock := by
  induction rest generalizing s scan with
  | nil =>
      refine ⟨s, .start, ?_, rfl, rfl⟩
      rw [List.filter_nil, List.append_nil, ← left, ← within, Function.update_eq_self]
  | cons id rest ih =>
      have loaded : s.step (tid, .advance false) = some (s.load tid scan id rest) := by
        simp only [Scans.step, within, left]
      have entered : (s.load tid scan id rest).pool = s.pool ∧
          (s.load tid scan id rest).clock = s.clock ∧
          (s.load tid scan id rest).call = Function.update s.call tid (.scanning { scan with
            rest, orphan := scan.orphan ++
              [id].filter (s.pool.memory.isStale scan.ttlMs.toInt scan.now) }) := by
        rw [Scans.load]
        split
        case isTrue stale => exact ⟨rfl, rfl, by rw [List.filter_singleton, stale]; rfl⟩
        case isFalse fresh =>
          refine ⟨rfl, rfl, ?_⟩
          rw [List.filter_singleton, Bool.eq_false_iff.mpr fresh]
          simp [Scans.enter]
      obtain ⟨pool, clock, call⟩ := entered
      obtain ⟨after, reached, calls, samePool, sameClock⟩ :=
        ih (by rw [call, Function.update_self]) rfl
      refine ⟨after, reaches_trans (.call .start _ trivial loaded) reached, ?_,
        samePool.trans pool, sameClock.trans clock⟩
      rw [calls, call, pool, Function.update_idem, List.append_assoc, ← List.filter_append]
      rfl

theorem solo_beside {start s : Scans Tid pages shards} {tid : Tid} (outside : s.call tid = .none)
    {before after : PagePoolFast pages shards × Thread pages shards}
    (entered : Reaches Scans.step (fun _ _ => True) start
      { s with pool := s.pool.put tid before.1 before.2 })
    (solo : Solo before after) :
    Reaches Scans.step (fun _ _ => True) start
      { s with pool := s.pool.put tid after.1 after.2 } := by
  induction solo with
  | refl => exact entered
  | tail prior access ih =>
      refine .call ih (tid, .advance false) trivial ?_
      simp only [Scans.step, outside, Scans.stepPool, Threads.step, Threads.put,
        Function.update_self, access, Option.map_some, Function.update_idem]

theorem release_alone {s : Scans Tid pages shards} {tid : Tid} {scan : Scan pages}
    (within : s.call tid = .scanning scan) (done : scan.rest = []) :
    Reaches Scans.step (fun _ _ => True) s
      { s.enter tid .none with
        pool := s.pool.put tid (s.pool.memory.freePages scan.orphan)
          { s.pool.thread tid with pc := .idle } } := by
  have released : s.step (tid, .advance false) = some (s.release tid scan) := by
    simp only [Scans.step, within, done]
  exact solo_beside (s := s.enter tid .none) (Function.update_self tid _ s.call)
    (.call .start _ trivial released)
    (solo_free_loop s.pool.memory (s.pool.thread tid).held scan.orphan scan.orphan.length)

/-- A thread outside a call may run a whole `leak_scan` as the sequential model does. -/
theorem leak_scan_alone (s : Scans Tid pages shards) (tid : Tid)
    (outside : s.call tid = .none) (idle : (s.pool.thread tid).pc = .idle) (ttlMs : Int32)
    (now : UInt64) :
    ∃ after, Reaches Scans.step (fun _ _ => True) s after ∧
      after.pool = s.pool.put tid (s.pool.memory.leakScan ttlMs.toInt now).1
        { s.pool.thread tid with pc := .idle } ∧
      after.call = s.call ∧ after.clock = now := by
  let scan : Scan pages := { ttlMs, now, rest := List.finRange pages, orphan := [] }
  let entered : Scans Tid pages shards := { s.enter tid (.scanning scan) with clock := now }
  have sampled : s.step (tid, .leakScan ttlMs now) = some entered := by
    simp only [Scans.step, outside, idle, entered, scan]
  have running : entered.call tid = .scanning scan := Function.update_self tid _ s.call
  obtain ⟨scanned, loads, calls, pool, clock⟩ := loads_alone (List.finRange pages) running rfl
  have within : scanned.call tid = .scanning { scan with
      rest := [], orphan := s.pool.memory.orphans ttlMs.toInt now } := by
    rw [calls, Function.update_self]
    rfl
  refine ⟨_, reaches_trans (reaches_trans (.call .start _ trivial sampled) loads)
    (release_alone within rfl), ?_, ?_, clock⟩
  · change scanned.pool.put tid (scanned.pool.memory.freePages _) _ = _
    rw [pool]
    rfl
  · change Function.update scanned.call tid .none = s.call
    rw [calls, Function.update_idem]
    change Function.update (Function.update s.call tid (.scanning scan)) tid .none = s.call
    rw [Function.update_idem, ← outside, Function.update_eq_self]

/-- A scan that is not interrupted reclaims expired pages only. -/
theorem alone_scan_expired {s : Scans Tid pages shards}
    (reached : Reaches Scans.step Scans.Clocked (Scans.create Tid pages shards) s)
    {ttlMs : Int32} (nonneg : 0 ≤ ttlMs.toInt) {now : UInt64} (passes : s.clock ≤ now)
    (tid : Tid) {id : Fin pages} (collected : id ∈ s.pool.memory.orphans ttlMs.toInt now) :
    (s.pool.memory.touchUs id).toNat + ttlUs ttlMs ≤ now.toNat := by
  have stale := (PagePoolFastSequential.mem_orphans_iff s.pool.memory ttlMs.toInt now id).mp collected
  have stamped := stamped_pool_later (reached_stamped reached) passes tid
  have sampled : (s.pool.memory.touchUs id).toNat ≤ now.toNat :=
    UInt64.le_iff_toNat_le.mp (stamped.stored id)
  exact (stale_expired_iff s.pool.memory nonneg now id).mpr (Or.inl sampled) stale

end AmpFormal.LeakScanAlone
