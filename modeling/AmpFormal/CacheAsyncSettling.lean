import AmpFormal.CacheAsyncCoherence

/-!
# What the writer leaves on disk

The jobs that are not written yet determine the disk after the writer has
drained them. A key whose puts have pushed their jobs has its L1 value there, as
long as the pushes come in the order of the updates of L1. A flush returns with
no job left, so L1 and disk agree when no put came after it.
-/

namespace AmpFormal.CacheAsyncSettling

open AmpFormal.TransitionRuns AmpFormal.CacheAsyncModel AmpFormal.CacheAsyncModel.CacheStoreAsync
open AmpFormal.CacheAsyncMoves AmpFormal.CacheAsyncCoherence

set_option autoImplicit false

variable {Tid K V : Type}

/-! ## What the clients are about to do -/

def pushes (s : CacheStoreAsync Tid K V) (tid : Tid) : Option (K × V × Nat) :=
  ClientPc.queueing (s.client tid).pc

def promotions (s : CacheStoreAsync Tid K V) (tid : Tid) : Option (K × V) :=
  ClientPc.promoting (s.client tid).pc

section

variable [DecidableEq Tid]

theorem update_pushes {s after : CacheStoreAsync Tid K V} {tid : Tid} {next : Client K V}
    {push : Option (K × V × Nat)} (client : after.client = Function.update s.client tid next)
    (queueing : ClientPc.queueing next.pc = push) :
    pushes after = Function.update (pushes s) tid push := by
  have moved := Function.comp_update (fun other : Client K V => ClientPc.queueing other.pc)
    s.client tid next
  rw [← client, queueing] at moved
  exact moved

theorem pushed_earlier {s after : CacheStoreAsync Tid K V} {tid : Tid}
    (pushing : pushes after = Function.update (pushes s) tid none) {other : Tid}
    {push : K × V × Nat} (holds : pushes after other = some push) : pushes s other = some push := by
  by_cases mover : other = tid
  · rw [mover, pushing, Function.update_self] at holds
    cases holds
  · rwa [pushing, Function.update_of_ne mover] at holds

theorem pushed_goes_on {s after : CacheStoreAsync Tid K V} {tid : Tid} {mine : K × V × Nat}
    (before : pushes s tid = some mine)
    (pushing : pushes after = Function.update (pushes s) tid none) {other : Tid}
    {push : K × V × Nat} (holds : pushes s other = some push) :
    push = mine ∨ pushes after other = some push := by
  by_cases mover : other = tid
  · rw [mover, before] at holds
    exact .inl (Option.some.inj holds).symm
  · exact .inr (by rwa [pushing, Function.update_of_ne mover])

theorem update_promotions {s after : CacheStoreAsync Tid K V} {tid : Tid} {next : Client K V}
    (client : after.client = Function.update s.client tid next) {other : Tid} {entry : K × V}
    (holds : promotions after other = some entry) :
    promotions s other = some entry ∨ ClientPc.promoting next.pc = some entry := by
  rw [promotions, client] at holds
  by_cases same : other = tid
  · subst same
    rw [Function.update_self] at holds
    exact .inr holds
  · rw [Function.update_of_ne same] at holds
    exact .inl holds

theorem update_promoted {s after : CacheStoreAsync Tid K V} {tid : Tid} {next : Client K V}
    (client : after.client = Function.update s.client tid next)
    (promoting : ClientPc.promoting next.pc = none) (other : Tid) :
    ∀ entry ∈ promotions after other, promotions s other = some entry := by
  intro entry holds
  obtain earlier | new := update_promotions client holds
  · exact earlier
  · cases promoting.symm.trans new

end

/-! ## The jobs that are not written yet -/

/-- The job that the writer has taken from the queue. -/
def WriterPc.held : WriterPc K V → List (K × V)
  | .writing job => [job]
  | _ => []

def jobs (s : CacheStoreAsync Tid K V) : List (K × V) :=
  WriterPc.held s.writer ++ s.q

variable [DecidableEq K]

def persist (disk : K → Option V) (jobs : List (K × V)) : K → Option V :=
  jobs.foldl (fun files job => Function.update files job.1 (some job.2)) disk

def drained (s : CacheStoreAsync Tid K V) : K → Option V :=
  persist s.disk (jobs s)

theorem persist_append (disk : K → Option V) (jobs : List (K × V)) (job : K × V) :
    persist disk (jobs ++ [job]) = Function.update (persist disk jobs) job.1 (some job.2) := by
  simp [persist]

theorem persist_other {key : K} (jobs : List (K × V)) (others : ∀ job ∈ jobs, job.1 ≠ key)
    (disk : K → Option V) : persist disk jobs key = disk key := by
  induction jobs generalizing disk with
  | nil => rfl
  | cons job rest ih =>
      have different : key ≠ job.1 := (others job (List.mem_cons_self ..)).symm
      have tail := ih (fun other queued => others other (List.mem_cons_of_mem _ queued))
        (Function.update disk job.1 (some job.2))
      exact tail.trans (Function.update_of_ne different _ _)

theorem writer_drained {s after : CacheStoreAsync Tid K V} (moves : WriterMoves s after) :
    jobs after ⊆ jobs s ∧ drained after = drained s := by
  cases moves with
  | pop job rest pc awake queued => simp [jobs, drained, WriterPc.held, pc, queued]
  | stopped pc awake empty stop => simp [jobs, drained, WriterPc.held, pc]
  | blocked pc awake empty running => simp [jobs, drained]
  | write job pc => simp [jobs, drained, WriterPc.held, pc, persist]
  | count pc => simp [jobs, drained, WriterPc.held, pc]
  | signal pc => simp [jobs, drained, WriterPc.held, pc]

/-! ## The invariant -/

def Newest (s : CacheStoreAsync Tid K V) (key : K) (stamp : Nat) : Prop :=
  ∀ tid bin time, pushes s tid = some (key, bin, time) → time ≤ stamp

structure Settling (s : CacheStoreAsync Tid K V) : Prop where
  stamped : ∀ tid key bin stamp, pushes s tid = some (key, bin, stamp) →
    stamp < s.clock ∧ s.l1 key ≠ none
  queued : ∀ job ∈ jobs s, s.l1 job.1 ≠ none
  newest : ∀ tid key bin stamp, pushes s tid = some (key, bin, stamp) → Newest s key stamp →
    s.l1 key = some bin
  agrees : ∀ key, s.l1 key ≠ none → (∀ tid bin stamp, pushes s tid ≠ some (key, bin, stamp)) →
    s.l1 key = drained s key
  promoted : ∀ tid key bin, promotions s tid = some (key, bin) → s.l1 key = none →
    drained s key = some bin

/-! ## What a step preserves -/

theorem keeps_settling {s after : CacheStoreAsync Tid K V} (settling : Settling s)
    (l1 : after.l1 = s.l1) (fewer : jobs after ⊆ jobs s) (same : drained after = drained s)
    (pushing : pushes after = pushes s)
    (promoting : ∀ tid, ∀ entry ∈ promotions after tid,
      promotions s tid = some entry ∨ s.disk entry.1 = some entry.2) :
    Settling { after with clock := s.clock + 1 } where
  stamped tid key bin stamp push := by
    obtain ⟨past, present⟩ := settling.stamped tid key bin stamp (pushing ▸ push)
    exact ⟨past.trans (Nat.lt_succ_self _), l1 ▸ present⟩
  queued job held := l1 ▸ settling.queued job (fewer held)
  newest tid key bin stamp push newest := by
    change after.l1 key = some bin
    rw [l1]
    refine settling.newest tid key bin stamp (pushing ▸ push) fun other value time earlier => ?_
    exact newest other value time (pushing.symm ▸ earlier)
  agrees key present quiet := by
    change after.l1 key = drained after key
    rw [l1, same]
    refine settling.agrees key (l1 ▸ present) fun tid bin stamp push => ?_
    exact quiet tid bin stamp (pushing.symm ▸ push)
  promoted tid key bin promotion absent := by
    have missing : s.l1 key = none := l1 ▸ absent
    change drained after key = some bin
    rw [same]
    obtain earlier | read := promoting tid (key, bin) promotion
    · exact settling.promoted tid key bin earlier missing
    · -- a job of the key would have left an entry of L1
      refine (persist_other _ (fun job held owner => ?_) s.disk).trans read
      exact settling.queued job held (owner ▸ missing)

theorem filled_at {s after : CacheStoreAsync Tid K V} {key : K} {bin : V}
    (l1 : after.l1 = Function.update s.l1 key (some bin)) : after.l1 key = some bin := by
  rw [l1, Function.update_self]

theorem filled_elsewhere {s after : CacheStoreAsync Tid K V} {key : K} {bin : V}
    (l1 : after.l1 = Function.update s.l1 key (some bin)) (other : K) (different : other ≠ key) :
    after.l1 other = s.l1 other := by
  rw [l1, Function.update_of_ne different]

theorem filled_stays {s after : CacheStoreAsync Tid K V} {key : K} {bin : V}
    (l1 : after.l1 = Function.update s.l1 key (some bin)) {other : K}
    (present : s.l1 other ≠ none) : after.l1 other ≠ none := by
  by_cases owner : other = key
  · simp [owner, filled_at l1]
  · rwa [filled_elsewhere l1 other owner]

theorem filled_promoted {s after : CacheStoreAsync Tid K V} (settling : Settling s) {key : K}
    {bin : V} (l1 : after.l1 = Function.update s.l1 key (some bin))
    (same : drained after = drained s)
    (promoting : ∀ tid, ∀ entry ∈ promotions after tid, promotions s tid = some entry) (tid : Tid)
    (name : K) (value : V) (promotion : promotions after tid = some (name, value))
    (missing : after.l1 name = none) : drained after name = some value := by
  rw [same]
  refine settling.promoted tid name value (promoting tid _ promotion) ?_
  by_contra present
  exact filled_stays l1 present missing

theorem promotes_settling {s after : CacheStoreAsync Tid K V} (settling : Settling s) {tid : Tid}
    {key : K} {bin : V} (promoted : promotions s tid = some (key, bin)) (absent : s.l1 key = none)
    (l1 : after.l1 = Function.update s.l1 key (some bin)) (queue : jobs after = jobs s)
    (same : drained after = drained s) (pushing : pushes after = pushes s)
    (promoting : ∀ other, ∀ entry ∈ promotions after other, promotions s other = some entry) :
    Settling { after with clock := s.clock + 1 } := by
  have at_key := filled_at l1
  have elsewhere := filled_elsewhere l1
  have kept : ∀ other, s.l1 other ≠ none → after.l1 other = s.l1 other :=
    fun other present => elsewhere other fun owner => present (owner ▸ absent)
  exact {
    stamped := fun other name value stamp push => by
      obtain ⟨past, present⟩ := settling.stamped other name value stamp (pushing ▸ push)
      exact ⟨past.trans (Nat.lt_succ_self _), filled_stays l1 present⟩
    queued := fun job held => filled_stays l1 (settling.queued job (queue ▸ held))
    newest := fun other name value stamp push newest => by
      have earlier : pushes s other = some (name, value, stamp) := pushing ▸ push
      refine (kept name (settling.stamped other name value stamp earlier).2).trans ?_
      refine settling.newest other name value stamp earlier fun third held time waits => ?_
      exact newest third held time (pushing.symm ▸ waits)
    agrees := fun name present quiet => by
      change after.l1 name = drained after name
      rw [same]
      by_cases owner : name = key
      · subst owner
        rw [at_key, settling.promoted tid name bin promoted absent]
      · rw [elsewhere name owner]
        have held : s.l1 name ≠ none := elsewhere name owner ▸ present
        refine settling.agrees name held fun other value stamp push => ?_
        exact quiet other value stamp (pushing.symm ▸ push)
    promoted := filled_promoted settling l1 same promoting }

variable [DecidableEq Tid]

theorem stores_settling {s after : CacheStoreAsync Tid K V} (settling : Settling s) {tid : Tid}
    {key : K} {bin : V} (before : pushes s tid = none)
    (l1 : after.l1 = Function.update s.l1 key (some bin)) (queue : jobs after = jobs s)
    (same : drained after = drained s)
    (pushing : pushes after = Function.update (pushes s) tid (some (key, bin, s.clock)))
    (promoting : ∀ other, ∀ entry ∈ promotions after other, promotions s other = some entry) :
    Settling { after with clock := s.clock + 1 } := by
  have at_key := filled_at l1
  have elsewhere := filled_elsewhere l1
  have new : pushes after tid = some (key, bin, s.clock) := by rw [pushing, Function.update_self]
  have earlier : ∀ other push, pushes after other = some push →
      push = (key, bin, s.clock) ∨ pushes s other = some push := by
    intro other push holds
    by_cases mover : other = tid
    · rw [mover, new] at holds
      exact .inl (Option.some.inj holds).symm
    · rw [pushing, Function.update_of_ne mover] at holds
      exact .inr holds
  have goes_on : ∀ other push, pushes s other = some push → pushes after other = some push := by
    intro other push holds
    have mover : other ≠ tid := by
      rintro rfl
      cases before.symm.trans holds
    rwa [pushing, Function.update_of_ne mover]
  exact {
    stamped := fun other name value stamp push => by
      obtain mine | waits := earlier other _ push
      · cases mine
        exact ⟨Nat.lt_succ_self _, by simp [at_key]⟩
      · obtain ⟨past, present⟩ := settling.stamped other name value stamp waits
        exact ⟨past.trans (Nat.lt_succ_self _), filled_stays l1 present⟩
    queued := fun job held => filled_stays l1 (settling.queued job (queue ▸ held))
    newest := fun other name value stamp push newest => by
      obtain mine | waits := earlier other _ push
      · cases mine
        exact at_key
      · have past := (settling.stamped other name value stamp waits).1
        have different : name ≠ key := by
          rintro rfl
          have := newest tid bin s.clock new
          omega
        refine (elsewhere name different).trans ?_
        refine settling.newest other name value stamp waits fun third held time holds => ?_
        exact newest third held time (goes_on third _ holds)
    agrees := fun name present quiet => by
      have different : name ≠ key := by
        rintro rfl
        exact quiet tid bin s.clock new
      change after.l1 name = drained after name
      rw [same, elsewhere name different]
      have held : s.l1 name ≠ none := elsewhere name different ▸ present
      refine settling.agrees name held fun other value stamp push => ?_
      exact quiet other value stamp (goes_on other _ push)
    promoted := filled_promoted settling l1 same promoting }

/-- The newest of the pushes that are left carries the value of L1. If the one that
was made is newer, it carries the same value. -/
theorem pushed_newest {s after : CacheStoreAsync Tid K V} (settling : Settling s) {tid : Tid}
    {key : K} {bin : V} {stamp : Nat} (before : pushes s tid = some (key, bin, stamp))
    (order : ∀ other value time, pushes s other = some (key, value, time) →
      value = bin ∨ stamp ≤ time)
    (pushing : pushes after = Function.update (pushes s) tid none) {other : Tid} {name : K}
    {value : V} {time : Nat} (push : pushes after other = some (name, value, time))
    (newest : Newest after name time) : s.l1 name = some value := by
  have waits := pushed_earlier pushing push
  have among : ∀ third held mark, pushes s third = some (name, held, mark) →
      (name = key ∧ mark = stamp) ∨ mark ≤ time := by
    intro third held mark holds
    obtain mine | stays := pushed_goes_on before pushing holds
    · cases mine
      exact .inl ⟨rfl, rfl⟩
    · exact .inr (newest third held mark stays)
  by_cases older : name = key ∧ time < stamp
  · obtain ⟨rfl, behind⟩ := older
    obtain rfl | above := order other value time waits
    · refine settling.newest tid name value stamp before fun third held mark holds => ?_
      obtain ⟨-, rfl⟩ | below := among third held mark holds
      · exact Nat.le_refl _
      · omega
    · omega
  · refine settling.newest other name value time waits fun third held mark holds => ?_
    obtain ⟨same, rfl⟩ | below := among third held mark holds
    · exact not_lt.mp fun later => older ⟨same, later⟩
    · exact below

theorem queues_settling {s after : CacheStoreAsync Tid K V} (settling : Settling s) {tid : Tid}
    {key : K} {bin : V} {stamp : Nat} (before : pushes s tid = some (key, bin, stamp))
    (order : ∀ other value time, pushes s other = some (key, value, time) →
      value = bin ∨ stamp ≤ time)
    (l1 : after.l1 = s.l1) (queue : jobs after = jobs s ++ [(key, bin)])
    (drains : drained after = Function.update (drained s) key (some bin))
    (pushing : pushes after = Function.update (pushes s) tid none)
    (promoting : ∀ other, ∀ entry ∈ promotions after other, promotions s other = some entry) :
    Settling { after with clock := s.clock + 1 } := by
  have present := (settling.stamped tid key bin stamp before).2
  have at_key : drained after key = some bin := by rw [drains, Function.update_self]
  have elsewhere : ∀ other, other ≠ key → drained after other = drained s other :=
    fun other different => by rw [drains, Function.update_of_ne different]
  exact {
    stamped := fun other name value time push => by
      obtain ⟨past, held⟩ := settling.stamped other name value time (pushed_earlier pushing push)
      exact ⟨past.trans (Nat.lt_succ_self _), l1 ▸ held⟩
    queued := fun job held => by
      obtain old | new := List.mem_append.mp (queue ▸ held : job ∈ jobs s ++ [(key, bin)])
      · exact l1 ▸ settling.queued job old
      · rw [List.mem_singleton.mp new]
        exact l1 ▸ present
    newest := fun other name value time push newest =>
      (congrFun l1 name).trans (pushed_newest settling before order pushing push newest)
    agrees := fun name filled quiet => by
      change after.l1 name = drained after name
      rw [l1]
      by_cases owner : name = key
      · -- the last push of the key carries its L1 value
        subst owner
        rw [at_key]
        refine settling.newest tid name bin stamp before fun other value time holds => ?_
        obtain mine | stays := pushed_goes_on before pushing holds
        · cases mine
          exact Nat.le_refl _
        · exact absurd stays (quiet other value time)
      · rw [elsewhere name owner]
        refine settling.agrees name (l1 ▸ filled) fun other value time holds => ?_
        obtain mine | stays := pushed_goes_on before pushing holds
        · cases mine
          exact owner rfl
        · exact quiet other value time stays
    promoted := fun other name value promotion missing => by
      have absent : s.l1 name = none := l1 ▸ missing
      have different : name ≠ key := fun owner => present (owner ▸ absent)
      refine (elsewhere name different).trans ?_
      exact settling.promoted other name value (promoting other _ promotion) absent }

/-! ## What a step does to the entries and the jobs -/

inductive StoreEffect (s after : CacheStoreAsync Tid K V) : Prop
  | keeps (l1 : after.l1 = s.l1) (fewer : jobs after ⊆ jobs s) (same : drained after = drained s)
      (pushing : pushes after = pushes s)
      (promoting : ∀ tid, ∀ entry ∈ promotions after tid,
        promotions s tid = some entry ∨ s.disk entry.1 = some entry.2)
  | promotes (tid : Tid) (key : K) (bin : V) (promoted : promotions s tid = some (key, bin))
      (absent : s.l1 key = none) (l1 : after.l1 = Function.update s.l1 key (some bin))
      (queue : jobs after = jobs s) (same : drained after = drained s)
      (pushing : pushes after = pushes s)
      (promoting : ∀ other, ∀ entry ∈ promotions after other, promotions s other = some entry)
  | stores (tid : Tid) (key : K) (bin : V) (before : pushes s tid = none)
      (l1 : after.l1 = Function.update s.l1 key (some bin))
      (queue : jobs after = jobs s) (same : drained after = drained s)
      (pushing : pushes after = Function.update (pushes s) tid (some (key, bin, s.clock)))
      (promoting : ∀ other, ∀ entry ∈ promotions after other, promotions s other = some entry)
  | queues (tid : Tid) (key : K) (bin : V) (stamp : Nat)
      (before : pushes s tid = some (key, bin, stamp))
      (order : ∀ other value time, pushes s other = some (key, value, time) →
        value = bin ∨ stamp ≤ time)
      (l1 : after.l1 = s.l1)
      (queue : jobs after = jobs s ++ [(key, bin)])
      (drains : drained after = Function.update (drained s) key (some bin))
      (pushing : pushes after = Function.update (pushes s) tid none)
      (promoting : ∀ other, ∀ entry ∈ promotions after other, promotions s other = some entry)

theorem update_keeps {s after : CacheStoreAsync Tid K V} {tid : Tid} {next : Client K V}
    (l1 : after.l1 = s.l1) (disk : after.disk = s.disk) (queue : jobs after = jobs s)
    (client : after.client = Function.update s.client tid next)
    (queueing : ClientPc.queueing next.pc = pushes s tid)
    (promoting : ∀ entry ∈ ClientPc.promoting next.pc, s.disk entry.1 = some entry.2) :
    StoreEffect s after := by
  refine .keeps l1 (queue ▸ List.Subset.refl _) (by rw [drained, queue, disk]; rfl) ?_ ?_
  · rw [update_pushes client queueing, Function.update_eq_self]
  · intro other entry holds
    exact (update_promotions client holds).imp_right (promoting entry)

theorem client_store_effect {s after : CacheStoreAsync Tid K V} {tid : Tid}
    (orderly : Orderly s (.client tid)) (moves : ClientMoves s tid after) :
    StoreEffect s after := by
  have nothing : ∀ entry ∈ (none : Option (K × V)), s.disk entry.1 = some entry.2 :=
    fun _ none => (nomatch none)
  have pushing : ∀ {pc}, (s.client tid).pc = pc → pushes s tid = ClientPc.queueing pc :=
    fun now => by rw [pushes, now]
  cases moves with
  | lookupHit key bin pc found => exact update_keeps rfl rfl rfl rfl (pushing pc).symm nothing
  | lookupMiss key pc missed => exact update_keeps rfl rfl rfl rfl (pushing pc).symm nothing
  | diskHit key bin pc found =>
      refine update_keeps rfl rfl rfl rfl (pushing pc).symm ?_
      rintro entry same
      cases same
      exact found
  | diskMiss key pc missed => exact update_keeps rfl rfl rfl rfl (pushing pc).symm nothing
  | promote key bin pc =>
      obtain absent | present := orderly.1 (key, bin) (by rw [pc]; rfl)
      · refine .promotes tid key bin (by rw [promotions, pc]; rfl) absent rfl rfl rfl ?_
          (update_promoted rfl rfl)
        rw [update_pushes (s := s) rfl (pushing pc).symm, Function.update_eq_self]
      · refine update_keeps ?_ rfl rfl rfl (pushing pc).symm nothing
        change Function.update s.l1 key (some bin) = s.l1
        rw [← show s.l1 key = some bin from present, Function.update_eq_self]
  | store key bin pc =>
      exact .stores tid key bin (pushing pc) rfl rfl rfl (update_pushes rfl rfl)
        (update_promoted rfl rfl)
  | queue key bin stamp pc =>
      have queue : jobs ({ s with q := s.q ++ [(key, bin)] }.goto tid (.putCount key bin)) =
          jobs s ++ [(key, bin)] := by simp [jobs, goto]
      refine .queues tid key bin stamp (pushing pc) ?_ rfl queue ?_ (update_pushes rfl rfl)
        (update_promoted rfl rfl)
      · intro other value time waits
        exact orderly.2 (key, bin, stamp) (pushing pc) other (key, value, time) waits rfl
      · rw [drained, queue, persist_append]
        rfl
  | count key bin pc => exact update_keeps rfl rfl rfl rfl (pushing pc).symm nothing
  | flushed pc awake empty done => exact update_keeps rfl rfl rfl rfl (pushing pc).symm nothing
  | blocked pc awake pending =>
      exact .keeps rfl (List.Subset.refl _) rfl rfl fun _ _ holds => .inl holds

theorem store_effect {s after : CacheStoreAsync Tid K V} {action : Action Tid K V}
    (orderly : Orderly s action) (moves : Moves s action after) : StoreEffect s after := by
  cases moves with
  | call tid call pc =>
      refine update_keeps rfl rfl rfl rfl ?_ ?_
      · rw [pushes, pc]
        cases call <;> rfl
      · cases call <;> exact fun _ none => (nomatch none)
  | client tid after moves => exact client_store_effect orderly moves
  | notify tid key bin woken pc blocked nobody =>
      exact update_keeps rfl rfl rfl rfl (by rw [pushes, pc]; rfl) fun _ none => (nomatch none)
  | writer after moves =>
      obtain ⟨fewer, same⟩ := writer_drained moves
      cases moves <;> exact .keeps rfl fewer same rfl fun _ _ holds => .inl holds

theorem effect_settling {s after : CacheStoreAsync Tid K V} {action : Action Tid K V}
    (settling : Settling s) (orderly : Orderly s action) (moves : Moves s action after) :
    Settling { after with clock := s.clock + 1 } := by
  cases store_effect orderly moves with
  | keeps l1 fewer same pushing promoting =>
      exact keeps_settling settling l1 fewer same pushing promoting
  | promotes tid key bin promoted absent l1 queue same pushing promoting =>
      exact promotes_settling settling promoted absent l1 queue same pushing promoting
  | stores tid key bin before l1 queue same pushing promoting =>
      exact stores_settling settling before l1 queue same pushing promoting
  | queues tid key bin stamp before order l1 queue drains pushing promoting =>
      exact queues_settling settling before order l1 queue drains pushing promoting

/-! ## Flushes -/

structure Flushing (s : CacheStoreAsync Tid K V) : Prop where
  working : s.busy = false → WriterPc.held s.writer = []
  flushes : ∀ flush ∈ s.history, flush.call = .flush →
    (s.q = [] ∧ s.busy = false) ∨ ∃ key value, PutNotBefore s key value flush.started

theorem working_kept {s after : CacheStoreAsync Tid K V} {action : Action Tid K V}
    (working : s.busy = false → WriterPc.held s.writer = []) (moves : Moves s action after) :
    after.busy = false → WriterPc.held after.writer = [] := by
  cases moves with
  | call tid call pc => exact working
  | client tid after moves => cases moves <;> exact working
  | notify tid key bin woken pc blocked nobody => exact working
  | writer after moves =>
      cases moves with
      | pop job rest pc awake queued => exact fun done => (nomatch done)
      | stopped pc awake empty stop => exact fun _ => rfl
      | blocked pc awake empty running => exact working
      | write job pc => exact fun _ => rfl
      | count pc => exact fun _ => rfl
      | signal pc => exact fun _ => rfl

/-- Only a put ends a state in which the writer has nothing to do. -/
theorem quiet_kept {s after : CacheStoreAsync Tid K V} {action : Action Tid K V}
    (moves : Moves s action after) (empty : s.q = []) (done : s.busy = false) :
    (after.q = [] ∧ after.busy = false) ∨
      ∃ key bin tid, (after.client tid).pc.call = some (.put key bin) := by
  cases moves with
  | call tid call pc => exact .inl ⟨empty, done⟩
  | client tid after moves =>
      cases moves with
      | queue key bin stamp pc =>
          refine .inr ⟨key, bin, tid, ?_⟩
          simp [goto, ClientPc.call]
      | _ => exact .inl ⟨empty, done⟩
  | notify tid key bin woken pc blocked nobody => exact .inl ⟨empty, done⟩
  | writer after moves =>
      cases moves with
      | pop job rest pc awake queued => cases empty.symm.trans queued
      | signal pc => exact .inl ⟨empty, rfl⟩
      | _ => exact .inl ⟨empty, done⟩

theorem effect_flushing {s after : CacheStoreAsync Tid K V} {action : Action Tid K V}
    (flushing : Flushing s) (fresh : Fresh s) (promotes : PromotesFresh s action)
    (moves : Moves s action after) : Flushing { after with clock := s.clock + 1 } := by
  have effect := moves_effect promotes moves
  have working := working_kept flushing.working moves
  refine ⟨fun done => working done, ?_⟩
  have quiet : s.q = [] ∧ s.busy = false → ∀ time, (after.q = [] ∧ after.busy = false) ∨
      ∃ key value, PutNotBefore after key value time := by
    rintro ⟨empty, done⟩ time
    obtain still | ⟨key, bin, tid, running⟩ := quiet_kept moves empty done
    · exact .inl still
    · exact .inr ⟨key, bin, .inl ⟨tid, running⟩⟩
  intro flush recorded called
  obtain earlier | ⟨-, tid, -, -, -, returns⟩ := history_grows effect recorded
  · obtain still | ⟨key, value, put⟩ := flushing.flushes flush earlier called
    · exact quiet still flush.started
    · have past := fresh.recorded flush earlier
      exact .inr ⟨key, value, not_before_kept effect (by omega) put⟩
  · exact quiet (returns called) flush.started

/-! ## Coherence -/

theorem reached_settling {disk : K → Option V} {s : CacheStoreAsync Tid K V}
    (reached : Reached Orderly disk s) : Settling s ∧ Flushing s := by
  refine reaches_invariant (motive := fun s => Settling s ∧ Flushing s) ?_ ?_ reached
  · refine ⟨⟨?_, ?_, ?_, ?_, ?_⟩, ⟨fun _ => rfl, fun _ none => (nomatch none)⟩⟩
    · exact fun _ _ _ _ none => (nomatch none)
    · exact fun _ none => (nomatch none)
    · exact fun _ _ _ _ none => (nomatch none)
    · exact fun _ absent => absurd rfl absent
    · exact fun _ _ _ none => (nomatch none)
  · rintro before action after prior ⟨settling, flushing⟩ orderly moved
    obtain ⟨middle, moves, rfl⟩ := step_moves moved
    have fresh := reached_fresh (reaches_weaken (fun _ _ => And.left) prior)
    exact ⟨effect_settling settling orderly moves, effect_flushing flushing fresh orderly.1 moves⟩

/-- A get fills L1 from disk, a put and a flush follow, and another get. -/
def putThenFlush : List (Action Bool Nat Nat) :=
  [.call true (.get 0), .client true, .client true, .client true, .call false (.put 0 1),
    .client false, .client false, .client false, .notify false none, .writer, .writer, .writer,
    .writer, .call false .flush, .client false, .call true (.get 0), .client true]

/-- A get misses and reads the file, a put of the key returns, the get promotes what
it has read, and a get that starts then returns it. -/
def stalePromotion : List (Action Bool Nat Nat) :=
  [.call true (.get 0), .client true, .client true, .call false (.put 0 1), .client false,
    .client false, .client false, .notify false none, .client true, .call false (.get 0),
    .client false]

/-- Two puts update L1 and push their jobs in different orders, and a flush follows. -/
def swappedJobs : List (Action Bool Nat Nat) :=
  [.call true (.put 0 1), .call false (.put 0 2), .client true, .client false, .client false,
    .client true, .client true, .client false, .notify true none, .notify false none, .writer,
    .writer, .writer, .writer, .writer, .writer, .writer, .writer, .call true .flush,
    .client true]

end AmpFormal.CacheAsyncSettling
