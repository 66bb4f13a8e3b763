import AmpFormal.PagePoolRepresentation
import AmpFormal.PagePoolFastCounters

/-!
# The two page pools side by side

One history on a `PagePool` and a `PagePoolFast` of the same size. Pages are named
by handles: handle `h` is the `h`-th page that the allocs handed out, in either
pool. While every handle that is freed or touched is still held, the pools have
equally many free pages, so they agree on every allocation. A page that was freed
already is skipped by `PagePool` and pushed a second time by `PagePoolFast`.
-/

namespace AmpFormal.PoolAgreement

open AmpFormal.PagePoolModel AmpFormal.PagePoolFastModel AmpFormal.TransitionRuns
open AmpFormal.PagePoolFastCounters

set_option autoImplicit false

variable {pages shards : Nat}

inductive Call where
  | alloc (traceId : String) (n : Nat) (threadHash : Int) (now : Int) (nowUs : UInt64)
  | freePages (handles : List Nat)
  | touch (handles : List Nat) (now : Int) (nowUs : UInt64)
  deriving DecidableEq, Repr

structure Answer (pages : Nat) where
  n : Nat
  plain : List (Fin pages)
  fast : List (Fin pages)
  deriving DecidableEq, Repr

/-- Both pools granted the allocation or neither did, without a repeated page. -/
def Answer.Agreed (answer : Answer pages) : Prop :=
  (answer.plain.length = answer.n ↔ answer.fast.length = answer.n) ∧
    answer.plain.Nodup ∧ answer.fast.Nodup

structure Pools (pages shards : Nat) where
  plain : PagePool pages
  fast : PagePoolFast pages shards
  /-- The pages handed out so far, matched by order. -/
  handed : List (Fin pages × Fin pages)
  answers : List (Answer pages)

namespace Pools

variable [NeZero shards]

def create (pages shards : Nat) [NeZero shards] : Pools pages shards where
  plain := PagePool.create pages
  fast := PagePoolFast.create pages shards
  handed := []
  answers := []

def named (s : Pools pages shards) (handles : List Nat) : List (Fin pages × Fin pages) :=
  handles.filterMap fun handle => s.handed[handle]?

def step (s : Pools pages shards) : Call → Option (Pools pages shards)
  | .alloc traceId n threadHash now nowUs =>
      let plain := s.plain.alloc traceId n now
      let fast := s.fast.alloc n threadHash nowUs
      some
        { plain := plain.1
          fast := fast.1
          handed := s.handed ++ plain.2.zip fast.2
          answers := s.answers ++ [{ n, plain := plain.2, fast := fast.2 }] }
  | .freePages handles =>
      some
        { s with
          plain := s.plain.freePages ((s.named handles).map (·.1))
          fast := s.fast.freePages ((s.named handles).map (·.2)) }
  | .touch handles now nowUs =>
      some
        { s with
          plain := s.plain.touch ((s.named handles).map (·.1)) now
          fast := s.fast.touch ((s.named handles).map (·.2)) nowUs }

/-- The handle names these pages, and neither was handed out again. -/
def Names (s : Pools pages shards) (handle : Nat) (pair : Fin pages × Fin pages) : Prop :=
  s.handed[handle]? = some pair ∧
    ∀ other ∈ s.handed.drop (handle + 1), other.1 ≠ pair.1 ∧ other.2 ≠ pair.2

def Fresh (s : Pools pages shards) (handle : Nat) : Prop :=
  ∃ pair ∈ s.handed[handle]?, s.Names handle pair

/-- What owners may do: free and touch pages, also freed ones, that were not handed
out again. -/
def Owned (s : Pools pages shards) : Call → Prop
  | .alloc _ _ _ _ _ => True
  | .freePages handles | .touch handles _ _ => ∀ handle ∈ handles, s.Fresh handle

def Held (s : Pools pages shards) (handle : Nat) : Prop :=
  ∀ pair ∈ s.handed[handle]?, (s.plain.page pair.1).freed = false

/-- Only allocated pages are freed and touched, each freed once, and the clock of
the fast pool does not read 0. -/
def InTime (s : Pools pages shards) : Call → Prop
  | .alloc _ _ _ _ nowUs => nowUs ≠ 0
  | .freePages handles => handles.Nodup ∧ ∀ handle ∈ handles, s.Held handle
  | .touch handles _ nowUs => nowUs ≠ 0 ∧ ∀ handle ∈ handles, s.Held handle

/-- The pools have agreed on every allocation, no result named a page twice, and
they report equally many pages in use. -/
structure Agrees (s : Pools pages shards) : Prop where
  answers : ∀ answer ∈ s.answers, answer.Agreed
  inUse : s.plain.stats.inUse = s.fast.stats.inUse

end Pools

/-! ## Free pages of the plain pool -/

section Plain

open AmpFormal.PagePoolRepresentation

variable {pool : PagePool pages}

theorem plain_alloc (represented : Represented pool) (traceId : String) (n : Nat) (now : Int) :
    freeCount (pool.alloc traceId n now).1 + (pool.alloc traceId n now).2.length =
        freeCount pool ∧
      (pool.alloc traceId n now).2.Nodup ∧
      (n ≤ freeCount pool → (pool.alloc traceId n now).2.length = n) ∧
      (freeCount pool < n → (pool.alloc traceId n now).2 = []) ∧
      ∀ id, ((pool.alloc traceId n now).1.page id).freed =
        (decide (id ∉ (pool.alloc traceId n now).2) && (pool.page id).freed) := by
  obtain ⟨succeeds, fails⟩ := alloc_succeeds_iff represented traceId n now
  have after := alloc_represented represented traceId n now
  by_cases enough : n ≤ freeCount pool
  · rw [← free_list_length represented] at enough
    obtain ⟨last, taken, rec, length, result⟩ := alloc_taken pool traceId now enough
    refine ⟨?_, ?_, succeeds.mpr, fun short => congrArg Prod.snd (fails short), fun id => ?_⟩
    · rw [← free_list_length after, ← free_list_length represented, result, rec.list,
        List.length_append, List.length_reverse]
    · rw [result]
      exact (taken_listed represented rec).1
    · rw [result]
      dsimp only
      rw [rec.page id]
      by_cases member : id ∈ taken <;> simp [member, handed]
  · have short := Nat.not_le.mp enough
    refine ⟨?_, ?_, succeeds.mpr, fun _ => congrArg Prod.snd (fails short), fun id => ?_⟩ <;>
      rw [fails short] <;> simp

theorem plain_free_count (represented : Represented pool) {ids : List (Fin pages)}
    (distinct : ids.Nodup) (held : ∀ id ∈ ids, (pool.page id).freed = false) :
    freeCount (pool.freePages ids) = freeCount pool + ids.length := by
  have listed : (pool.freePages ids).freeList = pool.freeList ++ ids := by
    rw [← release_all_eq ids distinct held]
    clear held distinct represented
    induction ids generalizing pool with
    | nil => simp
    | cons id rest ih => rw [List.foldl_cons, ih]; simp [PagePool.release, PagePool.setPage]
  rw [← free_list_length (free_pages_represented ids represented).1, listed, List.length_append,
    free_list_length represented]

theorem plain_touch_count (pool : PagePool pages) (ids : List (Fin pages)) (now : Int) :
    freeCount (pool.touch ids now) = freeCount pool :=
  List.countP_congr fun id _ => by rw [(touch_keeps ids pool now).2.2.2 id]

end Plain

/-! ## Named pages -/

section Names

variable {s : Pools pages shards}

theorem handed_later {left right : Nat} (before : left < right) {pair : Fin pages × Fin pages}
    (found : s.handed[right]? = some pair) : pair ∈ s.handed.drop (left + 1) := by
  rw [List.mem_iff_getElem?]
  refine ⟨right - (left + 1), ?_⟩
  rw [List.getElem?_drop, Nat.add_sub_cancel' before]
  exact found

theorem names_apart {left right : Nat} {pair other : Fin pages × Fin pages}
    (one : s.Names left pair) (two : s.Names right other) (apart : left ≠ right) :
    pair.1 ≠ other.1 ∧ pair.2 ≠ other.2 := by
  rcases Nat.lt_or_gt_of_ne apart with before | after
  · obtain ⟨first, second⟩ := one.2 other (handed_later before two.1)
    exact ⟨first.symm, second.symm⟩
  · exact two.2 pair (handed_later after one.1)

variable {handles : List Nat}

theorem mem_named_iff (pair : Fin pages × Fin pages) :
    pair ∈ s.named handles ↔ ∃ handle ∈ handles, s.handed[handle]? = some pair :=
  List.mem_filterMap

theorem fresh_names {handle : Nat} (fresh : s.Fresh handle) {pair : Fin pages × Fin pages}
    (found : s.handed[handle]? = some pair) : s.Names handle pair := by
  obtain ⟨other, member, names⟩ := fresh
  rw [Option.mem_def.mp member] at found
  exact Option.some.inj found ▸ names

theorem named_distinct (fresh : ∀ handle ∈ handles, s.Fresh handle) (distinct : handles.Nodup) :
    ((s.named handles).map (·.1)).Nodup ∧ ((s.named handles).map (·.2)).Nodup := by
  have apart : (s.named handles).Pairwise fun pair other => pair.1 ≠ other.1 ∧ pair.2 ≠ other.2 := by
    refine List.pairwise_filterMap.mpr (distinct.imp_of_mem ?_)
    intro left right inLeft inRight different pair foundLeft other foundRight
    exact names_apart (fresh_names (fresh left inLeft) foundLeft)
      (fresh_names (fresh right inRight) foundRight) different
  exact ⟨List.pairwise_map.mpr (apart.imp And.left), List.pairwise_map.mpr (apart.imp And.right)⟩

theorem named_iff (fresh : ∀ handle ∈ handles, s.Fresh handle) {handle : Nat}
    {pair : Fin pages × Fin pages} (names : s.Names handle pair) :
    (pair.1 ∈ (s.named handles).map (·.1) ↔ handle ∈ handles) ∧
      (pair.2 ∈ (s.named handles).map (·.2) ↔ handle ∈ handles) := by
  have listed : handle ∈ handles → pair ∈ s.named handles :=
    fun member => (mem_named_iff pair).mpr ⟨handle, member, names.1⟩
  have handleOf : ∀ other ∈ s.named handles, other.1 = pair.1 ∨ other.2 = pair.2 →
      handle ∈ handles := by
    intro other member same
    obtain ⟨named, inside, found⟩ := (mem_named_iff other).mp member
    by_contra outside
    have apart := names_apart names (fresh_names (fresh named inside) found)
      fun equal => outside (equal ▸ inside)
    exact same.elim (fun first => apart.1 first.symm) fun second => apart.2 second.symm
  constructor
  · refine ⟨fun member => ?_, fun member => List.mem_map_of_mem (listed member)⟩
    obtain ⟨other, inside, same⟩ := List.mem_map.mp member
    exact handleOf other inside (Or.inl same)
  · refine ⟨fun member => ?_, fun member => List.mem_map_of_mem (listed member)⟩
    obtain ⟨other, inside, same⟩ := List.mem_map.mp member
    exact handleOf other inside (Or.inr same)

theorem names_appended {after : Pools pages shards} {new : List (Fin pages × Fin pages)}
    (handed : after.handed = s.handed ++ new) {handle : Nat} {pair : Fin pages × Fin pages}
    (names : after.Names handle pair) :
    (s.Names handle pair ∧ pair.1 ∉ new.map (·.1) ∧ pair.2 ∉ new.map (·.2)) ∨ pair ∈ new := by
  obtain ⟨found, last⟩ := names
  rw [handed] at found last
  by_cases old : handle < s.handed.length
  · rw [List.getElem?_append_left old] at found
    rw [List.drop_append_of_le_length old] at last
    refine Or.inl ⟨⟨found, fun other later => last other (List.mem_append_left new later)⟩, ?_, ?_⟩
    · intro again
      obtain ⟨other, member, same⟩ := List.mem_map.mp again
      exact (last other (List.mem_append_right _ member)).1 same
    · intro again
      obtain ⟨other, member, same⟩ := List.mem_map.mp again
      exact (last other (List.mem_append_right _ member)).2 same
  · rw [List.getElem?_append_right (Nat.not_lt.mp old)] at found
    exact Or.inr (List.mem_of_getElem? found)

end Names

/-! ## Histories -/

/-- A page is freed in both pools or in neither, as far as handles can tell, and the
pools have equally many free pages. -/
structure Matched [NeZero shards] (s : Pools pages shards) : Prop where
  plain : PagePoolRepresentation.Represented s.plain
  fast : PagePoolFastRepresentation.Represented s.fast
  count : PagePoolRepresentation.freeCount s.plain = PagePoolFastRepresentation.freeCount s.fast
  paired : ∀ handle pair, s.Names handle pair →
    ((s.plain.page pair.1).freed = true ↔ s.fast.touchUs pair.2 = 0)
  answers : ∀ answer ∈ s.answers, answer.Agreed

section Steps

variable [NeZero shards] {s : Pools pages shards}

theorem create_matched : Matched (Pools.create pages shards) where
  plain := PagePoolRepresentation.create_represented
  fast := PagePoolFastRepresentation.create_represented
  count := by
    have touch := @PagePoolFastSequential.create_touch pages shards _
    refine List.countP_congr fun id _ => ?_
    simp [Pools.create, PagePool.create, touch]
  paired := by
    rintro handle pair ⟨found, -⟩
    cases found
  answers := by
    intro answer member
    cases member

theorem alloc_matched (matched : Matched s) (traceId : String) (n : Nat) (threadHash now : Int)
    {nowUs : UInt64} (ticking : nowUs ≠ 0) {after : Pools pages shards}
    (moved : s.step (.alloc traceId n threadHash now nowUs) = some after) : Matched after := by
  obtain ⟨plainCount, plainDistinct, plainFull, plainShort, flags⟩ :=
    plain_alloc matched.plain traceId n now
  obtain ⟨fastCount, fastFull, fastShort⟩ := fast_alloc matched.fast n threadHash ticking
  have granted := PagePoolFastSequential.alloc_granted matched.fast.formed n threadHash nowUs
  have lengths : (s.plain.alloc traceId n now).2.length =
      (s.fast.alloc n threadHash nowUs).2.length := by
    have count := matched.count
    by_cases enough : n ≤ PagePoolRepresentation.freeCount s.plain
    · rw [plainFull enough, fastFull (count ▸ enough)]
    · have short := Nat.not_le.mp enough
      rw [plainShort short, fastShort (count ▸ short)]
  have firsts := List.map_fst_zip lengths.le
  have seconds := List.map_snd_zip lengths.ge
  obtain rfl := Option.some.inj moved
  refine ⟨PagePoolRepresentation.alloc_represented matched.plain traceId n now,
    PagePoolFastRepresentation.alloc_represented matched.fast n threadHash ticking, ?_, ?_, ?_⟩
  · have count := matched.count
    dsimp only
    omega
  · intro handle pair names
    dsimp only
    rw [flags, granted.touchUs]
    rcases names_appended rfl names with ⟨old, first, second⟩ | new
    · rw [firsts] at first
      rw [seconds] at second
      rw [if_neg second]
      simp [first, matched.paired handle pair old]
    · obtain ⟨first, second⟩ := List.of_mem_zip new
      rw [if_pos second]
      simp [first, ticking]
  · intro answer member
    rcases List.mem_append.mp member with old | new
    · exact matched.answers answer old
    · rw [List.mem_singleton.mp new]
      exact ⟨by rw [lengths], plainDistinct, granted.distinct⟩

/-- The pages that held handles name are held in both pools. -/
theorem named_held (matched : Matched s) {handles : List Nat}
    (fresh : ∀ handle ∈ handles, s.Fresh handle) (held : ∀ handle ∈ handles, s.Held handle) :
    (∀ id ∈ (s.named handles).map (·.1), (s.plain.page id).freed = false) ∧
      ∀ id ∈ (s.named handles).map (·.2), s.fast.touchUs id ≠ 0 := by
  have both : ∀ pair ∈ s.named handles, (s.plain.page pair.1).freed = false ∧
      s.fast.touchUs pair.2 ≠ 0 := by
    intro pair member
    obtain ⟨handle, inside, found⟩ := (mem_named_iff pair).mp member
    have owned := held handle inside pair found
    refine ⟨owned, fun zero => ?_⟩
    have freed := (matched.paired handle pair (fresh_names (fresh handle inside) found)).mpr zero
    rw [owned] at freed
    cases freed
  constructor <;> intro id member <;> obtain ⟨pair, inside, rfl⟩ := List.mem_map.mp member
  · exact (both pair inside).1
  · exact (both pair inside).2

theorem free_matched (matched : Matched s) {handles : List Nat}
    (fresh : ∀ handle ∈ handles, s.Fresh handle) (distinct : handles.Nodup)
    (held : ∀ handle ∈ handles, s.Held handle) {after : Pools pages shards}
    (moved : s.step (.freePages handles) = some after) : Matched after := by
  obtain ⟨plainDistinct, fastDistinct⟩ := named_distinct fresh distinct
  obtain ⟨plainHeld, fastHeld⟩ := named_held matched fresh held
  have plainCount := plain_free_count matched.plain plainDistinct plainHeld
  have fastCount := fast_free_count matched.fast fastDistinct fastHeld
  obtain ⟨represented, flags⟩ :=
    PagePoolRepresentation.free_pages_represented ((s.named handles).map (·.1)) matched.plain
  obtain rfl := Option.some.inj moved
  refine ⟨represented,
    PagePoolFastRepresentation.free_represented matched.fast fastDistinct fastHeld, ?_, ?_,
    matched.answers⟩
  · have count := matched.count
    dsimp only
    rw [plainCount, fastCount, count, List.length_map, List.length_map]
  · intro handle pair names
    have before : s.Names handle pair := names
    obtain ⟨inPlain, inFast⟩ := named_iff fresh before
    dsimp only
    rw [flags, PagePoolFastSequential.free_pages_touch]
    by_cases freed : handle ∈ handles
    · simp [inPlain.mpr freed, inFast.mpr freed]
    · rw [if_neg (mt inFast.mp freed)]
      simp [mt inPlain.mp freed, matched.paired handle pair before]

theorem touch_matched (matched : Matched s) {handles : List Nat}
    (fresh : ∀ handle ∈ handles, s.Fresh handle) (held : ∀ handle ∈ handles, s.Held handle)
    (now : Int) {nowUs : UInt64} (ticking : nowUs ≠ 0) {after : Pools pages shards}
    (moved : s.step (.touch handles now nowUs) = some after) : Matched after := by
  obtain ⟨plainHeld, fastHeld⟩ := named_held matched fresh held
  obtain ⟨-, -, -, flags⟩ :=
    PagePoolRepresentation.touch_keeps ((s.named handles).map (·.1)) s.plain now
  obtain rfl := Option.some.inj moved
  refine ⟨PagePoolRepresentation.touch_represented matched.plain _ now,
    PagePoolFastRepresentation.touch_represented matched.fast fastHeld ticking, ?_, ?_,
    matched.answers⟩
  · dsimp only
    rw [plain_touch_count, fast_touch_count s.fast fastHeld ticking]
    exact matched.count
  · intro handle pair names
    have before : s.Names handle pair := names
    obtain ⟨inPlain, inFast⟩ := named_iff fresh before
    dsimp only
    rw [flags, PagePoolFastSequential.touch_stamps]
    by_cases touched : handle ∈ handles
    · rw [if_pos (inFast.mpr touched), plainHeld pair.1 (inPlain.mpr touched)]
      simp [ticking]
    · rw [if_neg (mt inFast.mp touched)]
      exact matched.paired handle pair before

theorem step_matched (matched : Matched s) {call : Call} (owned : s.Owned call)
    (inTime : s.InTime call) {after : Pools pages shards} (moved : s.step call = some after) :
    Matched after := by
  cases call with
  | alloc traceId n threadHash now nowUs =>
      exact alloc_matched matched traceId n threadHash now inTime moved
  | freePages handles => exact free_matched matched owned inTime.1 inTime.2 moved
  | touch handles now nowUs => exact touch_matched matched owned inTime.2 now inTime.1 moved

theorem matched_agrees (matched : Matched s) : s.Agrees := by
  refine ⟨matched.answers, ?_⟩
  have plain : s.plain.stats.inUse + PagePoolRepresentation.freeCount s.plain = pages :=
    PagePoolRepresentation.held_add_free s.plain
  have fast := fast_in_use s.fast
  have count := matched.count
  omega

/-- The pools agree after every history that frees and touches pages while they are
allocated. -/
theorem pools_agree (reached : Reaches Pools.step (fun s call => s.Owned call ∧ s.InTime call)
    (Pools.create pages shards) s) : s.Agrees := by
  refine matched_agrees (reaches_invariant create_matched ?_ reached)
  intro before call after _ matched allowed moved
  exact step_matched matched allowed.1 allowed.2 moved

end Steps

/-! ## Two histories -/

section Examples

variable (s : Pools pages shards)

instance namesDecidable (handle : Nat) (pair : Fin pages × Fin pages) :
    Decidable (s.Names handle pair) := inferInstanceAs (Decidable (_ ∧ _))

instance freshDecidable (handle : Nat) : Decidable (s.Fresh handle) :=
  inferInstanceAs (Decidable (∃ pair ∈ s.handed[handle]?, s.Names handle pair))

instance heldDecidable (handle : Nat) : Decidable (s.Held handle) :=
  inferInstanceAs (Decidable (∀ pair ∈ s.handed[handle]?, (s.plain.page pair.1).freed = false))

instance ownedDecidable : ∀ call, Decidable (s.Owned call)
  | .alloc _ _ _ _ _ => isTrue trivial
  | .freePages handles => inferInstanceAs (Decidable (∀ handle ∈ handles, s.Fresh handle))
  | .touch handles _ _ => inferInstanceAs (Decidable (∀ handle ∈ handles, s.Fresh handle))

instance inTimeDecidable : ∀ call, Decidable (s.InTime call)
  | .alloc _ _ _ _ nowUs => inferInstanceAs (Decidable (nowUs ≠ 0))
  | .freePages handles =>
      inferInstanceAs (Decidable (handles.Nodup ∧ ∀ handle ∈ handles, s.Held handle))
  | .touch handles _ nowUs =>
      inferInstanceAs (Decidable (nowUs ≠ 0 ∧ ∀ handle ∈ handles, s.Held handle))

end Examples

/-- Allocations that succeed and fail, a free, a touch, and a page handed out twice. -/
def mixedCalls : List Call :=
  [.alloc "a" 2 1 0 5, .freePages [1], .touch [0] 1 6, .alloc "b" 2 0 2 7, .alloc "c" 1 0 3 8,
    .freePages [2, 0]]

theorem pools_agree_mixed :
    ((runCalls Pools.step (fun s call => s.Owned call ∧ s.InTime call) (Pools.create 3 2)
      mixedCalls).get (by decide +kernel)).Agrees :=
  pools_agree (reaches_of_run_get mixedCalls (by decide +kernel))

def repeatedFreeCalls : List Call :=
  [.alloc "a" 1 0 0 5, .freePages [0], .freePages [0], .alloc "b" 2 0 1 6]

/-- The second free pushes the page on top of itself, and the sharded pool hands it
out twice in one result. -/
theorem repeated_free_diverges :
    ∃ s : Pools 1 1, Reaches Pools.step Pools.Owned (Pools.create 1 1) s ∧ ¬s.Agrees := by
  refine ⟨_, reaches_of_run_get repeatedFreeCalls (by decide +kernel), fun agrees => ?_⟩
  have second := agrees.answers { n := 2, plain := [], fast := [0, 0] } (by decide +kernel)
  exact absurd second.2.2 (by decide)

end AmpFormal.PoolAgreement
