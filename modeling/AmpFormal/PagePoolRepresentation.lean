import AmpFormal.PagePoolModel
import AmpFormal.WrappedInts
import Mathlib.Data.List.Nodup

/-!
# The two representations of a free page

`free_list_` and the `freed` flags say the same thing, each page once, through
every call and every misuse: `free_pages` skips a page that is freed already, and
`leak_scan` only collects pages that are not. The counters follow, modulo 2^64.
-/

namespace AmpFormal.PagePoolRepresentation

open AmpFormal.PagePoolModel AmpFormal.PagePoolModel.PagePool AmpFormal.WrappedInts

set_option autoImplicit false

variable {pages : Nat}

def freeCount (pool : PagePool pages) : Nat :=
  (List.finRange pages).countP fun id => (pool.page id).freed

def heldCount (pool : PagePool pages) : Nat :=
  (List.finRange pages).countP fun id => !(pool.page id).freed

theorem held_add_free (pool : PagePool pages) : heldCount pool + freeCount pool = pages := by
  have split := (List.finRange pages).length_eq_countP_add_countP fun id => (pool.page id).freed
  rw [List.length_finRange] at split
  have negated : (List.finRange pages).countP (fun id => decide ¬(pool.page id).freed = true) =
      heldCount pool := by
    refine List.countP_congr fun id _ => ?_
    cases (pool.page id).freed <;> simp
  rw [negated] at split
  unfold freeCount
  omega

/-- Free list, flags and counters agree. -/
structure Represented (pool : PagePool pages) : Prop where
  nodup : pool.freeList.Nodup
  listed : ∀ id, id ∈ pool.freeList ↔ (pool.page id).freed = true
  counters : pool.allocCnt - pool.freeCnt + UInt64.ofNat pool.freeList.length = UInt64.ofNat pages

theorem free_list_length {pool : PagePool pages} (represented : Represented pool) :
    pool.freeList.length = freeCount pool := by
  rw [freeCount, List.countP_eq_length_filter]
  apply List.Perm.length_eq
  rw [List.perm_ext_iff_of_nodup represented.nodup ((List.nodup_finRange pages).filter _)]
  intro id
  simp [represented.listed id]

theorem create_represented : Represented (create pages) := by
  refine ⟨List.nodup_finRange pages, fun id => by simp [create], ?_⟩
  simp [create, List.length_finRange]

/-! ## Allocation -/

def handed (traceId : String) (now : Int) : Page where
  refcount := 1
  owner := traceId
  allocTs := now
  touchTs := now
  freed := false

structure Taken (traceId : String) (now : Int) (pool after : PagePool pages)
    (taken : List (Fin pages)) : Prop where
  list : pool.freeList = after.freeList ++ taken.reverse
  page : ∀ id, after.page id = if id ∈ taken then handed traceId now else pool.page id
  allocCnt : after.allocCnt = pool.allocCnt
  freeCnt : after.freeCnt = pool.freeCnt

theorem take_loop_taken (traceId : String) (now : Int) (missing : Nat) (pool : PagePool pages)
    (out : List (Fin pages)) (enough : missing ≤ pool.freeList.length) :
    ∃ taken, (takeLoop traceId now missing pool out).2 = out ++ taken ∧ taken.length = missing ∧
      Taken traceId now pool (takeLoop traceId now missing pool out).1 taken := by
  induction missing generalizing pool out with
  | zero => exact ⟨[], by simp [takeLoop], rfl, by simp [takeLoop], by simp [takeLoop], rfl, rfl⟩
  | succ missing ih =>
      rcases List.eq_nil_or_concat pool.freeList with empty | ⟨rest, id, split⟩
      · simp [empty] at enough
      · rw [List.concat_eq_append] at split
        have last : pool.freeList.getLast? = some id := by simp [split]
        have front : pool.freeList.dropLast = rest := by simp [split]
        have fewer : missing ≤ rest.length := by
          rw [split, List.length_append, List.length_singleton] at enough
          omega
        obtain ⟨taken, result, length, rec⟩ :=
          ih ({ pool with freeList := rest }.setPage id (handed traceId now)) (out ++ [id]) fewer
        have unfolded : takeLoop traceId now (missing + 1) pool out =
            takeLoop traceId now missing
              ({ pool with freeList := rest }.setPage id (handed traceId now)) (out ++ [id]) := by
          rw [takeLoop, last, front]
          rfl
        rw [unfolded]
        refine ⟨id :: taken, by rw [result, List.append_assoc]; rfl, by rw [List.length_cons, length],
          ?_, fun other => ?_, rec.allocCnt, rec.freeCnt⟩
        · rw [List.reverse_cons, ← List.append_assoc, ← rec.list, split]
          rfl
        · rw [rec.page other]
          by_cases later : other ∈ taken
          · simp [later]
          · by_cases same : other = id
            · subst same
              simp [later, setPage]
            · simp [later, same, setPage]

theorem alloc_taken (pool : PagePool pages) (traceId : String) {n : Nat} (now : Int)
    (enough : n ≤ pool.freeList.length) :
    ∃ last taken, Taken traceId now pool last taken ∧ taken.length = n ∧
      pool.alloc traceId n now =
        ({ last with allocCnt := last.allocCnt + UInt64.ofNat n }, taken) := by
  obtain ⟨taken, result, length, rec⟩ := take_loop_taken traceId now n pool [] enough
  refine ⟨_, taken, rec, length, ?_⟩
  rw [List.nil_append] at result
  simp only [PagePool.alloc, if_neg (Nat.not_lt.mpr enough), result]

theorem alloc_short (pool : PagePool pages) (traceId : String) {n : Nat} (now : Int)
    (short : pool.freeList.length < n) : pool.alloc traceId n now = (pool, []) := if_pos short

theorem taken_listed {traceId : String} {now : Int} {pool after : PagePool pages}
    {taken : List (Fin pages)} (represented : Represented pool)
    (rec : Taken traceId now pool after taken) :
    taken.Nodup ∧ (∀ id ∈ taken, (pool.page id).freed = true) ∧ after.freeList.Nodup ∧
      ∀ id, id ∈ after.freeList ↔ (after.page id).freed = true := by
  have nodup := represented.nodup
  rw [rec.list, List.nodup_append] at nodup
  obtain ⟨kept, reversed, apart⟩ := nodup
  have freed : ∀ id ∈ taken, (pool.page id).freed = true := by
    intro id member
    rw [← represented.listed id, rec.list, List.mem_append, List.mem_reverse]
    exact Or.inr member
  refine ⟨List.nodup_reverse.mp reversed, freed, kept, fun id => ?_⟩
  rw [rec.page id]
  by_cases member : id ∈ taken
  · have unlisted : id ∉ after.freeList :=
      fun inside => apart id inside id (List.mem_reverse.mpr member) rfl
    simp [member, unlisted, handed]
  · have listed := represented.listed id
    rw [rec.list, List.mem_append, List.mem_reverse, or_iff_left member] at listed
    simp [member, listed]

theorem alloc_represented {pool : PagePool pages} (represented : Represented pool)
    (traceId : String) (n : Nat) (now : Int) : Represented (pool.alloc traceId n now).1 := by
  by_cases enough : n ≤ pool.freeList.length
  · obtain ⟨last, taken, rec, length, result⟩ := alloc_taken pool traceId now enough
    obtain ⟨-, -, nodup, listed⟩ := taken_listed represented rec
    rw [result]
    refine ⟨nodup, listed, ?_⟩
    have counters := represented.counters
    rw [rec.list, List.length_append, List.length_reverse, length, UInt64.ofNat_add] at counters
    simp only [rec.allocCnt, rec.freeCnt]
    grind
  · rw [alloc_short pool traceId now (Nat.not_le.mp enough)]
    exact represented

/-! ## Freeing -/

theorem release_represented {pool : PagePool pages} (represented : Represented pool)
    {id : Fin pages} (held : (pool.page id).freed = false) : Represented (pool.release id) := by
  have unlisted : id ∉ pool.freeList := by simp [represented.listed id, held]
  refine ⟨?_, fun other => ?_, ?_⟩
  · refine List.nodup_append.mpr ⟨represented.nodup, by simp, ?_⟩
    intro left member right single same
    rw [List.mem_singleton.mp single] at same
    exact unlisted (same ▸ member)
  · simp only [release, setPage, List.mem_append, List.mem_singleton]
    by_cases same : other = id
    · subst same
      simp
    · simp only [same, or_false, Function.update_of_ne same]
      exact represented.listed other
  · have counters := represented.counters
    simp only [release, List.length_append, List.length_singleton, UInt64.ofNat_add, setPage]
    have one : UInt64.ofNat 1 = 1 := rfl
    rw [one]
    grind

theorem free_page_represented {pool : PagePool pages} (represented : Represented pool)
    (id : Fin pages) : Represented (pool.freePage id) := by
  unfold freePage
  split
  case isTrue => exact represented
  case isFalse held => exact release_represented represented (Bool.eq_false_iff.mpr held)

theorem free_page_freed (pool : PagePool pages) (id other : Fin pages) :
    ((pool.freePage id).page other).freed = (decide (other = id) || (pool.page other).freed) := by
  unfold freePage
  by_cases same : other = id
  · subst same
    split
    case isTrue already => simp [already]
    case isFalse => simp [release, setPage]
  · split
    case isTrue => simp [same]
    case isFalse => simp [release, setPage, same]

/-- Freeing any ids, repeated or freed before, keeps the representation and frees
exactly these pages. -/
theorem free_pages_represented (ids : List (Fin pages)) {pool : PagePool pages}
    (represented : Represented pool) :
    Represented (pool.freePages ids) ∧
      ∀ other, ((pool.freePages ids).page other).freed =
        (decide (other ∈ ids) || (pool.page other).freed) := by
  induction ids generalizing pool with
  | nil => exact ⟨represented, by simp [freePages]⟩
  | cons id rest ih =>
      obtain ⟨kept, flags⟩ := ih (free_page_represented represented id)
      refine ⟨kept, fun other => ?_⟩
      have step := flags other
      rw [free_page_freed] at step
      change ((freePages (pool.freePage id) rest).page other).freed = _
      rw [step]
      by_cases same : other = id <;> simp [same]

theorem release_all_eq (ids : List (Fin pages)) {pool : PagePool pages} (distinct : ids.Nodup)
    (held : ∀ id ∈ ids, (pool.page id).freed = false) :
    ids.foldl release pool = pool.freePages ids := by
  induction ids generalizing pool with
  | nil => rfl
  | cons id rest ih =>
      obtain ⟨fresh, tail⟩ := List.nodup_cons.mp distinct
      have here : pool.freePage id = pool.release id := by
        rw [freePage, held id List.mem_cons_self]
        rfl
      rw [freePages, List.foldl_cons, List.foldl_cons, here]
      refine ih tail fun other member => ?_
      have apart : other ≠ id := by
        rintro rfl
        exact fresh member
      simp only [release, setPage, Function.update_of_ne apart]
      exact held other (List.mem_cons_of_mem id member)

theorem leak_scan_frees (pool : PagePool pages) (ttlMs now : Int) :
    (pool.leakScan ttlMs now).1 = pool.freePages (pool.orphans ttlMs now) := by
  refine release_all_eq _ ((List.nodup_finRange pages).filter _) fun id member => ?_
  have collected := (List.mem_filter.mp member).2
  simp only [Bool.and_eq_true, Bool.not_eq_true'] at collected
  exact collected.1

theorem touch_keeps (ids : List (Fin pages)) (pool : PagePool pages) (now : Int) :
    (pool.touch ids now).freeList = pool.freeList ∧
      (pool.touch ids now).allocCnt = pool.allocCnt ∧ (pool.touch ids now).freeCnt = pool.freeCnt ∧
        ∀ id, ((pool.touch ids now).page id).freed = (pool.page id).freed := by
  induction ids generalizing pool with
  | nil => exact ⟨rfl, rfl, rfl, fun _ => rfl⟩
  | cons first rest ih =>
      obtain ⟨list, allocCnt, freeCnt, flags⟩ :=
        ih (pool.setPage first { pool.page first with touchTs := now })
      refine ⟨list, allocCnt, freeCnt, fun id => (flags id).trans ?_⟩
      by_cases same : id = first
      · subst same
        simp [setPage]
      · simp [setPage, same]

theorem touch_represented {pool : PagePool pages} (represented : Represented pool)
    (ids : List (Fin pages)) (now : Int) : Represented (pool.touch ids now) := by
  obtain ⟨list, allocCnt, freeCnt, flags⟩ := touch_keeps ids pool now
  refine ⟨?_, fun id => ?_, ?_⟩
  · rw [list]
    exact represented.nodup
  · rw [list, flags id]
    exact represented.listed id
  · rw [list, allocCnt, freeCnt]
    exact represented.counters

/-! ## Histories -/

theorem step_represented {pool : PagePool pages} (represented : Represented pool)
    (call : Call pages) : Represented (pool.step call) := by
  cases call with
  | alloc traceId n now => exact alloc_represented represented traceId n now
  | freePages ids => exact (free_pages_represented ids represented).1
  | touch ids now => exact touch_represented represented ids now
  | leakScan ttlMs now =>
      rw [step, leak_scan_frees]
      exact (free_pages_represented _ represented).1

theorem run_represented (calls : List (Call pages)) {pool : PagePool pages}
    (represented : Represented pool) : Represented (pool.run calls) := by
  induction calls generalizing pool with
  | nil => exact represented
  | cons call rest ih => exact ih (step_represented represented call)

/-- The call frees the page: a `free_pages` that names it or a `leak_scan` that
reclaims it. -/
def Releases (pool : PagePool pages) (id : Fin pages) : Call pages → Prop
  | .freePages ids => id ∈ ids
  | .leakScan ttlMs now => id ∈ pool.orphans ttlMs now
  | .alloc _ _ _ | .touch _ _ => False

def Kept (id : Fin pages) : PagePool pages → List (Call pages) → Prop
  | _, [] => True
  | pool, call :: rest => ¬Releases pool id call ∧ Kept id (pool.step call) rest

theorem step_held {pool : PagePool pages} (represented : Represented pool) {id : Fin pages}
    (held : (pool.page id).freed = false) {call : Call pages} (kept : ¬Releases pool id call) :
    ((pool.step call).page id).freed = false := by
  cases call with
  | alloc traceId n now =>
      rw [step]
      by_cases enough : n ≤ pool.freeList.length
      · obtain ⟨last, taken, rec, -, result⟩ := alloc_taken pool traceId now enough
        rw [result]
        dsimp only
        rw [rec.page id]
        split
        · rfl
        · exact held
      · rw [alloc_short pool traceId now (Nat.not_le.mp enough)]
        exact held
  | freePages ids =>
      rw [step, (free_pages_represented ids represented).2 id, held]
      simpa [Releases] using kept
  | touch ids now => rw [step, (touch_keeps ids pool now).2.2.2 id, held]
  | leakScan ttlMs now =>
      rw [step, leak_scan_frees, (free_pages_represented _ represented).2 id, held]
      simpa [Releases] using kept

theorem run_held (calls : List (Call pages)) {pool : PagePool pages}
    (represented : Represented pool) {id : Fin pages} (held : (pool.page id).freed = false)
    (kept : Kept id pool calls) : ((pool.run calls).page id).freed = false := by
  induction calls generalizing pool with
  | nil => exact held
  | cons call rest ih =>
      exact ih (step_represented represented call) (step_held represented held kept.1) kept.2

theorem alloc_returns {pool : PagePool pages} (represented : Represented pool) (traceId : String)
    (n : Nat) (now : Int) {id : Fin pages} (returned : id ∈ (pool.alloc traceId n now).2) :
    (pool.page id).freed = true ∧ ((pool.alloc traceId n now).1.page id).freed = false := by
  by_cases enough : n ≤ pool.freeList.length
  · obtain ⟨last, taken, rec, -, result⟩ := alloc_taken pool traceId now enough
    rw [result] at returned ⊢
    refine ⟨(taken_listed represented rec).2.1 id returned, ?_⟩
    dsimp only at returned ⊢
    rw [rec.page id, if_pos returned]
    rfl
  · rw [alloc_short pool traceId now (Nat.not_le.mp enough)] at returned
    cases returned

/-- A page stays with its owner until it is freed or reclaimed. -/
theorem alloc_exclusive {pool : PagePool pages} (represented : Represented pool)
    (traceId : String) (n : Nat) (now : Int) (between : List (Call pages)) (laterId : String)
    (m : Nat) (later : Int) : ∀ id ∈ (pool.alloc traceId n now).2,
      Kept id (pool.alloc traceId n now).1 between →
        id ∉ (((pool.alloc traceId n now).1.run between).alloc laterId m later).2 := by
  intro id returned kept again
  have after := alloc_represented represented traceId n now
  have held := run_held between after (alloc_returns represented traceId n now returned).2 kept
  have free := (alloc_returns (run_represented between after) laterId m later again).1
  rw [held] at free
  cases free

theorem alloc_succeeds_iff {pool : PagePool pages} (represented : Represented pool)
    (traceId : String) (n : Nat) (now : Int) :
    ((pool.alloc traceId n now).2.length = n ↔ n ≤ freeCount pool) ∧
      (freeCount pool < n → pool.alloc traceId n now = (pool, [])) := by
  rw [← free_list_length represented]
  refine ⟨⟨fun full => ?_, fun enough => ?_⟩, alloc_short pool traceId now⟩
  · by_contra few
    rw [alloc_short pool traceId now (Nat.not_le.mp few), List.length_nil] at full
    omega
  · obtain ⟨last, taken, -, length, result⟩ := alloc_taken pool traceId now enough
    rw [result]
    exact length

theorem stats_add_up {pool : PagePool pages} (represented : Represented pool) :
    pool.stats.inUse + pool.stats.free = pool.stats.total ∧
      pool.stats.allocCnt - pool.stats.freeCnt = UInt64.ofNat pool.stats.inUse := by
  have total : heldCount pool + pool.freeList.length = pages := by
    rw [free_list_length represented]
    exact held_add_free pool
  refine ⟨total, ?_⟩
  have counters := represented.counters
  have sum := congrArg UInt64.ofNat total
  rw [UInt64.ofNat_add] at sum
  change pool.allocCnt - pool.freeCnt = UInt64.ofNat (heldCount pool)
  grind

/-- The ids that the constructor casts to `int` are kept as long as there is one for
every page; `PagePoolFast` casts the same ids. -/
theorem ids_fit_iff : (∀ id : Fin pages, toInt32 (id : Nat) = (id : Nat)) ↔
    pages ≤ 2147483648 := by
  constructor
  · intro kept
    by_contra many
    have last := (to_int32_eq_iff (Int.natCast_nonneg _)).mp
      (kept ⟨2147483648, Nat.lt_of_not_le many⟩)
    dsimp only at last
    omega
  · intro few id
    have inside := id.isLt
    exact to_int32_of_range (by omega) (by omega)

theorem stats_fit {pool : PagePool pages} (represented : Represented pool)
    (few : pages < 2147483648) :
    toInt32 pool.stats.total = pool.stats.total ∧ toInt32 pool.stats.inUse = pool.stats.inUse ∧
      toInt32 pool.stats.free = pool.stats.free := by
  have sum := (stats_add_up represented).1
  have total : pool.stats.total = pages := rfl
  exact ⟨to_int32_of_range (by omega) (by omega), to_int32_of_range (by omega) (by omega),
    to_int32_of_range (by omega) (by omega)⟩

/-- After every history of calls, whatever ids they name and whatever the clock
says. -/
theorem page_pool_representation (calls : List (Call pages)) :
    let pool := (create pages).run calls
    (pool.freeList.Nodup ∧ ∀ id, id ∈ pool.freeList ↔ (pool.page id).freed = true) ∧
    (∀ traceId n now between laterId m later, ∀ id ∈ (pool.alloc traceId n now).2,
      Kept id (pool.alloc traceId n now).1 between →
        id ∉ (((pool.alloc traceId n now).1.run between).alloc laterId m later).2) ∧
    (∀ traceId n now, ((pool.alloc traceId n now).2.length = n ↔ n ≤ freeCount pool) ∧
      (freeCount pool < n → pool.alloc traceId n now = (pool, []))) ∧
    pool.stats.inUse + pool.stats.free = pool.stats.total ∧
    pool.stats.allocCnt - pool.stats.freeCnt = UInt64.ofNat pool.stats.inUse := by
  have represented := run_represented calls (@create_represented pages)
  exact ⟨⟨represented.nodup, represented.listed⟩, alloc_exclusive represented,
    alloc_succeeds_iff represented, stats_add_up represented⟩

example : ((create 3).alloc "a" 2 0).2 = [2, 1] := by decide

end AmpFormal.PagePoolRepresentation
