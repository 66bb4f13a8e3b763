import Mathlib.Data.List.Nodup
import Mathlib.Logic.Function.Basic

/-!
# The second-chance queue

Items wait in a queue, each with a use bit, and a load is brought down by giving
items up. A sweep of the hand goes through the queue while the load is over its
limit: a used item loses its bit and stays, an unused one is given up. Two sweeps
give up a prefix of the unused items followed by the used ones, both in queue
order, and stop at the first item that brings the load within its limit.
-/

namespace AmpFormal.SecondChance

set_option autoImplicit false

variable {Item Load : Type*}

/-- What is left of the queue and of the bits, what was given up in which order,
and the load after it. -/
structure Outcome (Item Load : Type*) where
  kept : List Item
  used : Item → Bool
  victims : List Item
  load : Load

def idle (used : Item → Bool) (order : List Item) (load : Load) : Outcome Item Load :=
  { kept := order, used, victims := [], load }

namespace Outcome

variable (result : Outcome Item Load)

def spare (item : Item) : Outcome Item Load := { result with kept := item :: result.kept }

def giveUpFirst (items : List Item) : Outcome Item Load :=
  { result with victims := items ++ result.victims }

@[simp] theorem spare_kept (item : Item) : (result.spare item).kept = item :: result.kept := rfl

@[simp] theorem spare_used (item : Item) : (result.spare item).used = result.used := rfl

@[simp] theorem spare_victims (item : Item) : (result.spare item).victims = result.victims := rfl

@[simp] theorem spare_load (item : Item) : (result.spare item).load = result.load := rfl

@[simp] theorem give_up_first_kept (items : List Item) :
    (result.giveUpFirst items).kept = result.kept := rfl

@[simp] theorem give_up_first_used (items : List Item) :
    (result.giveUpFirst items).used = result.used := rfl

@[simp] theorem give_up_first_victims (items : List Item) :
    (result.giveUpFirst items).victims = items ++ result.victims := rfl

@[simp] theorem give_up_first_load (items : List Item) :
    (result.giveUpFirst items).load = result.load := rfl

end Outcome

section Definitions

variable [DecidableEq Item] (full : Load → Prop) [DecidablePred full]
  (spend : Load → Item → Load)

def sweep (used : Item → Bool) : List Item → Load → Outcome Item Load
  | [], load => idle used [] load
  | item :: rest, load =>
      if full load then
        if used item then (sweep (Function.update used item false) rest load).spare item
        else (sweep used rest (spend load item)).giveUpFirst [item]
      else idle used (item :: rest) load

/-- At most so many sweeps, as long as the load is over its limit. -/
def sweeps : Nat → (Item → Bool) → List Item → Load → Outcome Item Load
  | 0, used, order, load => idle used order load
  | count + 1, used, order, load =>
      if full load then
        let first := sweep full spend used order load
        (sweeps count first.used first.kept first.load).giveUpFirst first.victims
      else idle used order load

omit [DecidableEq Item] in
/-- The items given up when each is, in order, until the load is within its limit. -/
def giveUp : List Item → Load → List Item
  | [], _ => []
  | item :: rest, load => if full load then item :: giveUp rest (spend load item) else []

end Definitions

/-! ## Giving up in order -/

section GiveUp

variable {full : Load → Prop} [DecidablePred full] {spend : Load → Item → Load}

theorem give_up_within {load : Load} (within : ¬full load) (items : List Item) :
    giveUp full spend items load = [] := by
  cases items with
  | nil => rfl
  | cons item rest => rw [giveUp, if_neg within]

variable (full spend) in
theorem give_up_starts (items : List Item) (load : Load) :
    giveUp full spend items load <+: items := by
  induction items generalizing load with
  | nil => exact List.prefix_rfl
  | cons item rest ih =>
      rw [giveUp]
      split
      case isTrue => exact List.cons_prefix_cons.mpr ⟨rfl, ih (spend load item)⟩
      case isFalse => exact List.nil_prefix

theorem give_up_exhausted {items : List Item} {load : Load}
    (exceeds : full ((giveUp full spend items load).foldl spend load)) :
    giveUp full spend items load = items := by
  induction items generalizing load with
  | nil => rfl
  | cons item rest ih =>
      by_cases now : full load
      · rw [giveUp, if_pos now, List.foldl_cons] at exceeds
        rw [giveUp, if_pos now, ih exceeds]
      · rw [give_up_within now, List.foldl_nil] at exceeds
        exact absurd exceeds now

theorem give_up_least {items earlier later : List Item} {load : Load} {last : Item}
    (split : giveUp full spend items load = earlier ++ last :: later) :
    full (earlier.foldl spend load) := by
  induction earlier generalizing items load with
  | nil =>
      by_contra within
      rw [List.foldl_nil] at within
      rw [give_up_within within] at split
      cases split
  | cons first others ih =>
      cases items with
      | nil => cases split
      | cons item rest =>
          by_cases now : full load
          · rw [giveUp, if_pos now, List.cons_append, List.cons.injEq] at split
            obtain ⟨rfl, tail⟩ := split
            exact ih tail
          · rw [give_up_within now] at split
            cases split

theorem give_up_append (items others : List Item) (load : Load) :
    giveUp full spend (items ++ others) load =
      giveUp full spend items load ++
        giveUp full spend others ((giveUp full spend items load).foldl spend load) := by
  induction items generalizing load with
  | nil => rfl
  | cons item rest ih =>
      by_cases now : full load
      · rw [List.cons_append, giveUp, if_pos now, giveUp, if_pos now, ih, List.cons_append,
          List.foldl_cons]
      · rw [give_up_within now, give_up_within now, List.foldl_nil, give_up_within now]
        rfl

end GiveUp

/-! ## One sweep -/

section Sweep

variable [DecidableEq Item] {full : Load → Prop} [DecidablePred full]
  {spend : Load → Item → Load}

theorem sweep_within {used : Item → Bool} {order : List Item} {load : Load}
    (within : ¬full load) : sweep full spend used order load = idle used order load := by
  cases order with
  | nil => rfl
  | cons item rest => rw [sweep, if_neg within]

theorem sweep_spares {used : Item → Bool} {item : Item} {load : Load} (exceeds : full load)
    (bit : used item = true) (rest : List Item) :
    sweep full spend used (item :: rest) load =
      (sweep full spend (Function.update used item false) rest load).spare item := by
  rw [sweep, if_pos exceeds, if_pos bit]

theorem sweep_gives_up {used : Item → Bool} {item : Item} {load : Load} (exceeds : full load)
    (bit : used item = false) (rest : List Item) :
    sweep full spend used (item :: rest) load =
      (sweep full spend used rest (spend load item)).giveUpFirst [item] := by
  rw [sweep, if_pos exceeds, if_neg (by simp [bit])]

theorem filter_update_of_not_mem {used : Item → Bool} {item : Item} {rest : List Item}
    (fresh : item ∉ rest) (bit : Bool) :
    (rest.filter fun other => Function.update used item false other == bit) =
      rest.filter fun other => used other == bit := by
  apply List.filter_congr
  intro other member
  have apart : other ≠ item := ne_of_mem_of_not_mem member fresh
  rw [Function.update_of_ne apart]

variable (full spend) in
theorem sweep_load (used : Item → Bool) (order : List Item) (load : Load) :
    (sweep full spend used order load).load =
      (sweep full spend used order load).victims.foldl spend load := by
  induction order generalizing used load with
  | nil => rfl
  | cons item rest ih =>
      by_cases now : full load
      · cases bit : used item with
        | true =>
            rw [sweep_spares now bit]
            exact ih _ load
        | false =>
            rw [sweep_gives_up now bit]
            exact ih used (spend load item)
      · rw [sweep_within now]
        rfl

variable (full spend) in
theorem sweep_perm (used : Item → Bool) (order : List Item) (load : Load) :
    ((sweep full spend used order load).kept ++ (sweep full spend used order load).victims).Perm
      order := by
  induction order generalizing used load with
  | nil => exact List.Perm.refl []
  | cons item rest ih =>
      by_cases now : full load
      · cases bit : used item with
        | true =>
            rw [sweep_spares now bit]
            exact (ih _ load).cons item
        | false =>
            rw [sweep_gives_up now bit]
            exact List.perm_middle.trans ((ih used (spend load item)).cons item)
      · rw [sweep_within now, idle, List.append_nil]

variable (full spend) in
theorem sweep_used (used : Item → Bool) (order : List Item) (load : Load) (item : Item) :
    (sweep full spend used order load).used item = used item ∨
      item ∈ order ∧ (sweep full spend used order load).used item = false := by
  induction order generalizing used load with
  | nil => exact Or.inl rfl
  | cons first rest ih =>
      by_cases now : full load
      · cases bit : used first with
        | true =>
            rw [sweep_spares now bit]
            rcases ih (Function.update used first false) load with same | ⟨member, clear⟩
            · by_cases here : item = first
              · subst here
                rw [Function.update_self] at same
                exact Or.inr ⟨List.mem_cons_self, same⟩
              · rw [Function.update_of_ne here] at same
                exact Or.inl same
            · exact Or.inr ⟨List.mem_cons_of_mem first member, clear⟩
        | false =>
            rw [sweep_gives_up now bit]
            rcases ih used (spend load first) with same | ⟨member, clear⟩
            · exact Or.inl same
            · exact Or.inr ⟨List.mem_cons_of_mem first member, clear⟩
      · rw [sweep_within now]
        exact Or.inl rfl

theorem sweep_clear {used : Item → Bool} {item : Item} (clear : used item = false)
    (order : List Item) (load : Load) :
    (sweep full spend used order load).used item = false := by
  rcases sweep_used full spend used order load item with same | ⟨-, cleared⟩
  · exact same.trans clear
  · exact cleared

theorem sweep_victims_clear {used : Item → Bool} {order : List Item} {load : Load} {item : Item}
    (given : item ∈ (sweep full spend used order load).victims) :
    (sweep full spend used order load).used item = false := by
  induction order generalizing used load with
  | nil => cases given
  | cons first rest ih =>
      by_cases now : full load
      · cases bit : used first with
        | true =>
            rw [sweep_spares now bit] at given ⊢
            exact ih given
        | false =>
            rw [sweep_gives_up now bit] at given ⊢
            rcases List.mem_cons.mp given with rfl | later
            · exact sweep_clear bit rest _
            · exact ih later
      · rw [sweep_within now] at given
        cases given

variable (full spend) in
/-- A sweep gives up unused items in queue order, until the load is within its limit. -/
theorem sweep_victims (used : Item → Bool) {order : List Item} (distinct : order.Nodup)
    (load : Load) :
    (sweep full spend used order load).victims =
      giveUp full spend (order.filter fun item => used item == false) load := by
  induction order generalizing used load with
  | nil => rfl
  | cons item rest ih =>
      obtain ⟨fresh, tail⟩ := List.nodup_cons.mp distinct
      by_cases now : full load
      · cases bit : used item with
        | true =>
            rw [sweep_spares now bit, Outcome.spare_victims,
              List.filter_cons_of_neg (by simp [bit]), ih _ tail, filter_update_of_not_mem fresh]
        | false =>
            rw [sweep_gives_up now bit, Outcome.give_up_first_victims,
              List.filter_cons_of_pos (by simp [bit]), giveUp, if_pos now, ih _ tail,
              List.singleton_append]
      · rw [sweep_within now, give_up_within now]
        rfl

theorem sweep_victims_subset {used : Item → Bool} {order : List Item} {load : Load} {item : Item}
    (given : item ∈ (sweep full spend used order load).victims) : item ∈ order :=
  (sweep_perm full spend used order load).subset (List.mem_append_right _ given)

theorem sweep_kept_subset {used : Item → Bool} {order : List Item} {load : Load} {item : Item}
    (kept : item ∈ (sweep full spend used order load).kept) : item ∈ order :=
  (sweep_perm full spend used order load).subset (List.mem_append_left _ kept)

variable (full spend) in
theorem sweep_kept (used : Item → Bool) {order : List Item} (distinct : order.Nodup)
    (load : Load) :
    (sweep full spend used order load).kept =
      order.removeAll (sweep full spend used order load).victims := by
  induction order generalizing used load with
  | nil => rfl
  | cons item rest ih =>
      obtain ⟨fresh, tail⟩ := List.nodup_cons.mp distinct
      by_cases now : full load
      · cases bit : used item with
        | true =>
            rw [sweep_spares now bit]
            have spared : item ∉
                (sweep full spend (Function.update used item false) rest load).victims :=
              fun given => fresh (sweep_victims_subset given)
            simp [List.cons_removeAll, spared, ih _ tail load]
        | false =>
            have untouched : rest.filter (fun other => !other == item) = rest := by
              apply List.filter_eq_self.mpr
              intro other member
              simp [ne_of_mem_of_not_mem member fresh]
            rw [sweep_gives_up now bit]
            simp [List.removeAll_cons, untouched, ih _ tail]
      · rw [sweep_within now, idle, List.removeAll_nil]

theorem sweep_over {used : Item → Bool} {order : List Item} {load : Load}
    (exceeds : full (sweep full spend used order load).load) :
    ∀ item ∈ order, (sweep full spend used order load).used item = false := by
  induction order generalizing used load with
  | nil =>
      intro item member
      cases member
  | cons first rest ih =>
      by_cases now : full load
      · intro item member
        cases bit : used first with
        | true =>
            rw [sweep_spares now bit] at exceeds ⊢
            rcases List.mem_cons.mp member with rfl | later
            · exact sweep_clear (Function.update_self _ _ _) rest load
            · exact ih exceeds item later
        | false =>
            rw [sweep_gives_up now bit] at exceeds ⊢
            rcases List.mem_cons.mp member with rfl | later
            · exact sweep_clear bit rest _
            · exact ih exceeds item later
      · rw [sweep_within now] at exceeds
        exact absurd exceeds now

theorem sweep_over_kept {used : Item → Bool} {order : List Item} {load : Load}
    (distinct : order.Nodup) (exceeds : full (sweep full spend used order load).load) :
    (sweep full spend used order load).kept = order.filter fun item => used item == true := by
  rw [sweep_load, sweep_victims full spend used distinct] at exceeds
  rw [sweep_kept full spend used distinct, sweep_victims full spend used distinct,
    give_up_exhausted exceeds, List.removeAll]
  apply List.filter_congr
  intro item member
  simp [member]

end Sweep

/-! ## Several sweeps -/

section Sweeps

theorem remove_all_append [DecidableEq Item] (items first second : List Item) :
    items.removeAll (first ++ second) = (items.removeAll first).removeAll second := by
  rw [List.removeAll, List.removeAll, List.removeAll, List.filter_filter]
  apply List.filter_congr
  intro item _
  simp [Bool.and_comm]

variable [DecidableEq Item] {full : Load → Prop} [DecidablePred full]
  {spend : Load → Item → Load}

theorem sweeps_within {count : Nat} {used : Item → Bool} {order : List Item} {load : Load}
    (within : ¬full load) : sweeps full spend count used order load = idle used order load := by
  cases count with
  | zero => rfl
  | succ count => rw [sweeps, if_neg within]

theorem sweeps_one_victims {used : Item → Bool} {order : List Item} {load : Load}
    (exceeds : full load) :
    (sweeps full spend 1 used order load).victims = (sweep full spend used order load).victims := by
  rw [sweeps, if_pos exceeds]
  exact List.append_nil _

variable (full spend) in
theorem sweeps_load (count : Nat) (used : Item → Bool) (order : List Item) (load : Load) :
    (sweeps full spend count used order load).load =
      (sweeps full spend count used order load).victims.foldl spend load := by
  induction count generalizing used order load with
  | zero => rfl
  | succ count ih =>
      rw [sweeps]
      split
      case isFalse => rfl
      case isTrue =>
        rw [Outcome.give_up_first_load, Outcome.give_up_first_victims, ih, List.foldl_append,
          ← sweep_load]

variable (full spend) in
theorem sweeps_perm (count : Nat) (used : Item → Bool) (order : List Item) (load : Load) :
    ((sweeps full spend count used order load).kept ++
      (sweeps full spend count used order load).victims).Perm order := by
  induction count generalizing used order load with
  | zero => rw [sweeps, idle, List.append_nil]
  | succ count ih =>
      rw [sweeps]
      split
      case isFalse => rw [idle, List.append_nil]
      case isTrue =>
        have first := sweep_perm full spend used order load
        generalize sweep full spend used order load = result at first
        have later := ih result.used result.kept result.load
        exact (List.perm_append_comm_assoc _ _ _).trans
          ((later.append_left result.victims).trans (List.perm_append_comm.trans first))

variable (full spend) in
theorem sweeps_kept (count : Nat) {used : Item → Bool} {order : List Item}
    (distinct : order.Nodup) (load : Load) :
    (sweeps full spend count used order load).kept =
      order.removeAll (sweeps full spend count used order load).victims := by
  induction count generalizing used order load with
  | zero => rw [sweeps, idle, List.removeAll_nil]
  | succ count ih =>
      rw [sweeps]
      split
      case isFalse => rw [idle, List.removeAll_nil]
      case isTrue =>
        have first := sweep_kept full spend used distinct load
        generalize sweep full spend used order load = result at first
        have fewer : result.kept.Nodup := by
          rw [first]
          exact distinct.filter _
        apply (ih fewer result.load).trans
        rw [Outcome.give_up_first_victims, remove_all_append, ← first]

variable (full spend) in
/-- Two sweeps give up unused items, then used ones, both in queue order, until the
load is within its limit. -/
theorem sweeps_two_victims (used : Item → Bool) {order : List Item} (distinct : order.Nodup)
    (load : Load) :
    (sweeps full spend 2 used order load).victims =
      giveUp full spend
        ((order.filter fun item => used item == false) ++
          order.filter fun item => used item == true) load := by
  by_cases now : full load
  · have first := sweep_victims full spend used distinct load
    have left := sweep_load full spend used order load
    rw [give_up_append, ← first, ← left, sweeps, if_pos now, Outcome.give_up_first_victims,
      List.append_cancel_left_eq]
    by_cases still : full (sweep full spend used order load).load
    · -- the first sweep went to the end, so every bit is clear in the second
      have fewer : (sweep full spend used order load).kept.Nodup := by
        rw [sweep_kept full spend used distinct]
        exact distinct.filter _
      have clear : ∀ item ∈ (sweep full spend used order load).kept,
          ((sweep full spend used order load).used item == false) = true := by
        intro item member
        have cleared := sweep_over still item (sweep_kept_subset member)
        simp [cleared]
      rw [sweeps_one_victims still, sweep_victims full spend _ fewer, List.filter_eq_self.mpr clear,
        sweep_over_kept distinct still]
    · rw [sweeps_within still, give_up_within still]
      rfl
  · rw [sweeps_within now, give_up_within now]
    rfl

/-- Two sweeps bring the load within its limit or give up every item. -/
theorem sweeps_two_room {used : Item → Bool} {order : List Item} (distinct : order.Nodup)
    {load : Load} (exceeds : full (sweeps full spend 2 used order load).load) :
    (sweeps full spend 2 used order load).kept = [] := by
  rw [sweeps_load, sweeps_two_victims full spend used distinct] at exceeds
  rw [sweeps_kept full spend 2 distinct, sweeps_two_victims full spend used distinct,
    give_up_exhausted exceeds, List.removeAll, List.filter_eq_nil_iff]
  intro item member
  cases bit : used item <;> simp [member, bit]

theorem sweeps_two_least {used : Item → Bool} {order : List Item} (distinct : order.Nodup)
    {load : Load} {earlier later : List Item} {last : Item}
    (split : (sweeps full spend 2 used order load).victims = earlier ++ last :: later) :
    full (earlier.foldl spend load) := by
  rw [sweeps_two_victims full spend used distinct] at split
  exact give_up_least split

theorem sweeps_two_unused_first {used : Item → Bool} {order : List Item}
    (distinct : order.Nodup) {load : Load} {item : Item}
    (given : item ∈ (sweeps full spend 2 used order load).victims) (bit : used item = true)
    {other : Item} (member : other ∈ order) (clear : used other = false) :
    other ∈ (sweeps full spend 2 used order load).victims := by
  rw [sweeps_two_victims full spend used distinct] at given ⊢
  have spent := give_up_starts full spend
    ((order.filter fun item => used item == false) ++ order.filter fun item => used item == true)
    load
  have unused : other ∈ order.filter fun item => used item == false := by
    simp [member, clear]
  rcases List.prefix_or_prefix_of_prefix spent (List.prefix_append _ _) with short | long
  · have early := short.subset given
    simp [bit] at early
  · exact long.subset unused

theorem sweeps_two_in_order (used : Item → Bool) {order : List Item} (distinct : order.Nodup)
    (load : Load) (bit : Bool) :
    (sweeps full spend 2 used order load).victims.filter (used · == bit) <+:
      order.filter (used · == bit) := by
  rw [sweeps_two_victims full spend used distinct]
  have spent := (give_up_starts full spend
    ((order.filter fun item => used item == false) ++ order.filter fun item => used item == true)
    load).filter (used · == bit)
  rw [List.filter_append, List.filter_filter, List.filter_filter] at spent
  cases bit with
  | false => simpa [Bool.and_self] using spent
  | true => simpa using spent

end Sweeps

end AmpFormal.SecondChance
