import Mathlib.Data.List.Basic
import Mathlib.Data.Nat.Count
import Mathlib.Order.Monotone.Basic

/-!
# Inserting from the bottom up

Before each marked item of a list a new one is inserted, made from the item it stands
before. Insertions from the last mark to the first leave the positions of the marks
still to come as they are, so that they amount to one pass over the list. In the
result every entry is either an item of the list or stands directly before one.
-/

namespace AmpFormal.BottomUpInsertion

set_option autoImplicit false

variable {Item : Type*} (fresh : Item → Item)

/-- The items with the inserted ones, which are tagged `true`. -/
def tagged (marked : ℕ → Bool) : List Item → List (Bool × Item)
  | [] => []
  | item :: rest =>
      if marked 0 then (true, fresh item) :: (false, item) :: tagged (fun i => marked (i + 1)) rest
      else (false, item) :: tagged (fun i => marked (i + 1)) rest

/-- The items without the inserted ones. -/
def kept (entries : List (Bool × Item)) : List Item :=
  (entries.filter fun entry => !entry.1).map Prod.snd

def place (marked : ℕ → Bool) (i : ℕ) : ℕ :=
  i + Nat.count (fun k => marked k) (i + 1)

def insertBefore (items : List Item) (i : ℕ) : Option (List Item) :=
  items[i]?.map fun item => items.insertIdx i (fresh item)

variable {fresh} {marked marked' : ℕ → Bool} {items : List Item}

/-! ## One pass -/

theorem tagged_append (left right : List Item) :
    tagged fresh marked (left ++ right) =
      tagged fresh marked left ++ tagged fresh (fun i => marked (left.length + i)) right := by
  induction left generalizing marked with
  | nil => simp [tagged]
  | cons item rest ih =>
      have shift : (fun i => marked (rest.length + i + 1)) =
          fun i => marked ((item :: rest).length + i) := by
        funext i
        rw [List.length_cons, Nat.add_right_comm]
      rw [List.cons_append, tagged, tagged, ih, shift]
      split <;> rfl

theorem tagged_congr (same : ∀ i < items.length, marked i = marked' i) :
    tagged fresh marked items = tagged fresh marked' items := by
  induction items generalizing marked marked' with
  | nil => rfl
  | cons item rest ih =>
      have later : ∀ i < rest.length, marked (i + 1) = marked' (i + 1) :=
        fun i below => same (i + 1) (Nat.succ_lt_succ below)
      rw [tagged, tagged, same 0 (Nat.succ_pos _), ih later]

theorem tagged_unmarked (none : ∀ i < items.length, marked i = false) :
    (tagged fresh marked items).map Prod.snd = items := by
  induction items generalizing marked with
  | nil => rfl
  | cons item rest ih =>
      have later : ∀ i < rest.length, marked (i + 1) = false :=
        fun i below => none (i + 1) (Nat.succ_lt_succ below)
      rw [tagged, none 0 (Nat.succ_pos _), if_neg Bool.false_ne_true, List.map_cons, ih later]

theorem mem_tagged {entry : Bool × Item} (member : entry ∈ tagged fresh marked items) :
    entry.2 ∈ items ∨ ∃ item ∈ items, entry.2 = fresh item := by
  induction items generalizing marked with
  | nil => cases member
  | cons item rest ih =>
      have later : entry ∈ tagged fresh (fun i => marked (i + 1)) rest →
          entry.2 ∈ item :: rest ∨ ∃ found ∈ item :: rest, entry.2 = fresh found := by
        intro member
        obtain old | ⟨found, inside, made⟩ := ih member
        · exact .inl (List.mem_cons_of_mem _ old)
        · exact .inr ⟨found, List.mem_cons_of_mem _ inside, made⟩
      rw [tagged] at member
      split at member
      · obtain rfl | member := List.mem_cons.mp member
        · exact .inr ⟨item, List.mem_cons_self, rfl⟩
        obtain rfl | member := List.mem_cons.mp member
        · exact .inl List.mem_cons_self
        · exact later member
      · obtain rfl | member := List.mem_cons.mp member
        · exact .inl List.mem_cons_self
        · exact later member

theorem kept_tagged : kept (tagged fresh marked items) = items := by
  induction items generalizing marked with
  | nil => rfl
  | cons item rest ih =>
      have later := @ih fun i => marked (i + 1)
      unfold kept at later
      rw [tagged, kept]
      split <;> simp [later]

/-- An inserted item stands directly before the marked item it was made from. -/
theorem tagged_inserted {before after : List (Bool × Item)} {item : Item}
    (split : tagged fresh marked items = before ++ (true, item) :: after) :
    ∃ origin rest, after = (false, origin) :: rest ∧ item = fresh origin ∧
      marked (kept before).length = true ∧ items[(kept before).length]? = some origin := by
  induction items generalizing marked before with
  | nil => simp [tagged] at split
  | cons origin rest ih =>
      have later : ∀ before, tagged fresh (fun i => marked (i + 1)) rest =
          before ++ (true, item) :: after → ∃ found rest', after = (false, found) :: rest' ∧
            item = fresh found ∧ marked (kept ((false, origin) :: before)).length = true ∧
            (origin :: rest)[(kept ((false, origin) :: before)).length]? = some found := by
        intro before split
        obtain ⟨found, rest', follows, made, mark, here⟩ := ih split
        exact ⟨found, rest', follows, made, mark, here⟩
      rw [tagged] at split
      by_cases mark : marked 0 = true
      · rw [if_pos mark] at split
        match before with
        | [] =>
            obtain ⟨first, follows⟩ := List.cons.inj split
            exact ⟨origin, _, follows.symm, (congrArg Prod.snd first).symm, mark, rfl⟩
        | [second] =>
            have clash := (List.cons.inj (List.cons.inj split).2).1
            cases congrArg Prod.fst clash
        | first :: second :: before =>
            obtain ⟨sameFirst, split⟩ := List.cons.inj split
            obtain ⟨sameSecond, split⟩ := List.cons.inj split
            rw [← sameFirst, ← sameSecond]
            exact later before split
      · rw [if_neg mark] at split
        match before with
        | [] => cases congrArg Prod.fst (List.cons.inj split).1
        | first :: before =>
            obtain ⟨same, split⟩ := List.cons.inj split
            rw [← same]
            exact later before split

theorem take_cons_drop {i : ℕ} {item : Item} (here : items[i]? = some item) :
    items.take i ++ item :: items.drop (i + 1) = items ∧ (items.take i).length = i := by
  obtain ⟨inside, found⟩ := List.getElem?_eq_some_iff.mp here
  rw [← found, List.cons_getElem_drop_succ, List.take_append_drop]
  exact ⟨rfl, List.length_take_of_le (Nat.le_of_lt inside)⟩

theorem tagged_cut {i : ℕ} {item : Item} (here : items[i]? = some item) :
    tagged fresh marked items = tagged fresh marked (items.take i) ++
      ((if marked i then [(true, fresh item)] else []) ++
        (false, item) :: tagged fresh (fun k => marked (i + (k + 1))) (items.drop (i + 1))) := by
  obtain ⟨cut, length⟩ := take_cons_drop here
  have whole := @tagged_append _ fresh marked (items.take i) (item :: items.drop (i + 1))
  rw [cut, tagged, length, Nat.add_zero] at whole
  rw [whole]
  split <;> rfl

theorem tagged_marked {i : ℕ} {item : Item} (here : items[i]? = some item)
    (mark : marked i = true) :
    ∃ before after, tagged fresh marked items =
        before ++ (true, fresh item) :: (false, item) :: after ∧ (kept before).length = i := by
  have whole := @tagged_cut _ fresh marked _ _ _ here
  rw [if_pos mark] at whole
  exact ⟨_, _, whole, by rw [kept_tagged, (take_cons_drop here).2]⟩

/-! ## Positions -/

theorem tagged_length :
    (tagged fresh marked items).length =
      items.length + Nat.count (fun k => marked k) items.length := by
  induction items generalizing marked with
  | nil => rfl
  | cons item rest ih =>
      have later := @ih fun i => marked (i + 1)
      rw [tagged, List.length_cons, Nat.count_succ']
      by_cases mark : marked 0 = true
      · rw [if_pos mark, if_pos mark, List.length_cons, List.length_cons, later]
        omega
      · rw [if_neg mark, if_neg mark, List.length_cons, later]
        omega

theorem place_strict_mono : StrictMono (place marked) := by
  refine strictMono_nat_of_lt_succ fun i => ?_
  have more : Nat.count (fun k => marked k) (i + 1) ≤ Nat.count (fun k => marked k) (i + 1 + 1) :=
    Nat.count_monotone _ (Nat.le_succ (i + 1))
  unfold place
  omega

theorem exists_before_place {i : ℕ} (mark : marked i = true) : ∃ p, p + 1 = place marked i := by
  have count := Nat.count_succ (fun k => marked k = true) i
  rw [if_pos mark] at count
  exact ⟨i + Nat.count (fun k => marked k) i, by rw [place, count]; omega⟩

theorem place_succ (i : ℕ) :
    place marked (i + 1) = place (fun k => marked (k + 1)) i + 1 + if marked 0 then 1 else 0 := by
  rw [place, place, Nat.count_succ']
  omega

theorem length_before {i : ℕ} {item : Item} (here : items[i]? = some item) :
    (tagged fresh marked (items.take i)).length + (if marked i then 1 else 0) = place marked i := by
  rw [tagged_length, (take_cons_drop here).2, place, Nat.count_succ]
  omega

theorem getElem_place {i : ℕ} {item : Item} (here : items[i]? = some item) :
    ((tagged fresh marked items).map Prod.snd)[place marked i]? = some item := by
  rw [← @length_before _ fresh marked _ _ _ here, tagged_cut here, List.map_append,
    List.getElem?_append_right (by rw [List.length_map]; omega), List.length_map,
    Nat.add_sub_cancel_left]
  split <;> rfl

theorem getElem_before_place {i p : ℕ} {item : Item} (here : items[i]? = some item)
    (mark : marked i = true) (before : p + 1 = place marked i) :
    ((tagged fresh marked items).map Prod.snd)[p]? = some (fresh item) := by
  have position := @length_before _ fresh marked _ _ _ here
  rw [if_pos mark, ← before] at position
  rw [← Nat.succ.inj position, tagged_cut here, if_pos mark, List.map_append,
    List.getElem?_append_right (by rw [List.length_map]), List.length_map, Nat.sub_self]
  rfl

theorem place_cases {p : ℕ} (inside : p < (tagged fresh marked items).length) :
    (∃ i < items.length, p = place marked i) ∨
      ∃ i < items.length, marked i = true ∧ p + 1 = place marked i := by
  induction items generalizing marked p with
  | nil => cases inside
  | cons item rest ih =>
      have later : ∀ q, q < (tagged fresh (fun k => marked (k + 1)) rest).length →
          p = q + 1 + (if marked 0 then 1 else 0) →
          (∃ i < (item :: rest).length, p = place marked i) ∨
            ∃ i < (item :: rest).length, marked i = true ∧ p + 1 = place marked i := by
        intro q small shifted
        obtain ⟨i, below, rfl⟩ | ⟨i, below, mark, next⟩ := ih small
        · exact .inl ⟨i + 1, Nat.succ_lt_succ below, by rw [place_succ, shifted]⟩
        · exact .inr ⟨i + 1, Nat.succ_lt_succ below, mark, by rw [place_succ, ← next]; omega⟩
      have start : place marked 0 = if marked 0 then 1 else 0 := by
        rw [place, Nat.zero_add, Nat.count_one]
      rw [tagged] at inside
      by_cases mark : marked 0 = true
      · rw [if_pos mark] at inside later start
        match p with
        | 0 => exact .inr ⟨0, Nat.succ_pos _, mark, start.symm⟩
        | 1 => exact .inl ⟨0, Nat.succ_pos _, start.symm⟩
        | q + 2 => exact later q (by simpa using inside) rfl
      · rw [if_neg mark] at inside later start
        match p with
        | 0 => exact .inl ⟨0, Nat.succ_pos _, start.symm⟩
        | q + 1 => exact later q (by simpa using inside) rfl

/-! ## From the bottom up -/

theorem insertIdx_cut (left right : List Item) (item : Item) :
    (left ++ right).insertIdx left.length item = left ++ item :: right := by
  induction left with
  | nil => rfl
  | cons first rest ih =>
      rw [List.cons_append, List.length_cons, List.insertIdx_succ_cons, ih]
      rfl

theorem insert_before_eq {i : ℕ} {item : Item} (here : items[i]? = some item) :
    insertBefore fresh items i =
      some (items.take i ++ fresh item :: item :: items.drop (i + 1)) := by
  obtain ⟨cut, length⟩ := take_cons_drop here
  have inserted := insertIdx_cut (items.take i) (item :: items.drop (i + 1)) (fresh item)
  rw [cut, length] at inserted
  rw [insertBefore, here, Option.map_some, inserted]

/-- Insertions at descending positions are one pass. -/
theorem insert_all {marks : List ℕ} (descending : marks.Pairwise fun a b => b < a)
    (inside : ∀ i ∈ marks, i < items.length) :
    marks.foldlM (insertBefore fresh) items =
      some ((tagged fresh (fun i => decide (i ∈ marks)) items).map Prod.snd) := by
  induction marks generalizing items with
  | nil => simp [tagged_unmarked]
  | cons p rest ih =>
      obtain ⟨below, descending⟩ := List.pairwise_cons.mp descending
      have small := inside p List.mem_cons_self
      have here : items[p]? = some items[p] := List.getElem?_eq_getElem small
      obtain ⟨-, length⟩ := take_cons_drop here
      have earlier : ∀ i < (items.take p).length, decide (i ∈ rest) = decide (i ∈ p :: rest) := by
        intro i before
        rw [length] at before
        simp [Nat.ne_of_lt before]
      have behind : ∀ i, decide (p + i ∈ rest) = false := by
        intro i
        refine decide_eq_false fun member => ?_
        have := below _ member
        omega
      have after : ∀ i, decide (p + (i + 1) ∈ p :: rest) = false := by
        intro i
        have := behind (i + 1)
        simpa using this
      have marked : decide (p ∈ p :: rest) = true := decide_eq_true List.mem_cons_self
      have still : ∀ i ∈ rest, i < (items.take p ++ fresh items[p] :: items[p] ::
          items.drop (p + 1)).length := by
        intro i member
        have := below i member
        rw [List.length_append, length]
        omega
      rw [List.foldlM_cons, insert_before_eq here]
      change List.foldlM (insertBefore fresh) (items.take p ++ _) rest = _
      rw [ih descending still, tagged_append, List.map_append, length, tagged_congr earlier,
        tagged_unmarked fun i _ => behind i, tagged_cut here, if_pos marked, List.map_append,
        List.map_append, List.map_cons, List.map_cons, List.map_nil, tagged_unmarked fun i _ => after i]
      rfl

end AmpFormal.BottomUpInsertion
