import AmpFormal.BottomUpInsertion
import AmpFormal.KernelScopes
import AmpFormal.SuggestFixModel
import Mathlib.Data.List.TakeWhile

/-!
# The barrier fix is complete

Barriers are inserted before the flagged lines, numbered in the text as it was. The
result is the text with one barrier directly before each of them. A barrier is neither
a kernel start nor a declaration, so the scopes and their arrays stay what they were,
and a read that was flagged now has a barrier between the write and itself.
-/

namespace AmpFormal.BarrierFix

open AmpFormal.DiagnoseModel AmpFormal.TextPatterns AmpFormal.PastConditions AmpFormal.BarrierScan
open AmpFormal.KernelScopes AmpFormal.BottomUpInsertion AmpFormal.SuggestFixModel

set_option autoImplicit false

variable {unicode : Char → Bool}

/-! ## The inserted line -/

theorem indent_spaces {line : Text} {c : Char} (member : c ∈ line.takeWhile isSpace) :
    isSpace c = true :=
  List.mem_takeWhile_imp member

theorem strip_without_slash {line : Text} (clean : '/' ∉ line) : stripLineComment line = line := by
  induction line with
  | nil => rfl
  | cons c rest ih =>
      have first : c ≠ '/' := fun same => clean (same ▸ List.mem_cons_self)
      have later := ih fun member => clean (List.mem_cons_of_mem _ member)
      rw [stripLineComment, later]
      intro tail same
      exact absurd same first

theorem strip_barrier (line : Text) : stripLineComment (barrierLine line) = barrierLine line := by
  refine strip_without_slash fun member => ?_
  obtain indent | call := List.mem_append.mp member
  · cases indent_spaces indent
  · exact absurd call (by decide)

theorem barrier_sync (line : Text) : hasSync (barrierLine line) = true := by
  rw [hasSync, barrierLine]
  refine search_of_match ?_
  decide

/-- No pattern that begins with an underscore matches within the indentation. -/
theorem indent_begins {Value : Type} {pattern : Text → Option Value} {line : Text}
    (underscore : ∀ c, c ≠ '_' → ∀ rest, pattern (c :: rest) = none) :
    ∀ c ∈ line.takeWhile isSpace, ∀ rest, pattern (c :: rest) = none := by
  intro c member rest
  refine underscore c (fun same => ?_) rest
  rw [same] at member
  cases indent_spaces member

theorem barrier_starts_no_kernel (line : Text) : startsKernel (barrierLine line) = false := by
  have none : search (fun _ => literal "__global__".toList) none (barrierLine line) = none := by
    refine search_append_none (indent_begins fun c other rest => ?_) fun previous => rfl
    exact literal_cons_ne (Ne.symm other) _ _
  rw [startsKernel, none]
  rfl

theorem barrier_declares_nothing (line n : Text) : ¬Declares unicode (barrierLine line) n := by
  have none : search (fun _ => sharedDeclAt unicode) none (barrierLine line) = none := by
    refine search_append_none (indent_begins fun c other rest => ?_) fun previous => rfl
    have mismatch : literal "__shared__".toList (c :: rest) = none :=
      literal_cons_ne (Ne.symm other) _ _
    rw [sharedDeclAt, mismatch]
    rfl
  rintro ⟨dims, decl⟩
  rw [none] at decl
  cases decl

/-! ## Lines and text -/

def Unbroken (line : Text) : Prop :=
  ∀ c ∈ line, isLineBreak c = false

instance (line : Text) : Decidable (Unbroken line) :=
  List.decidableBAll (fun c => isLineBreak c = false) line

theorem split_lines_cons {c : Char} {rest : Text} (current : Text)
    (single : ∀ tail, c = '\r' → rest = '\n' :: tail → False) :
    splitLinesFrom current (c :: rest) =
      if isLineBreak c then current :: splitLinesFrom [] rest
      else splitLinesFrom (current ++ [c]) rest := by
  rw [splitLinesFrom]
  exact single

theorem split_lines_unbroken {current text : Text} (begun : Unbroken current) :
    ∀ line ∈ splitLinesFrom current text, Unbroken line := by
  induction current, text using splitLinesFrom.induct with
  | case1 current empty => simp [splitLinesFrom, empty]
  | case2 current nonempty =>
      intro line member
      rw [splitLinesFrom, if_neg nonempty] at member
      rw [List.mem_singleton.mp member]
      exact begun
  | case3 current rest ih =>
      intro line member
      rw [splitLinesFrom] at member
      obtain rfl | later := List.mem_cons.mp member
      · exact begun
      · exact ih (fun c member => by cases member) line later
  | case4 current c rest ends breaks ih =>
      intro line member
      rw [split_lines_cons _ ends, if_pos breaks] at member
      obtain rfl | later := List.mem_cons.mp member
      · exact begun
      · exact ih (fun c member => by cases member) line later
  | case5 current c rest ends continues ih =>
      intro line member
      rw [split_lines_cons _ ends, if_neg continues] at member
      refine ih (fun d inside => ?_) line member
      obtain before | last := List.mem_append.mp inside
      · exact begun d before
      · rw [List.mem_singleton.mp last]
        exact eq_false_of_ne_true continues

theorem split_lines_line {line : Text} (unbroken : Unbroken line) (current rest : Text) :
    splitLinesFrom current (line ++ '\n' :: rest) = (current ++ line) :: splitLinesFrom [] rest := by
  induction line generalizing current with
  | nil =>
      have feed : ∀ tail : Text, '\n' = '\r' → rest = '\n' :: tail → False :=
        fun tail same => absurd same (by decide)
      have breaks : isLineBreak '\n' = true := rfl
      rw [List.nil_append, split_lines_cons _ feed, if_pos breaks, List.append_nil]
  | cons c line ih =>
      have continues : isLineBreak c = false := unbroken c List.mem_cons_self
      have single : ∀ tail : Text, c = '\r' → line ++ '\n' :: rest = '\n' :: tail → False := by
        rintro tail rfl
        cases continues
      have later : Unbroken line := fun d member => unbroken d (List.mem_cons_of_mem _ member)
      rw [List.cons_append, split_lines_cons _ single, continues, if_neg Bool.false_ne_true,
        ih later, List.append_assoc]
      rfl

theorem join_lines_cons (line : Text) {rest : List Text} (more : rest ≠ []) :
    joinLines (line :: rest) = line ++ '\n' :: joinLines rest := by
  obtain ⟨next, rest, rfl⟩ := List.exists_cons_of_ne_nil more
  simp [joinLines, List.intercalate]

theorem split_join_lines {lines : List Text} (unbroken : ∀ line ∈ lines, Unbroken line)
    (nonempty : lines ≠ []) : splitLines (joinLines lines) = lines := by
  induction lines with
  | nil => exact absurd rfl nonempty
  | cons line rest ih =>
      have first : Unbroken line := unbroken line List.mem_cons_self
      by_cases last : rest = []
      · have written : joinLines [line] = line ++ '\n' :: [] := by simp [joinLines, List.intercalate]
        rw [last, written, splitLines, split_lines_line first]
        rfl
      · have later := ih (fun line member => unbroken line (List.mem_cons_of_mem _ member)) last
        rw [join_lines_cons line last, splitLines, split_lines_line first]
        exact congrArg (List.cons _) later

theorem barrier_unbroken {line : Text} (unbroken : Unbroken line) : Unbroken (barrierLine line) := by
  intro c member
  obtain indent | call := List.mem_append.mp member
  · exact unbroken c (List.takeWhile_subset _ indent)
  · have unbrokenCall : Unbroken "__syncthreads();".toList := by decide
    exact unbrokenCall c call

/-! ## The text after the insertion -/

def withBarriers (marked : ℕ → Bool) (source : List Text) : List Text :=
  (tagged barrierLine marked source).map Prod.snd

section Inserted

variable {marked : ℕ → Bool} {source : List Text}

theorem line_at_strip (lines : List Text) (p : ℕ) :
    lineAt (lines.map stripLineComment) p = (lines[p]?.map stripLineComment).getD [] := by
  rw [lineAt, List.getD_eq_getElem?_getD, List.getElem?_map]

theorem line_at_place {i : ℕ} (inside : i < source.length) :
    lineAt ((withBarriers marked source).map stripLineComment) (place marked i) =
      lineAt (source.map stripLineComment) i := by
  have here := List.getElem?_eq_getElem inside
  rw [line_at_strip, line_at_strip, withBarriers, getElem_place here, here]

theorem line_before_place {i p : ℕ} (inside : i < source.length) (mark : marked i = true)
    (before : p + 1 = place marked i) :
    lineAt ((withBarriers marked source).map stripLineComment) p = barrierLine source[i] := by
  have here := List.getElem?_eq_getElem inside
  rw [line_at_strip, withBarriers, getElem_before_place here mark before]
  exact strip_barrier _

theorem placed_of {Q : Text → Prop} (notEmpty : ¬Q []) (notBarrier : ∀ line, ¬Q (barrierLine line))
    {p : ℕ} (holds : Q (lineAt ((withBarriers marked source).map stripLineComment) p)) :
    ∃ i < source.length, p = place marked i ∧ Q (lineAt (source.map stripLineComment) i) := by
  obtain inside | outside := Nat.lt_or_ge p (tagged barrierLine marked source).length
  · obtain ⟨i, below, rfl⟩ | ⟨i, below, mark, next⟩ := place_cases inside
    · rw [line_at_place below] at holds
      exact ⟨i, below, rfl, holds⟩
    · rw [line_before_place below mark next] at holds
      exact absurd holds (notBarrier _)
  · have past : (withBarriers marked source)[p]? = none := by
      rw [List.getElem?_eq_none_iff, withBarriers, List.length_map]
      exact outside
    rw [line_at_strip, past] at holds
    exact absurd holds notEmpty

theorem starts_placed {p : ℕ}
    (starts : StartsAt ((withBarriers marked source).map stripLineComment) p) :
    ∃ i < source.length, p = place marked i ∧ StartsAt (source.map stripLineComment) i := by
  refine placed_of (Q := fun line => startsKernel line = true) (by decide) (fun line => ?_) starts
  rw [barrier_starts_no_kernel]
  decide

theorem starts_at_place {i : ℕ} (inside : i < source.length) :
    StartsAt ((withBarriers marked source).map stripLineComment) (place marked i) ↔
      StartsAt (source.map stripLineComment) i := by
  rw [StartsAt, StartsAt, line_at_place inside]

theorem declares_placed {p : ℕ} {n : Text}
    (declares : Declares unicode
      (lineAt ((withBarriers marked source).map stripLineComment) p) n) :
    ∃ i < source.length, p = place marked i ∧
      Declares unicode (lineAt (source.map stripLineComment) i) n := by
  refine placed_of (Q := fun line => Declares unicode line n) ?_
    (fun line => barrier_declares_nothing line n) declares
  rintro ⟨dims, decl⟩
  cases decl

theorem barrier_event (line n : Text) : lineEvent unicode (barrierLine line) n = .sync := by
  rw [lineEvent, if_pos (barrier_sync line)]

theorem access_placed {p : ℕ} {n : Text} {event : LineEvent} (notSync : event ≠ .sync)
    (something : event ≠ .nothing)
    (happens : eventAt unicode ((withBarriers marked source).map stripLineComment) n p = event) :
    ∃ i < source.length, p = place marked i ∧
      eventAt unicode (source.map stripLineComment) n i = event := by
  refine placed_of (Q := fun line => lineEvent unicode line n = event) ?_ (fun line => ?_) happens
  · rw [line_event_nil]
    exact Ne.symm something
  · rw [barrier_event]
    exact Ne.symm notSync

theorem place_inside {i : ℕ} (inside : i < source.length) :
    place marked i < ((withBarriers marked source).map stripLineComment).length := by
  have here := List.getElem?_eq_getElem inside
  have found := @getElem_place _ barrierLine marked _ _ _ here
  rw [List.length_map]
  exact (List.getElem?_eq_some_iff.mp found).1

theorem starts_in_source {k : ℕ} (starts : StartsAt (source.map stripLineComment) k) :
    k < source.length := by
  have inside := starts_inside starts
  rwa [List.length_map] at inside

theorem bound_placed {hi' : ℕ}
    (bound : StartsAt ((withBarriers marked source).map stripLineComment) hi' ∨
      hi' = ((withBarriers marked source).map stripLineComment).length) :
    ∃ hi, (StartsAt (source.map stripLineComment) hi ∨
        hi = (source.map stripLineComment).length) ∧
      ∀ i < source.length, place marked i < hi' ↔ i < hi := by
  obtain starts | rfl := bound
  · obtain ⟨hi, -, rfl, startsOld⟩ := starts_placed starts
    exact ⟨hi, .inl startsOld, fun i _ => place_strict_mono.lt_iff_lt⟩
  · refine ⟨_, .inr rfl, fun i below => iff_of_true (place_inside below) ?_⟩
    rwa [List.length_map]

theorem scope_placed {lo' hi' : ℕ}
    (scope : (lo', hi') ∈ scopes ((withBarriers marked source).map stripLineComment)) :
    ∃ lo hi, (lo, hi) ∈ scopes (source.map stripLineComment) ∧
      ∀ i < source.length, lo' ≤ place marked i ∧ place marked i < hi' ↔ lo ≤ i ∧ i < hi := by
  have ordered : StrictMono (place marked) := place_strict_mono
  obtain kernel | ⟨none, rfl, rfl⟩ := mem_scopes.mp scope
  · obtain ⟨starts, before, bound, least⟩ := mem_kernel_scopes.mp kernel
    obtain ⟨lo, below, rfl, startsLo⟩ := starts_placed starts
    obtain ⟨hi, boundHi, ends⟩ := bound_placed bound
    have leastHi : ∀ k, StartsAt (source.map stripLineComment) k → lo < k → hi ≤ k := by
      intro k startsK later
      have inside := starts_in_source startsK
      have sooner := least _ ((starts_at_place inside).mpr startsK) (ordered later)
      by_contra earlier
      exact absurd ((ends k inside).mpr (Nat.lt_of_not_le earlier)) (Nat.not_lt.mpr sooner)
    refine ⟨lo, hi, mem_scopes.mpr (.inl ?_), fun i inside => ?_⟩
    · exact mem_kernel_scopes.mpr ⟨startsLo, (ends lo below).mp before, boundHi, leastHi⟩
    · rw [ordered.le_iff_le, ends i inside]
  · -- a text without kernels is one scope
    have noneOld : ∀ k, ¬StartsAt (source.map stripLineComment) k :=
      fun k startsK => none _ ((starts_at_place (starts_in_source startsK)).mpr startsK)
    refine ⟨0, _, mem_scopes.mpr (.inr ⟨noneOld, rfl, rfl⟩), fun i below => ?_⟩
    refine iff_of_true ⟨Nat.zero_le _, place_inside below⟩ ⟨Nat.zero_le _, ?_⟩
    rwa [List.length_map]

/-- When every line that needs a barrier is marked, no line of the new text needs one. -/
theorem inserted_guards
    (covers : ∀ lo hi i, (lo, hi) ∈ scopes (source.map stripLineComment) →
      ReadsUnguarded unicode (source.map stripLineComment) lo hi i → marked i = true)
    {lo' hi' i' : ℕ}
    (scope : (lo', hi') ∈ scopes ((withBarriers marked source).map stripLineComment)) :
    ¬ReadsUnguarded unicode ((withBarriers marked source).map stripLineComment) lo' hi' i' := by
  rintro ⟨after, before, n, declared, reads, j', afterJ, beforeJ, writes, kept⟩
  have ordered : StrictMono (place marked) := place_strict_mono
  obtain ⟨lo, hi, inSource, within⟩ := scope_placed scope
  obtain ⟨k', afterK, beforeK, declares⟩ := mem_shared_names.mp declared
  obtain ⟨k, belowK, rfl, declaresK⟩ := declares_placed declares
  obtain ⟨i, belowI, rfl, readsI⟩ := access_placed (by decide) (by decide) reads
  obtain ⟨j, belowJ, rfl, writesJ⟩ := access_placed (by decide) (by decide) writes
  obtain ⟨loK, hiK⟩ := (within k belowK).mp ⟨afterK, beforeK⟩
  obtain ⟨loI, hiI⟩ := (within i belowI).mp ⟨after, before⟩
  obtain ⟨loJ, hiJ⟩ := (within j belowJ).mp ⟨afterJ, Nat.lt_trans beforeJ before⟩
  -- the read was flagged in the source
  have unguarded : ReadsUnguarded unicode (source.map stripLineComment) lo hi i := by
    refine ⟨loI, hiI, n, mem_shared_names.mpr ⟨k, loK, hiK, declaresK⟩, readsI, j, loJ,
      ordered.lt_iff_lt.mp beforeJ, writesJ, fun m later sooner => ?_⟩
    have untouched := kept (place marked m) (ordered later) (ordered sooner)
    have same : eventAt unicode ((withBarriers marked source).map stripLineComment) n
        (place marked m) = eventAt unicode (source.map stripLineComment) n m := by
      rw [eventAt, line_at_place (Nat.lt_trans sooner belowI)]
      rfl
    simpa only [same] using untouched
  have mark := covers lo hi i inSource unguarded
  -- so a barrier stands between the write and it
  obtain ⟨p, next⟩ : ∃ p, p + 1 = place marked i := exists_before_place mark
  have guard : eventAt unicode ((withBarriers marked source).map stripLineComment) n p = .sync := by
    rw [eventAt, line_before_place belowI mark next, barrier_event]
  have other : place marked j ≠ p := by
    rintro rfl
    rw [guard] at writes
    cases writes
  exact (kept p (by omega) (by omega)).1 guard

end Inserted

/-! ## Flagged lines -/

theorem mem_group_missing {findings : List Finding} {lineNo : ℕ} :
    lineNo ∈ groupMissingSyncFixes findings ↔
      ∃ finding ∈ findings, finding.patternId = .missingSyncthreads ∧ finding.line = lineNo := by
  rw [groupMissingSyncFixes, List.mem_insertionSort, List.mem_dedup, List.mem_map]
  constructor
  · rintro ⟨finding, member, line⟩
    obtain ⟨found, missing⟩ := List.mem_filter.mp member
    exact ⟨finding, found, of_decide_eq_true missing, line⟩
  · rintro ⟨finding, found, missing, line⟩
    exact ⟨finding, List.mem_filter.mpr ⟨found, decide_eq_true missing⟩, line⟩

theorem group_missing_nodup (findings : List Finding) : (groupMissingSyncFixes findings).Nodup :=
  (List.perm_insertionSort _ _).nodup_iff.mpr (List.nodup_dedup _)

theorem insert_loop (order : List ℕ) (lines applied : List Text) :
    order.foldlM
        (fun (newLines, applied) lineNo =>
          (applyMissingSyncFix newLines lineNo).map fun newLines =>
            (newLines, applied ++ [insertedMessage lineNo]))
        (lines, applied) =
      ((order.map fun lineNo => lineNo - 1).foldlM (insertBefore barrierLine) lines).map
        fun newLines => (newLines, applied ++ order.map insertedMessage) := by
  induction order generalizing lines applied with
  | nil => simp
  | cons lineNo rest ih =>
      have step : applyMissingSyncFix lines lineNo = insertBefore barrierLine lines (lineNo - 1) :=
        rfl
      simp only [List.map_cons, List.foldlM_cons, step]
      cases insertBefore barrierLine lines (lineNo - 1) with
      | none => rfl
      | some newLines =>
          have later := ih newLines (applied ++ [insertedMessage lineNo])
          rw [List.append_assoc] at later
          exact later

theorem sort_descending {numbers : List ℕ} (distinct : numbers.Nodup) :
    (numbers.insertionSort fun a b => a ≥ b).Pairwise fun a b => b < a := by
  have sorted : (numbers.insertionSort fun a b => a ≥ b).Pairwise fun a b => a ≥ b :=
    List.pairwise_insertionSort _ _
  have nodup := (List.perm_insertionSort (fun a b => a ≥ b) numbers).nodup_iff.mpr distinct
  exact sorted.imp₂ (fun a b large other => Nat.lt_of_le_of_ne large (Ne.symm other)) nodup

/-- The loop over flagged lines of the text inserts a barrier before each of them. -/
theorem insert_barriers_eq {findings : List Finding} {lines : List Text}
    (numbers : ∀ lineNo ∈ groupMissingSyncFixes findings,
      ∃ i < lines.length, lineNo = i + 1) :
    ∃ applied, insertBarriers findings lines =
        some (withBarriers (fun i => decide (i + 1 ∈ groupMissingSyncFixes findings)) lines,
          applied) ∧
      (applied = [] ↔ groupMissingSyncFixes findings = []) := by
  let order := (groupMissingSyncFixes findings).insertionSort fun a b => a ≥ b
  have member : ∀ lineNo, lineNo ∈ order ↔ lineNo ∈ groupMissingSyncFixes findings :=
    fun lineNo => List.mem_insertionSort _
  have strict : order.Pairwise fun a b => b < a := sort_descending (group_missing_nodup findings)
  have descending : (order.map fun lineNo => lineNo - 1).Pairwise fun a b => b < a := by
    rw [List.pairwise_map]
    refine strict.imp_of_mem fun {a b} _ memberB less => ?_
    obtain ⟨i, -, rfl⟩ := numbers b ((member b).mp memberB)
    omega
  have inside : ∀ i ∈ order.map fun lineNo => lineNo - 1, i < lines.length := by
    intro i found
    obtain ⟨lineNo, memberOrder, rfl⟩ := List.mem_map.mp found
    obtain ⟨i, below, rfl⟩ := numbers lineNo ((member lineNo).mp memberOrder)
    exact below
  have marks : ∀ i, decide (i ∈ order.map fun lineNo => lineNo - 1) =
      decide (i + 1 ∈ groupMissingSyncFixes findings) := by
    intro i
    refine decide_eq_decide.mpr ⟨fun found => ?_, fun found => ?_⟩
    · obtain ⟨lineNo, memberOrder, rfl⟩ := List.mem_map.mp found
      have flagged := (member lineNo).mp memberOrder
      obtain ⟨i, -, rfl⟩ := numbers lineNo flagged
      exact flagged
    · exact List.mem_map.mpr ⟨i + 1, (member _).mpr found, rfl⟩
  refine ⟨order.map insertedMessage, ?_, ?_⟩
  · rw [insertBarriers, insert_loop, insert_all descending inside]
    simp only [marks]
    rfl
  · rw [List.map_eq_nil_iff, List.eq_nil_iff_forall_not_mem, List.eq_nil_iff_forall_not_mem]
    exact forall_congr' fun lineNo => not_congr (member lineNo)

section Flagged

variable {file text : Text} {tileValues : List (Text × ℤ)} {lineNo : ℕ}

theorem mem_flagged :
    lineNo ∈ groupMissingSyncFixes (analyzeFile unicode file text tileValues) ↔
      ∃ lo hi i, (lo, hi) ∈ scopes ((splitLines text).map stripLineComment) ∧ lineNo = i + 1 ∧
        ReadsUnguarded unicode ((splitLines text).map stripLineComment) lo hi i :=
  mem_group_missing.trans flagged_iff

theorem flagged_number
    (flagged : lineNo ∈ groupMissingSyncFixes (analyzeFile unicode file text tileValues)) :
    ∃ i < (splitLines text).length, lineNo = i + 1 := by
  obtain ⟨lo, hi, i, -, rfl, -, -, n, -, reads, -⟩ := mem_flagged.mp flagged
  have inside := event_inside reads (by decide)
  rw [List.length_map] at inside
  exact ⟨i, inside, rfl⟩

end Flagged

theorem suggest_nothing {file text : Text} {tileValues : List (Text × ℤ)}
    (clear : ∀ finding ∈ analyzeFile unicode file text tileValues,
      finding.patternId ≠ .missingSyncthreads) :
    suggestBarriers unicode file text tileValues = some ([], none) := by
  have none : groupMissingSyncFixes (analyzeFile unicode file text tileValues) = [] := by
    refine List.eq_nil_iff_forall_not_mem.mpr fun lineNo member => ?_
    obtain ⟨finding, found, missing, -⟩ := mem_group_missing.mp member
    exact clear finding found missing
  rw [suggestBarriers, insertBarriers, none]
  rfl

theorem with_barriers_unbroken {marked : ℕ → Bool} {source : List Text}
    (unbroken : ∀ line ∈ source, Unbroken line) :
    ∀ line ∈ withBarriers marked source, Unbroken line := by
  intro line member
  obtain ⟨entry, inside, rfl⟩ := List.mem_map.mp member
  obtain old | ⟨origin, found, made⟩ := mem_tagged inside
  · exact unbroken _ old
  · rw [made]
    exact barrier_unbroken (unbroken origin found)

/-- What the fix writes is read again as the lines it made. -/
theorem split_with_barriers (marked : ℕ → Bool) {text : Text} (nonempty : splitLines text ≠ []) :
    splitLines (joinLines (withBarriers marked (splitLines text))) =
      withBarriers marked (splitLines text) := by
  have unbroken : ∀ line ∈ splitLines text, Unbroken line :=
    split_lines_unbroken fun c member => by cases member
  have written : withBarriers marked (splitLines text) ≠ [] := by
    intro none
    have noEntries := List.map_eq_nil_iff.mp none
    rw [← @kept_tagged _ barrierLine marked (splitLines text), noEntries] at nonempty
    exact nonempty rfl
  exact split_join_lines (with_barriers_unbroken unbroken) written

/-- Deleting the barriers that the fix inserts gives the file back; one stands directly
before each flagged line and nowhere else; and nothing of the new file is flagged. -/
theorem barrier_fix_complete (unicode : Char → Bool) (file text : Text)
    (tileValues tileValues' : List (Text × ℤ)) :
    ∃ applied newText entries,
      suggestBarriers unicode file text tileValues = some (applied, newText) ∧
      entries.map Prod.snd = splitLines (newText.getD text) ∧
      kept entries = splitLines text ∧
      (∀ before line after, entries = before ++ (true, line) :: after →
        ∃ flagged rest, after = (false, flagged) :: rest ∧ line = barrierLine flagged ∧
          (kept before).length + 1 ∈
            groupMissingSyncFixes (analyzeFile unicode file text tileValues)) ∧
      (∀ lineNo ∈ groupMissingSyncFixes (analyzeFile unicode file text tileValues),
        ∃ before flagged after,
          entries = before ++ (true, barrierLine flagged) :: (false, flagged) :: after ∧
          (kept before).length + 1 = lineNo) ∧
      (∀ finding ∈ analyzeFile unicode file (newText.getD text) tileValues',
        finding.patternId ≠ .missingSyncthreads) ∧
      suggestBarriers unicode file (newText.getD text) tileValues' = some ([], none) := by
  let source := splitLines text
  let flagged := groupMissingSyncFixes (analyzeFile unicode file text tileValues)
  let marked : ℕ → Bool := fun i => decide (i + 1 ∈ flagged)
  have numbers : ∀ lineNo ∈ flagged, ∃ i < source.length, lineNo = i + 1 :=
    fun lineNo member => flagged_number member
  have covers : ∀ lo hi i, (lo, hi) ∈ scopes (source.map stripLineComment) →
      ReadsUnguarded unicode (source.map stripLineComment) lo hi i → marked i = true :=
    fun lo hi i scope needs => decide_eq_true (mem_flagged.mpr ⟨lo, hi, i, scope, rfl, needs⟩)
  obtain ⟨applied, inserted, nothing⟩ := insert_barriers_eq numbers
  let newText := if applied.isEmpty then none else some (joinLines (withBarriers marked source))
  have suggested : suggestBarriers unicode file text tileValues = some (applied, newText) := by
    rw [suggestBarriers, inserted]
    rfl
  have reread : splitLines (newText.getD text) = withBarriers marked source := by
    by_cases empty : applied = []
    · have unmarked : ∀ i < source.length, marked i = false := by
        intro i _
        refine decide_eq_false fun member => ?_
        have none : flagged = [] := nothing.mp empty
        rw [none] at member
        cases member
      have unchanged : newText.getD text = text := by simp only [newText, empty]; rfl
      rw [unchanged, withBarriers, tagged_unmarked unmarked]
    · have written : newText.getD text = joinLines (withBarriers marked source) := by
        simp only [newText, List.isEmpty_iff, if_neg empty, Option.getD_some]
      have nonempty : source ≠ [] := by
        intro noLines
        refine empty (nothing.mpr (List.eq_nil_iff_forall_not_mem.mpr fun lineNo member => ?_))
        obtain ⟨i, below, -⟩ := numbers lineNo member
        rw [noLines] at below
        cases below
      rw [written, split_with_barriers marked nonempty]
  have clear : ∀ finding ∈ analyzeFile unicode file (newText.getD text) tileValues',
      finding.patternId ≠ .missingSyncthreads := by
    intro finding found missing
    rw [analyzeFile, reread] at found
    obtain ⟨lo, hi, i, scope, -, needs⟩ := flagged_iff.mp ⟨finding, found, missing, rfl⟩
    exact inserted_guards covers scope needs
  refine ⟨applied, newText, tagged barrierLine marked source, suggested, reread.symm, kept_tagged,
    ?_, ?_, clear, suggest_nothing clear⟩
  · intro before line after split
    obtain ⟨origin, rest, follows, made, mark, -⟩ := tagged_inserted split
    exact ⟨origin, rest, follows, made, of_decide_eq_true mark⟩
  · intro lineNo member
    obtain ⟨i, below, rfl⟩ := numbers lineNo member
    have here := List.getElem?_eq_getElem below
    obtain ⟨before, after, split, position⟩ :=
      @tagged_marked _ barrierLine marked _ _ _ here (decide_eq_true member)
    exact ⟨before, _, after, split, by rw [position]⟩

end AmpFormal.BarrierFix
