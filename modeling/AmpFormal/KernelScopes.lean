import AmpFormal.BarrierScan

/-!
# The scopes of a file

A scope reaches from a line that starts a kernel to the next such line or to the end of
the file. What `analyze_file` reports about missing barriers is what the scan of some
scope reports, for the arrays that the scope declares.
-/

namespace AmpFormal.KernelScopes

open AmpFormal.DiagnoseModel AmpFormal.TextPatterns AmpFormal.BarrierScan

set_option autoImplicit false

variable {unicode : Char → Bool} {lines : List Text}

/-! ## Ranges -/

theorem eq_headD_iff {stop hi : ℕ} {starts : List ℕ} (ascending : starts.Pairwise (· < ·))
    (before : ∀ s ∈ starts, s < stop) :
    hi = starts.headD stop ↔ (hi ∈ starts ∨ hi = stop) ∧ ∀ k ∈ starts, hi ≤ k := by
  cases starts with
  | nil => simp
  | cons first rest =>
      obtain ⟨above, -⟩ := List.pairwise_cons.mp ascending
      rw [List.headD_cons]
      constructor
      · rintro rfl
        refine ⟨.inl List.mem_cons_self, fun k member => ?_⟩
        obtain rfl | later := List.mem_cons.mp member
        · exact Nat.le_refl _
        · exact Nat.le_of_lt (above k later)
      · rintro ⟨member | stopped, least⟩
        · obtain same | later := List.mem_cons.mp member
          · exact same
          · exact absurd (above hi later) (Nat.not_lt.mpr (least first List.mem_cons_self))
        · have last := before first List.mem_cons_self
          have := least first List.mem_cons_self
          omega

theorem mem_scopes_from {stop lo hi : ℕ} {starts : List ℕ} (ascending : starts.Pairwise (· < ·))
    (before : ∀ s ∈ starts, s < stop) :
    (lo, hi) ∈ scopesFrom stop starts ↔
      lo ∈ starts ∧ lo < hi ∧ (hi ∈ starts ∨ hi = stop) ∧ ∀ k ∈ starts, lo < k → hi ≤ k := by
  induction starts with
  | nil => simp [scopesFrom]
  | cons s rest ih =>
      obtain ⟨above, ascending⟩ := List.pairwise_cons.mp ascending
      have small := before s List.mem_cons_self
      have beforeRest : ∀ k ∈ rest, k < stop :=
        fun k member => before k (List.mem_cons_of_mem _ member)
      rw [scopesFrom, List.mem_cons, ih ascending beforeRest, Prod.mk.injEq,
        eq_headD_iff ascending beforeRest]
      constructor
      · rintro (⟨first, bound, least⟩ | ⟨inside, ordered, bound, least⟩)
        · have ordered : s < hi := by
            obtain member | stopped := bound
            · exact above hi member
            · omega
          refine ⟨first ▸ List.mem_cons_self, first ▸ ordered,
            bound.imp_left (List.mem_cons_of_mem _), fun k member later => ?_⟩
          obtain same | member := List.mem_cons.mp member
          · omega
          · exact least k member
        · refine ⟨List.mem_cons_of_mem _ inside, ordered, bound.imp_left (List.mem_cons_of_mem _),
            fun k member later => ?_⟩
          obtain same | member := List.mem_cons.mp member
          · have := above lo inside
            omega
          · exact least k member later
      · rintro ⟨inside, ordered, bound, least⟩
        have reached : s ≤ lo := by
          obtain same | member := List.mem_cons.mp inside
          · omega
          · exact Nat.le_of_lt (above lo member)
        have bound : hi ∈ rest ∨ hi = stop := by
          obtain member | stopped := bound
          · obtain same | member := List.mem_cons.mp member
            · omega
            · exact .inl member
          · exact .inr stopped
        obtain first | inside := List.mem_cons.mp inside
        · exact .inl ⟨first, bound, fun k member =>
            least k (List.mem_cons_of_mem _ member) (first ▸ above k member)⟩
        · exact .inr ⟨inside, ordered, bound, fun k member =>
            least k (List.mem_cons_of_mem _ member)⟩

def StartsAt (lines : List Text) (k : ℕ) : Prop :=
  startsKernel (lineAt lines k) = true

theorem starts_inside {k : ℕ} (starts : StartsAt lines k) : k < lines.length := by
  by_contra outside
  have empty : lineAt lines k = [] := List.getD_eq_default _ _ (Nat.le_of_not_lt outside)
  rw [StartsAt, empty] at starts
  cases starts

theorem mem_kernel_scopes {lo hi : ℕ} :
    (lo, hi) ∈ kernelScopes lines ↔
      StartsAt lines lo ∧ lo < hi ∧ (StartsAt lines hi ∨ hi = lines.length) ∧
        ∀ k, StartsAt lines k → lo < k → hi ≤ k := by
  have ascending : ((range 0 lines.length).filter fun i =>
      startsKernel (lineAt lines i)).Pairwise (· < ·) :=
    List.Pairwise.filter _ List.pairwise_lt_range'
  have member : ∀ k, k ∈ (range 0 lines.length).filter (fun i => startsKernel (lineAt lines i)) ↔
      StartsAt lines k := by
    intro k
    rw [List.mem_filter, mem_range]
    exact ⟨fun found => found.2, fun starts => ⟨⟨Nat.zero_le k, starts_inside starts⟩, starts⟩⟩
  rw [kernelScopes, mem_scopes_from ascending fun s found => starts_inside ((member s).mp found),
    member, member]
  refine and_congr_right fun _ => and_congr_right fun _ => and_congr_right fun _ => ?_
  exact forall_congr' fun k => by rw [member]

theorem kernel_scopes_nil_iff : kernelScopes lines = [] ↔ ∀ k, ¬StartsAt lines k := by
  have empty : ∀ starts : List ℕ, scopesFrom lines.length starts = [] ↔ starts = [] := by
    intro starts
    cases starts <;> simp [scopesFrom]
  rw [kernelScopes, empty, List.filter_eq_nil_iff]
  constructor
  · intro none k starts
    exact none k (mem_range.mpr ⟨Nat.zero_le k, starts_inside starts⟩) starts
  · intro none k _
    exact none k

theorem mem_scopes {lo hi : ℕ} :
    (lo, hi) ∈ scopes lines ↔
      (lo, hi) ∈ kernelScopes lines ∨
        (∀ k, ¬StartsAt lines k) ∧ lo = 0 ∧ hi = lines.length := by
  rw [← kernel_scopes_nil_iff, scopes]
  by_cases empty : kernelScopes lines = []
  · simp [empty]
  · simp [empty]

/-! ## Names -/

def Declares (unicode : Char → Bool) (line n : Text) : Prop :=
  ∃ dims, search (fun _ => sharedDeclAt unicode) none line = some (n, dims)

def sharedNames (unicode : Char → Bool) (lines : List Text) (lo hi : ℕ) : List Text :=
  (findSharedDecls unicode lines lo hi).map SharedDecl.name

theorem mem_shared_names {lo hi : ℕ} {n : Text} :
    n ∈ sharedNames unicode lines lo hi ↔
      ∃ k, lo ≤ k ∧ k < hi ∧ Declares unicode (lineAt lines k) n := by
  rw [sharedNames, findSharedDecls, List.map_filterMap, List.mem_filterMap]
  constructor
  · rintro ⟨k, member, found⟩
    obtain ⟨after, before⟩ := mem_range.mp member
    refine ⟨k, after, before, ?_⟩
    cases decl : search (fun _ => sharedDeclAt unicode) none (lineAt lines k) with
    | none => simp [decl] at found
    | some dims =>
        obtain ⟨name, d1, d2⟩ := dims
        rw [decl] at found
        obtain rfl : name = n := Option.some.inj found
        exact ⟨(d1, d2), decl⟩
  · rintro ⟨k, after, before, ⟨d1, d2⟩, decl⟩
    refine ⟨k, mem_range.mpr ⟨after, before⟩, ?_⟩
    rw [decl]
    rfl

/-! ## Missing barriers -/

/-- A line of a scope reads an array of the scope behind an unguarded write. -/
def ReadsUnguarded (unicode : Char → Bool) (lines : List Text) (lo hi i : ℕ) : Prop :=
  lo ≤ i ∧ i < hi ∧ ∃ n ∈ sharedNames unicode lines lo hi,
    eventAt unicode lines n i = .read ∧ Unguarded (eventAt unicode lines n) lo i

theorem mem_check_index {loopBounds : Text → Option Text} {tileValues : List (Text × ℤ)}
    {index dim : Text} {report : Text → Finding} {finding : Finding} :
    finding ∈ checkIndex loopBounds tileValues index dim report ↔
      index ∉ threadIndexVars ∧ ∃ bound, loopBounds index = some bound ∧ bound ≠ dim ∧
        sameTile tileValues bound dim = false ∧ finding = report bound := by
  rw [checkIndex]
  by_cases thread : index ∈ threadIndexVars
  · simp [thread]
  cases looked : loopBounds index with
  | none => simp [thread]
  | some bound =>
      by_cases same : bound = dim
      · simp [thread, same]
      · cases tile : sameTile tileValues bound dim <;> simp [thread, same, tile]

theorem dim_mismatch_pattern {file : Text} {tileValues : List (Text × ℤ)} {hi : ℕ}
    {decl : SharedDecl} {loopBounds : Text → Option Text} {finding : Finding}
    (found : finding ∈ detectDimMismatch unicode lines hi decl loopBounds file tileValues) :
    finding.patternId = .sharedMemDimMismatch := by
  rw [detectDimMismatch] at found
  cases dims : decl.d2 with
  | none =>
      rw [dims] at found
      cases found
  | some d2 =>
      rw [dims] at found
      obtain ⟨i, -, inLine⟩ := List.mem_flatMap.mp found
      obtain ⟨⟨⟨idx1, idx2⟩, rest⟩, -, inAccess⟩ := List.mem_flatMap.mp inLine
      obtain ⟨⟨index, dim⟩, -, checked⟩ := List.mem_flatMap.mp inAccess
      obtain ⟨-, bound, -, -, -, rfl⟩ := mem_check_index.mp checked
      rfl

theorem bank_conflict_pattern {file : Text} {tileValues : List (Text × ℤ)} {hi : ℕ}
    {decl : SharedDecl} {finding : Finding}
    (found : finding ∈ detectBankConflict unicode lines hi decl file tileValues) :
    finding.patternId = .bankConflictStride := by
  unfold detectBankConflict at found
  split at found
  · cases found
  split at found
  · cases found
  split at found
  · cases found
  obtain ⟨i, -, inLine⟩ := List.mem_flatMap.mp found
  obtain ⟨⟨⟨idx1, idx2⟩, rest⟩, -, checked⟩ := List.mem_flatMap.mp inLine
  dsimp only at checked
  split at checked
  · rw [List.mem_singleton.mp checked]
    rfl
  · cases checked

theorem tile_pattern {file : Text} {tileValues : List (Text × ℤ)} {finding : Finding}
    (found : finding ∈ detectTileTooLarge file tileValues) :
    finding.patternId = .tileTooLargeForBlock := by
  unfold detectTileTooLarge at found
  split at found
  · split at found
    · rw [List.mem_singleton.mp found]
    · cases found
  · cases found

theorem detect_missing {lo hi : ℕ} {names : List Text} {file : Text} {finding : Finding}
    (found : finding ∈ detectSyncIssues unicode lines lo hi names file)
    (missing : finding.patternId = .missingSyncthreads) :
    ∃ i, finding.line = i + 1 ∧ lo ≤ i ∧ i < hi ∧ ∃ n ∈ names,
      eventAt unicode lines n i = .read ∧ Unguarded (eventAt unicode lines n) lo i := by
  obtain ⟨i, after, before, n, declared, emitted⟩ :=
    (mem_detect_sync_issues lines names file lo hi finding).mp found
  obtain ⟨-, -, rfl⟩ | ⟨written, reads, rfl⟩ := reported_some_iff.mp emitted
  · cases missing
  · exact ⟨i, rfl, after, before, n, declared, reads,
      (tracks_state_at _ after).written.mp written⟩

/-- The lines that `analyze_file` flags are those that read behind an unguarded write. -/
theorem flagged_iff {file : Text} {tileValues : List (Text × ℤ)} {source : List Text}
    {lineNo : ℕ} :
    (∃ finding ∈ analyzeLines unicode file source tileValues,
        finding.patternId = .missingSyncthreads ∧ finding.line = lineNo) ↔
      ∃ lo hi i, (lo, hi) ∈ scopes (source.map stripLineComment) ∧ lineNo = i + 1 ∧
        ReadsUnguarded unicode (source.map stripLineComment) lo hi i := by
  constructor
  · rintro ⟨finding, found, missing, rfl⟩
    obtain inScopes | tile := List.mem_append.mp found
    · obtain ⟨⟨lo, hi⟩, scope, inScope⟩ := List.mem_flatMap.mp inScopes
      obtain dims | sync := List.mem_append.mp inScope
      · obtain ⟨decl, -, found⟩ := List.mem_flatMap.mp dims
        obtain mismatch | conflict := List.mem_append.mp found
        · cases (dim_mismatch_pattern mismatch).symm.trans missing
        · cases (bank_conflict_pattern conflict).symm.trans missing
      · obtain ⟨i, number, needs⟩ := detect_missing sync missing
        exact ⟨lo, hi, i, scope, number, needs⟩
    · cases (tile_pattern tile).symm.trans missing
  · rintro ⟨lo, hi, i, scope, rfl, after, before, n, declared, reads, exposed⟩
    have sync := (missing_iff (source.map stripLineComment) _ file lo hi declared i).mpr
      ⟨after, before, reads, exposed⟩
    exact ⟨_, List.mem_append_left _ (List.mem_flatMap.mpr
      ⟨(lo, hi), scope, List.mem_append_right _ sync⟩), rfl, rfl⟩

end AmpFormal.KernelScopes
