import AmpFormal.BarrierScan

/-!
# Races between two iterations

A loop body runs again and again, but the scan reads its text once. It sees an array
that is refilled behind a read only when both stand, in this order, between the same
two barriers of the text; the tile that is filled before the first barrier and read
behind the last one is refilled by the next iteration, which the scan does not reach.
-/

namespace AmpFormal.LoopCarriedRaces

open AmpFormal.DiagnoseModel AmpFormal.TextPatterns AmpFormal.PastConditions AmpFormal.BarrierScan

set_option autoImplicit false

variable (unicode : Char → Bool)

/-- Of two consecutive executions of the body, the second writes the array after a read
of the first, with no barrier between them. -/
def LoopCarriedRace (body : List Text) (n : Text) : Prop :=
  ∃ r w, r < body.length ∧ body.length ≤ w ∧ w < (body ++ body).length ∧
    eventAt unicode (body ++ body) n r = .read ∧ eventAt unicode (body ++ body) n w = .write ∧
    ∀ k, r < k → k < w → eventAt unicode (body ++ body) n k ≠ .sync

/-- The scan of the body reports the array. -/
def ReportsOverwrite (body : List Text) (names : List Text) (file n : Text) : Prop :=
  ∃ i, loopCarriedOverwrite file i (lineAt body i) n ∈
    detectSyncIssues unicode body 0 body.length names file

/-! ## Conditions on the text of the body -/

def OpeningWrite (body : List Text) (n : Text) : Prop :=
  ∃ w, eventAt unicode body n w = .write ∧ ∀ k < w, eventAt unicode body n k ≠ .sync

def ClosingRead (body : List Text) (n : Text) : Prop :=
  ∃ r, eventAt unicode body n r = .read ∧ ∀ k > r, eventAt unicode body n k ≠ .sync

/-- Behind some barrier and before the next one, the array is read and then written for
the first time. -/
def ReadThenWritten (body : List Text) (n : Text) : Prop :=
  ∃ s r w, s < r ∧ r < w ∧ eventAt unicode body n s = .sync ∧ eventAt unicode body n r = .read ∧
    eventAt unicode body n w = .write ∧
    ∀ k, s < k → k < w → eventAt unicode body n k ≠ .sync ∧ eventAt unicode body n k ≠ .write

variable {unicode} {body : List Text} {n : Text}

/-! ## Positions of the two executions -/

theorem event_first {i : ℕ} (inside : i < body.length) :
    eventAt unicode (body ++ body) n i = eventAt unicode body n i := by
  rw [eventAt, lineAt, List.getD_append _ _ _ _ inside]
  rfl

theorem event_second (i : ℕ) :
    eventAt unicode (body ++ body) n (body.length + i) = eventAt unicode body n i := by
  rw [eventAt, lineAt, List.getD_append_right _ _ _ _ (Nat.le_add_right _ _),
    Nat.add_sub_cancel_left]
  rfl

/-- Only the accesses around the loop's back edge race. -/
theorem loop_carried_race_iff :
    LoopCarriedRace unicode body n ↔ ClosingRead unicode body n ∧ OpeningWrite unicode body n := by
  constructor
  · rintro ⟨r, w, first, second, -, reads, writes, open_⟩
    obtain ⟨w, rfl⟩ := Nat.exists_eq_add_of_le second
    rw [event_first first] at reads
    rw [event_second] at writes
    refine ⟨⟨r, reads, fun k later => ?_⟩, w, writes, fun k earlier => ?_⟩
    · obtain inside | outside := Nat.lt_or_ge k body.length
      · rw [← event_first inside]
        exact open_ k later (by omega)
      · rw [event_outside outside]
        decide
    · rw [← event_second]
      exact open_ _ (by omega) (by omega)
  · rintro ⟨⟨r, reads, last⟩, w, writes, opening⟩
    have first : r < body.length := event_inside reads (by decide)
    have inside : w < body.length := event_inside writes (by decide)
    refine ⟨r, body.length + w, first, Nat.le_add_right _ _, ?_, ?_, ?_, fun k later sooner => ?_⟩
    · rw [List.length_append]
      omega
    · rw [event_first first]
      exact reads
    · rw [event_second]
      exact writes
    · obtain before | behind := Nat.lt_or_ge k body.length
      · rw [event_first before]
        exact last k later
      · obtain ⟨k, rfl⟩ := Nat.exists_eq_add_of_le behind
        rw [event_second]
        exact opening k (by omega)

theorem reports_overwrite_iff {names : List Text} (file : Text) (declared : n ∈ names) :
    ReportsOverwrite unicode body names file n ↔ ReadThenWritten unicode body n := by
  constructor
  · rintro ⟨w, found⟩
    obtain ⟨-, -, writes, s, -, -, guard, kept, r, after, before, reads⟩ :=
      (overwrite_iff body names file 0 body.length declared w).mp found
    exact ⟨s, r, w, after, before, guard, reads, writes, kept⟩
  · rintro ⟨s, r, w, after, before, guard, reads, writes, kept⟩
    have inside : w < body.length := event_inside writes (by decide)
    refine ⟨w, (overwrite_iff body names file 0 body.length declared w).mpr ?_⟩
    exact ⟨Nat.zero_le w, inside, writes, s, Nat.zero_le s, Nat.lt_trans after before, guard, kept,
      r, after, before, reads⟩

/-- A race between two iterations is reported exactly in the bodies whose text shows it
within one iteration already, or which have none. -/
theorem races_reported_iff (body : List Text) (names : List Text) (file n : Text)
    (declared : n ∈ names) :
    (LoopCarriedRace unicode body n → ReportsOverwrite unicode body names file n) ↔
      (OpeningWrite unicode body n → ClosingRead unicode body n →
        ReadThenWritten unicode body n) := by
  rw [loop_carried_race_iff, reports_overwrite_iff file declared]
  constructor
  · intro reported opening closing
    exact reported ⟨closing, opening⟩
  · rintro reread ⟨closing, opening⟩
    exact reread opening closing

/-- The tile is filled, the threads wait, the tile is read. -/
def tiledBody : List Text :=
  ["sA[ty][tx] = A[kb + tx];".toList, "__syncthreads();".toList, "acc += sA[ty][k];".toList]

theorem tiled_body_unreported :
    "sA".toList ∈ ["sA".toList] ∧ LoopCarriedRace (fun _ => false) tiledBody "sA".toList ∧
      ¬ReportsOverwrite (fun _ => false) tiledBody ["sA".toList] [] "sA".toList := by
  refine ⟨List.mem_singleton.mpr rfl, ⟨2, 3, by decide, by decide, by decide, by decide, by decide,
    fun k after before => by omega⟩, ?_⟩
  rintro ⟨i, found⟩
  have none : detectSyncIssues (fun _ => false) tiledBody 0 tiledBody.length ["sA".toList] [] =
      [] := by decide
  rw [none] at found
  cases found

/-- A tile that is refilled behind its reads in the body itself is reported. -/
theorem races_reported_iff_refilled :
    LoopCarriedRace (fun _ => false) (tiledBody ++ ["sA[ty][tx] = A[kb];".toList]) "sA".toList ∧
      ReportsOverwrite (fun _ => false) (tiledBody ++ ["sA[ty][tx] = A[kb];".toList])
        ["sA".toList] [] "sA".toList := by
  have race : LoopCarriedRace (fun _ => false) (tiledBody ++ ["sA[ty][tx] = A[kb];".toList])
      "sA".toList := by
    refine ⟨2, 4, by decide, by decide, by decide, by decide, by decide, fun k after before => ?_⟩
    obtain rfl : k = 3 := by omega
    decide
  refine ⟨race, (races_reported_iff _ _ [] _ (List.mem_singleton.mpr rfl)).mpr ?_ race⟩
  intro opening closing
  refine ⟨1, 2, 3, by decide, by decide, by decide, by decide, by decide, fun k after before => ?_⟩
  obtain rfl : k = 2 := by omega
  decide

end AmpFormal.LoopCarriedRaces
