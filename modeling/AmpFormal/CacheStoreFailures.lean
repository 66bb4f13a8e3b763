import AmpFormal.CacheStoreHistory

/-!
# Writes that stop

When the device is full the stream keeps the bytes that were stored, drops the rest
and sets its fail bit. `put` does not look at the bit, so the rename publishes a file
that is cut short in place of the entry that was there.
-/

namespace AmpFormal.CacheStoreFailures

open AmpFormal.FileDirectory AmpFormal.CacheStoreModel AmpFormal.CacheEntryCodec

set_option autoImplicit false

/-- `CacheStore::put` when only `stored` bytes reach the temporary file. -/
def putStopped (stored : Nat) (dir : Directory String) (key : String) (bin : Bytes) :
    Option (Directory String) :=
  let (dir, f) := dir.openTruncate (tmpName key)
  let dir := dir.writeAt f 0 ((header bin).toBytes.take stored)
  let dir := dir.writeAt f BinHeader.size (bin.take (stored - BinHeader.size))
  dir.rename (tmpName key) (binName key)

theorem put_stopped_complete {stored : Nat} {bin : Bytes} (complete : 16 + bin.length ≤ stored)
    (dir : Directory String) (key : String) : putStopped stored dir key bin = put dir key bin := by
  have wholeHeader : (header bin).toBytes.take stored = (header bin).toBytes := by
    apply List.take_of_length_le
    rw [header_length, BinHeader.size]
    omega
  have wholePayload : bin.take (stored - BinHeader.size) = bin := by
    apply List.take_of_length_le
    rw [BinHeader.size]
    omega
  simp only [putStopped, put, wholeHeader, wholePayload]

theorem put_stopped_read (stored : Nat) (dir : Directory String) (key : String) (bin : Bytes) :
    ∃ after, putStopped stored dir key bin = some after ∧ ∀ name, after.read name =
      if name = binName key then some ((entryBytes bin).take stored)
      else if name = tmpName key then none else dir.read name := by
  have content : (header bin).toBytes.take stored ++ bin.take (stored - BinHeader.size) =
      (entryBytes bin).take stored := by
    rw [entryBytes, List.take_append, header_length]
  have opened := open_staged dir key
  have withHeader := write_staged opened ((header bin).toBytes.take stored)
  rw [List.nil_append, List.length_nil] at withHeader
  rw [← content, putStopped]
  by_cases inHeader : stored < BinHeader.size
  · -- the stream has failed before the payload
    have noPayload : bin.take (stored - BinHeader.size) = [] := by
      rw [Nat.sub_eq_zero_of_le (Nat.le_of_lt inHeader), List.take_zero]
    simp only [noPayload, Directory.write_at_nil, List.append_nil]
    exact rename_staged withHeader
  · have wholeHeader : (header bin).toBytes.take stored = (header bin).toBytes := by
      apply List.take_of_length_le
      rw [header_length]
      exact Nat.not_lt.mp inHeader
    rw [wholeHeader] at withHeader ⊢
    exact rename_staged (write_staged withHeader (bin.take (stored - BinHeader.size)))

section Stopped

variable {stored : Nat} {dir after : Directory String} {key : String} {bin : Bytes}

theorem put_stopped_get (done : putStopped stored dir key bin = some after) :
    get after key = parse ((entryBytes bin).take stored) := by
  obtain ⟨result, same, read⟩ := put_stopped_read stored dir key bin
  rw [done] at same
  obtain rfl := Option.some.inj same
  rw [CacheStoreModel.get, read, if_pos rfl]
  rfl

/-- A byte that is missing makes the entry unreadable. -/
theorem put_stopped_lost (small : bin.length < 2 ^ 32) (cut : stored < 16 + bin.length)
    (done : putStopped stored dir key bin = some after) : get after key = none := by
  rw [put_stopped_get done]
  apply parse_strict_prefix small (List.take_prefix _ _)
  intro same
  have lengths := congrArg List.length same
  simp only [List.length_take, entryBytes, List.length_append, header_length, BinHeader.size]
    at lengths
  omega

end Stopped

/-- After a put, the old or the new payload is read exactly when no byte was lost. -/
theorem put_stopped_keeps_entry_iff (dir : Directory String) (key : String) (old new : Bytes)
    (stored : Nat) (before : get dir key = some old) (small : new.length < 2 ^ 32)
    (within : stored ≤ 16 + new.length) :
    (∃ after, putStopped stored dir key new = some after ∧
      (get after key = get dir key ∨ get after key = some new)) ↔ stored = 16 + new.length := by
  constructor
  · rintro ⟨after, done, kept⟩
    by_contra missing
    have lost := put_stopped_lost small (by omega) done
    rw [lost, before] at kept
    simp at kept
  · intro complete
    obtain ⟨after, done⟩ := put_isSome dir key new
    refine ⟨after, ?_, .inr (put_get_self done small)⟩
    rw [put_stopped_complete (Nat.le_of_eq complete.symm)]
    exact done

theorem put_stopped_keeps_entry_iff_complete :
    ∃ dir, get dir "k" = some [1] ∧
      ((∃ after, putStopped 18 dir "k" [2, 3] = some after ∧
        (get after "k" = get dir "k" ∨ get after "k" = some [2, 3])) ↔
          18 = 16 + ([2, 3] : Bytes).length) := by
  obtain ⟨dir, done⟩ := put_isSome (Directory.empty String) "k" [1]
  have stored : get dir "k" = some [1] := put_get_self done (by decide)
  exact ⟨dir, stored,
    put_stopped_keeps_entry_iff dir "k" [1] [2, 3] 18 stored (by decide) (by decide)⟩

/-- Nothing of the new file is stored, and the old entry is gone. -/
theorem put_stopped_destroys_entry :
    ∃ dir after, put (Directory.empty String) "k" [1] = some dir ∧ get dir "k" = some [1] ∧
      putStopped 0 dir "k" [2] = some after ∧ get after "k" = none := by
  obtain ⟨dir, done⟩ := put_isSome (Directory.empty String) "k" [1]
  obtain ⟨after, stopped, -⟩ := put_stopped_read 0 dir "k" [2]
  exact ⟨dir, after, done, put_get_self done (by decide), stopped,
    put_stopped_lost (by decide) (by decide) stopped⟩

end AmpFormal.CacheStoreFailures
