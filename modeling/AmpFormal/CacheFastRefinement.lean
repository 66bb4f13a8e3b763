import AmpFormal.CacheFastModel

/-!
# The two-tier cache refines the disk cache

One call at a time, L1 holds for each of its keys the payload that the disk would
return. Promotion and update keep this because they write what was read from or
written to disk in the same call, and eviction because it only drops entries. So
whatever the limit evicts, a get answers as `CacheStore` does on the same files.
-/

namespace AmpFormal.CacheFastRefinement

open AmpFormal.FileDirectory AmpFormal.CacheFastModel AmpFormal.CacheFastModel.CacheStoreFast

set_option autoImplicit false

def plainCall (disk : Directory String) : Call → Option (Directory String × Option Bytes)
  | .get key => some (disk, CacheStoreModel.get disk key)
  | .put key bin => (CacheStoreModel.put disk key bin).map fun after => (after, none)

/-- A history of calls with what they return. -/
def runCalls {State : Type} (call : State → Call → Option (State × Option Bytes)) :
    State → List Call → Option (State × List (Option Bytes))
  | state, [] => some (state, [])
  | state, next :: rest =>
      (call state next).bind fun (after, result) =>
        (runCalls call after rest).map fun (final, results) => (final, result :: results)

/-- A plain key, and with a put a payload whose length fits the header. -/
def Storable : Call → Prop
  | .get key => CacheStoreModel.Plain key
  | .put key bin => CacheStoreModel.Plain key ∧ bin.length < 2 ^ 32

instance storableDecidable : ∀ call, Decidable (Storable call)
  | .get key => inferInstanceAs (Decidable (CacheStoreModel.Plain key))
  | .put key bin => inferInstanceAs (Decidable (CacheStoreModel.Plain key ∧ bin.length < 2 ^ 32))

/-- Every entry of L1 is what the disk returns. -/
def Coherent (cache : CacheStoreFast) : Prop :=
  ∀ key entry, cache.l1 key = some entry →
    CacheStoreModel.get cache.disk key = some entry.data

theorem shrinks_coherent {cache after : CacheStoreFast} (coherent : Coherent cache)
    (shrinks : Shrinks cache after) : Coherent after := by
  intro key entry present
  obtain ⟨older, before, same⟩ := shrinks.entries key entry present
  rw [shrinks.disk, ← same]
  exact coherent key older before

theorem writes_coherent {cache after : CacheStoreFast} {key : String} {bin : Bytes}
    (others : ∀ other entry, other ≠ key → cache.l1 other = some entry →
      CacheStoreModel.get cache.disk other = some entry.data)
    (writes : Writes cache after key bin) (fresh : CacheStoreModel.get cache.disk key = some bin) :
    Coherent after := by
  intro other entry present
  rw [writes.disk]
  by_cases here : other = key
  · subst here
    obtain ⟨written, found, data⟩ := writes.written
    rw [present] at found
    rw [Option.some.inj found, data]
    exact fresh
  · obtain ⟨older, before, same⟩ := writes.others other entry here present
    rw [← same]
    exact others other older here before

structure Sound (cache : CacheStoreFast) : Prop where
  coherent : Coherent cache
  plain : ∀ key entry, cache.l1 key = some entry → CacheStoreModel.Plain key

theorem shrinks_sound {cache after : CacheStoreFast} (sound : Sound cache)
    (shrinks : Shrinks cache after) : Sound after := by
  refine ⟨shrinks_coherent sound.coherent shrinks, ?_⟩
  intro key entry present
  obtain ⟨older, before, _⟩ := shrinks.entries key entry present
  exact sound.plain key older before

theorem writes_plain {cache after : CacheStoreFast} {key : String} {bin : Bytes}
    (plain : CacheStoreModel.Plain key)
    (writes : Writes cache after key bin)
    (others : ∀ other entry, cache.l1 other = some entry → CacheStoreModel.Plain other) :
    ∀ other entry, after.l1 other = some entry → CacheStoreModel.Plain other := by
  intro other entry present
  by_cases here : other = key
  · exact here ▸ plain
  · obtain ⟨older, before, _⟩ := writes.others other entry here present
    exact others other older before

/-- A get returns what the disk returns and keeps L1 sound. -/
theorem get_refines {cache : CacheStoreFast} (sound : Sound cache) {key : String}
    (plain : CacheStoreModel.Plain key) :
    (cache.get key).2 = CacheStoreModel.get cache.disk key ∧
      (cache.get key).1.disk = cache.disk ∧ Sound (cache.get key).1 := by
  unfold CacheStoreFast.get
  split
  case h_1 entry present =>
    exact ⟨(sound.coherent key entry present).symm, rfl,
      shrinks_sound sound (hit_shrinks present)⟩
  case h_2 absent =>
    split
    case h_1 missing => exact ⟨missing.symm, rfl, sound.coherent, sound.plain⟩
    case h_2 bin found =>
      have promoted := promote_writes absent bin
      have writes : Writes cache { cache.promote key bin with l2Hits := cache.l2Hits + 1 } key bin :=
        ⟨promoted.disk, promoted.limit, promoted.written, promoted.others⟩
      refine ⟨found.symm, writes.disk, ?_, writes_plain plain writes sound.plain⟩
      exact writes_coherent (fun other entry _ => sound.coherent other entry) writes found

/-- A put leaves the files of `CacheStore::put` and keeps L1 sound. -/
theorem put_refines {cache : CacheStoreFast} (sound : Sound cache) {key : String} {bin : Bytes}
    (plain : CacheStoreModel.Plain key) (small : bin.length < 2 ^ 32) :
    ∃ after, cache.put key bin = some after ∧
      CacheStoreModel.put cache.disk key bin = some after.disk ∧ Sound after := by
  obtain ⟨disk, written⟩ := CacheStoreModel.put_isSome cache.disk key bin
  have writes := store_writes { cache with disk } key bin
  have keys := writes_plain plain writes sound.plain
  refine ⟨_, by rw [CacheStoreFast.put, written, Option.map_some], ?_, ?_, keys⟩
  · rw [written, writes.disk]
  · refine writes_coherent (fun other entry different present => ?_) writes
      (CacheStoreModel.put_get_self written small)
    rw [CacheStoreModel.put_get written plain (sound.plain other entry present), if_neg different]
    exact sound.coherent other entry present

theorem call_refines {cache : CacheStoreFast} (sound : Sound cache) {call : Call}
    (storable : Storable call) :
    ∃ after result, cache.call call = some (after, result) ∧
      plainCall cache.disk call = some (after.disk, result) ∧ Sound after := by
  cases call with
  | get key =>
      obtain ⟨same, disk, kept⟩ := get_refines sound storable
      refine ⟨(cache.get key).1, (cache.get key).2, rfl, ?_, kept⟩
      rw [disk, same]
      rfl
  | put key bin =>
      obtain ⟨after, done, disk, kept⟩ := put_refines sound storable.1 storable.2
      refine ⟨after, none, ?_, ?_, kept⟩
      · simp only [CacheStoreFast.call, done, Option.map_some]
      · simp only [plainCall, disk, Option.map_some]

theorem calls_refine (calls : List Call) {cache : CacheStoreFast} (sound : Sound cache)
    (storable : ∀ call ∈ calls, Storable call) :
    ∃ final results, runCalls CacheStoreFast.call cache calls = some (final, results) ∧
      runCalls plainCall cache.disk calls = some (final.disk, results) := by
  induction calls generalizing cache with
  | nil => exact ⟨cache, [], rfl, rfl⟩
  | cons call rest ih =>
      obtain ⟨now, later⟩ := List.forall_mem_cons.mp storable
      obtain ⟨after, result, fast, plain, kept⟩ := call_refines sound now
      obtain ⟨final, results, fastRest, plainRest⟩ := ih kept later
      refine ⟨final, result :: results, ?_, ?_⟩
      · simp only [runCalls, fast, Option.bind_some, fastRest, Option.map_some]
      · simp only [runCalls, plain, Option.bind_some, plainRest, Option.map_some]

/-- Over any files and under any limit, every get of a history returns what
`CacheStore` returns on the same history, and the files are the same in the end. -/
theorem fast_refines_plain (maxL1Bytes : UInt64) (disk : Directory String) (calls : List Call)
    (storable : ∀ call ∈ calls, Storable call) :
    ∃ final results,
      runCalls CacheStoreFast.call (create disk maxL1Bytes) calls = some (final, results) ∧
        runCalls plainCall disk calls = some (final.disk, results) :=
  calls_refine calls ⟨fun _ _ present => (nomatch present), fun _ _ present => (nomatch present)⟩
    storable

/-- A put that does not fit next to the other, and a get that promotes. -/
theorem fast_refines_plain_evicting :
    ∃ final results,
      runCalls CacheStoreFast.call (create (Directory.empty String) 1)
          [.put "a" [7], .put "b" [8], .get "a"] = some (final, results) ∧
        runCalls plainCall (Directory.empty String) [.put "a" [7], .put "b" [8], .get "a"] =
          some (final.disk, results) :=
  fast_refines_plain 1 (Directory.empty String) _ (by decide)

/-- Two keys without a separator that are equal up to a NUL: L1 keeps them apart, the
disk does not. -/
theorem keys_behind_nul_collide :
    ¬∀ (maxL1Bytes : UInt64) (disk : Directory String) (calls : List Call),
      (∀ call ∈ calls, match call with
        | .get key => '/' ∉ key.toList
        | .put key bin => '/' ∉ key.toList ∧ bin.length < 2 ^ 32) →
      ∃ final results,
        runCalls CacheStoreFast.call (create disk maxL1Bytes) calls = some (final, results) ∧
          runCalls plainCall disk calls = some (final.disk, results) := by
  intro always
  obtain ⟨final, results, fast, plain⟩ := always 100 (Directory.empty String)
    [.put "a\x00b" [1], .put "a\x00c" [2], .get "a\x00b"] (by
      intro call member
      simp only [List.mem_cons, List.not_mem_nil, or_false] at member
      rcases member with rfl | rfl | rfl <;> decide)
  have first : (runCalls CacheStoreFast.call (create (Directory.empty String) 100)
      [.put "a\x00b" [1], .put "a\x00c" [2], .get "a\x00b"]).map Prod.snd =
        some [none, none, some [1]] := by decide +kernel
  have second : (runCalls plainCall (Directory.empty String)
      [.put "a\x00b" [1], .put "a\x00c" [2], .get "a\x00b"]).map Prod.snd =
        some [none, none, some [2]] := by decide +kernel
  rw [fast, Option.map_some, Option.some.injEq] at first
  rw [plain, Option.map_some, Option.some.injEq] at second
  exact absurd (first.symm.trans second) (by decide)

example : (runCalls plainCall (Directory.empty String) [.put "a" [7], .get "a"]).map (·.2) =
    some [none, some [7]] := by
  decide +kernel

end AmpFormal.CacheFastRefinement
