import AmpFormal.CacheEntryCodec

/-!
# Sequences of puts

After any sequence of puts, the file of a key is the entry of the payload that was
put last, and a key that was not put keeps its file. No other file is left behind, so
a directory that was empty has one entry for every key that was put.
-/

namespace AmpFormal.CacheStoreHistory

open AmpFormal.FileDirectory AmpFormal.CacheStoreModel AmpFormal.CacheEntryCodec

set_option autoImplicit false

def putAll (dir : Directory String) : List (String × Bytes) → Option (Directory String)
  | [] => some dir
  | (key, bin) :: rest => (put dir key bin).bind fun after => putAll after rest

/-- The payload that was put last for a key. -/
def lastPut (key : String) : List (String × Bytes) → Option Bytes
  | [] => none
  | (other, bin) :: rest => (lastPut key rest).or (if other = key then some bin else none)

theorem last_put_isSome_iff (key : String) (puts : List (String × Bytes)) :
    (lastPut key puts).isSome = true ↔ key ∈ puts.map Prod.fst := by
  induction puts with
  | nil => simp [lastPut]
  | cons first rest ih =>
      obtain ⟨other, bin⟩ := first
      rw [lastPut, Option.isSome_or, Bool.or_eq_true, ih, List.map_cons, List.mem_cons, or_comm]
      by_cases same : other = key
      · simp [same]
      · simp [same, Ne.symm same]

theorem last_put_append (key : String) (puts more : List (String × Bytes)) :
    lastPut key (puts ++ more) = (lastPut key more).or (lastPut key puts) := by
  induction puts with
  | nil => simp [lastPut]
  | cons first rest ih => rw [List.cons_append, lastPut, ih, lastPut, Option.or_assoc]

theorem last_put_mem {key : String} {bin : Bytes} {puts : List (String × Bytes)}
    (last : lastPut key puts = some bin) : (key, bin) ∈ puts := by
  induction puts with
  | nil => cases last
  | cons first rest ih =>
      obtain ⟨other, value⟩ := first
      rw [lastPut, Option.or_eq_some_iff] at last
      obtain later | ⟨-, here⟩ := last
      · exact List.mem_cons_of_mem _ (ih later)
      · by_cases same : other = key
        · rw [if_pos same, Option.some.injEq] at here
          rw [same, here]
          exact List.mem_cons_self
        · rw [if_neg same] at here
          cases here

def keys (puts : List (String × Bytes)) : List String := puts.map Prod.fst

theorem put_all_read (dir : Directory String) (puts : List (String × Bytes))
    (plain : ∀ key ∈ keys puts, Plain key) :
    ∃ after, putAll dir puts = some after ∧
      (∀ key, Plain key → after.read (binName key) =
        ((lastPut key puts).map entryBytes).or (dir.read (binName key))) ∧
      ∀ name, (∀ key ∈ keys puts, name ≠ binName key) → dir.read name = none →
        after.read name = none := by
  induction puts generalizing dir with
  | nil =>
      refine ⟨dir, rfl, ?_, ?_⟩
      · intro key _
        rfl
      · intro name _ missing
        exact missing
  | cons first rest ih =>
      obtain ⟨key, bin⟩ := first
      obtain ⟨keyPlain, restPlain⟩ := List.forall_mem_cons.mp plain
      obtain ⟨next, done, read⟩ := put_read dir key bin
      obtain ⟨after, finished, entries, others⟩ := ih next restPlain
      refine ⟨after, ?_, ?_, ?_⟩
      · rw [putAll, done]
        exact finished
      · intro other otherPlain
        rw [entries other otherPlain, put_bin_file done keyPlain otherPlain, lastPut]
        by_cases same : other = key
        · subst same
          cases lastPut other rest <;> simp
        · cases lastPut other rest <;> simp [same, Ne.symm same]
      · intro name foreign missing
        obtain ⟨apart, foreign⟩ := List.forall_mem_cons.mp foreign
        apply others name foreign
        rw [read, if_neg apart, missing, ite_self]

section Puts

variable {puts : List (String × Bytes)} (plain : ∀ key ∈ keys puts, Plain key)
include plain

/-- What `get` returns after a sequence of puts. -/
theorem put_all_get {dir after : Directory String} (done : putAll dir puts = some after)
    {key : String} (keyPlain : Plain key) :
    get after key = match lastPut key puts with
      | some bin => parse (entryBytes bin)
      | none => get dir key := by
  obtain ⟨result, same, entries, -⟩ := put_all_read dir puts plain
  rw [done] at same
  obtain rfl := Option.some.inj same
  rw [CacheStoreModel.get, entries key keyPlain]
  cases lastPut key puts with
  | none => rfl
  | some bin => rfl

theorem put_all_entry {after : Directory String}
    (done : putAll (Directory.empty String) puts = some after) (name : String) :
    (after.entry name).isSome = true ↔ ∃ key ∈ keys puts, name = binName key := by
  obtain ⟨result, same, entries, others⟩ := put_all_read (Directory.empty String) puts plain
  rw [done] at same
  obtain rfl := Option.some.inj same
  have found : (after.entry name).isSome = (after.read name).isSome := by
    rw [Directory.read, Option.isSome_map]
  rw [found]
  by_cases ours : ∃ key ∈ keys puts, name = binName key
  · obtain ⟨key, member, rfl⟩ := ours
    have blank : (Directory.empty String).read (binName key) = none := rfl
    rw [entries key (plain key member), blank, Option.or_none, Option.isSome_map,
      last_put_isSome_iff]
    constructor
    · intro _
      exact ⟨key, member, rfl⟩
    · intro _
      exact member
  · have foreign : ∀ key ∈ keys puts, name ≠ binName key :=
      fun key member same => ours ⟨key, member, same⟩
    rw [others name foreign rfl]
    constructor
    · intro impossible
      cases impossible
    · intro named
      exact absurd named ours

theorem put_all_lists {after : Directory String}
    (done : putAll (Directory.empty String) puts = some after) :
    Lists after ((keys puts).dedup.map binName) := by
  constructor
  · apply (List.nodup_dedup (keys puts)).map_on
    intro key member other otherMember same
    exact bin_name_injective (plain key (List.mem_dedup.mp member))
      (plain other (List.mem_dedup.mp otherMember)) same
  · intro name
    rw [put_all_entry plain done, List.mem_map]
    constructor
    · rintro ⟨key, member, rfl⟩
      exact ⟨key, List.mem_dedup.mp member, rfl⟩
    · rintro ⟨key, member, rfl⟩
      exact ⟨key, List.mem_dedup.mpr member, rfl⟩

/-- `size()` counts the keys, in whatever order the directory is gone through. -/
theorem put_all_size (nonempty : ∀ key ∈ keys puts, key ≠ "") {after : Directory String}
    (done : putAll (Directory.empty String) puts = some after) {names : List String}
    (lists : Lists after names) : size names = (keys puts).dedup.length := by
  have listed := put_all_lists plain done
  have reordered : names.Perm ((keys puts).dedup.map binName) := by
    apply (List.perm_ext_iff_of_nodup lists.nodup listed.nodup).mpr
    intro name
    rw [lists.listed, listed.listed]
  rw [size, reordered.countP_eq, List.countP_map, List.countP_eq_length.mpr]
  intro key member
  have inPuts := List.mem_dedup.mp member
  have named := bin_name_extension (plain key inPuts) (nonempty key inPuts)
  simp [named]

end Puts

/-- The codec of an entry, and what a sequence of puts leaves to `get` and `size`. -/
theorem entry_codec :
    (∀ (dir : Directory String) (key : String) (bin : Bytes), bin.length < 2 ^ 32 →
      ∃ after file, put dir key bin = some after ∧ after.read (binName key) = some file ∧
        get after key = some bin ∧
        (∀ (damaged : Directory String) (part : Bytes), part <+: file → part ≠ file →
          damaged.read (binName key) = some part → get damaged key = none) ∧
        ∀ (damaged : Directory String) (position : Nat) (byte : UInt8)
          (inside : position < file.length), position < 12 ∨ 16 ≤ position →
          byte ≠ file[position] → damaged.read (binName key) = some (file.set position byte) →
          get damaged key = none) ∧
    (∀ (dir : Directory String) (puts : List (String × Bytes)), (∀ key ∈ keys puts, Plain key) →
      ∃ after, putAll dir puts = some after ∧ ∀ key bin, lastPut key puts = some bin →
        bin.length < 2 ^ 32 → get after key = some bin) ∧
    ∀ puts : List (String × Bytes), (∀ key ∈ keys puts, Plain key) →
      (∀ key ∈ keys puts, key ≠ "") →
      ∃ after, putAll (Directory.empty String) puts = some after ∧ (∃ names, Lists after names) ∧
        ∀ names, Lists after names → size names = (keys puts).dedup.length := by
  refine ⟨?_, ?_, ?_⟩
  · intro dir key bin small
    obtain ⟨after, done⟩ := put_isSome dir key bin
    refine ⟨after, entryBytes bin, done, put_own_file done, put_get_self done small, ?_, ?_⟩
    · intro damaged part cut strict found
      rw [CacheStoreModel.get, found]
      exact parse_strict_prefix small cut strict
    · intro damaged position byte inside elsewhere different found
      rw [CacheStoreModel.get, found]
      exact parse_changed small inside elsewhere different
  · intro dir puts plain
    obtain ⟨after, done, -⟩ := put_all_read dir puts plain
    refine ⟨after, done, ?_⟩
    intro key bin last small
    have member : key ∈ keys puts :=
      (last_put_isSome_iff key puts).mp (Option.isSome_of_eq_some last)
    rw [put_all_get plain done (plain key member), last]
    exact parse_entry small
  · intro puts plain nonempty
    obtain ⟨after, done, -⟩ := put_all_read (Directory.empty String) puts plain
    exact ⟨after, done, ⟨_, put_all_lists plain done⟩,
      fun names lists => put_all_size plain nonempty done lists⟩

/-- Two keys, one of them put twice. -/
theorem entry_codec_two_keys :
    (∃ after, putAll (Directory.empty String) [("a", [1]), ("b", [2]), ("a", [3])] = some after ∧
      ∀ key bin, lastPut key [("a", [1]), ("b", [2]), ("a", [3])] = some bin →
        bin.length < 2 ^ 32 → get after key = some bin) ∧
    ∃ after, putAll (Directory.empty String) [("a", [1]), ("b", [2]), ("a", [3])] = some after ∧
      (∃ names, Lists after names) ∧ ∀ names, Lists after names → size names = 2 :=
  ⟨entry_codec.2.1 _ _ (by decide), entry_codec.2.2 _ (by decide) (by decide)⟩

/-- The files of two keys that are equal up to a NUL are one, under neither's name. -/
theorem keys_behind_nul_share_file :
    ¬∀ puts : List (String × Bytes), (∀ key ∈ keys puts, key ≠ "" ∧ '/' ∉ key.toList) →
      ∃ after, putAll (Directory.empty String) puts = some after ∧
        (∀ key bin, lastPut key puts = some bin → bin.length < 2 ^ 32 →
          get after key = some bin) ∧
        ∀ names, Lists after names → size names = (keys puts).dedup.length := by
  intro always
  obtain ⟨after, done, last, -⟩ := always [("a\x00b", [1]), ("a\x00c", [2])] (by decide)
  have first := last "a\x00b" [1] (by decide) (by decide)
  have shared : (putAll (Directory.empty String) [("a\x00b", [1]), ("a\x00c", [2])]).map
      (fun dir => get dir "a\x00b") = some (some [2]) := by decide +kernel
  rw [done, Option.map_some, Option.some.injEq] at shared
  exact absurd (first.symm.trans shared) (by decide)

end AmpFormal.CacheStoreHistory
