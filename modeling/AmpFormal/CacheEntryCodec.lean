import AmpFormal.CacheStoreModel
import AmpFormal.InjectiveFolds
import Mathlib.Data.List.Dedup
import Mathlib.Data.UInt

/-!
# The entry codec

`get` accepts exactly the files that begin with what `put` writes for a payload that
fits the length field. So a cut file is no entry. FNV-1a is a fold that is injective
in its state, because its multiplier is odd, and in the byte, so a file with one byte
changed outside the length field is no entry either.
-/

namespace AmpFormal.CacheEntryCodec

open AmpFormal.FileDirectory AmpFormal.CacheStoreModel AmpFormal.InjectiveFolds

set_option autoImplicit false

/-! ## The accepted files -/

theorem le32_read_le32 {bytes : Bytes} (four : bytes.length = 4) :
    le32 (readLe32 bytes) = bytes := by
  obtain ⟨b0, b1, b2, b3, rfl⟩ := List.length_eq_four.mp four
  have bound0 := b0.toNat_lt
  have bound1 := b1.toNat_lt
  have bound2 := b2.toNat_lt
  have bound3 := b3.toNat_lt
  simp only [readLe32, le32, UInt32.toNat_ofNat', List.cons.injEq, and_true,
    ← UInt8.toNat_inj, UInt8.toNat_ofNat']
  omega

theorem header_bytes {file : Bytes} (long : BinHeader.size ≤ file.length) :
    (BinHeader.ofBytes file).toBytes ++ file.drop BinHeader.size = file := by
  rw [BinHeader.size] at long
  have version : ((file.drop 4).take 4).length = 4 := by simp; omega
  have payloadCrc : ((file.drop 8).take 4).length = 4 := by simp; omega
  have payloadLen : ((file.drop 12).take 4).length = 4 := by simp; omega
  have atVersion := List.take_append_drop 4 (file.drop 4)
  have atCrc := List.take_append_drop 4 (file.drop 8)
  have atLen := List.take_append_drop 4 (file.drop 12)
  rw [List.drop_drop] at atVersion atCrc atLen
  simp only [BinHeader.toBytes, BinHeader.ofBytes, BinHeader.size, le32_read_le32 version,
    le32_read_le32 payloadCrc, le32_read_le32 payloadLen, List.append_assoc]
  rw [atLen, atCrc, atVersion, List.take_append_drop]

theorem parse_sound {file bin : Bytes} (parsed : parse file = some bin) :
    bin.length < 2 ^ 32 ∧ ∃ rest, file = entryBytes bin ++ rest := by
  obtain ⟨long, magic, version, payload, complete, intact⟩ := parse_accepts parsed
  have whole := header_bytes long
  generalize BinHeader.ofBytes file = hdr at magic version payload complete intact whole
  generalize file.drop BinHeader.size = stored at payload whole
  have length : bin.length = hdr.payloadLen.toNat := by
    apply Nat.le_antisymm _ complete
    rw [payload]
    exact List.length_take_le _ _
  have fields : hdr = header bin := by
    rw [header, length, UInt32.ofNat_toNat, intact, ← magic, ← version]
  refine ⟨length ▸ hdr.payloadLen.toNat_lt, stored.drop hdr.payloadLen.toNat, ?_⟩
  rw [entryBytes, ← fields, List.append_assoc, payload, List.take_append_drop, whole]

/-- `get` accepts the files that begin with an entry whose length fits its field. -/
theorem parse_eq_some_iff (file bin : Bytes) :
    parse file = some bin ↔ bin.length < 2 ^ 32 ∧ ∃ rest, file = entryBytes bin ++ rest := by
  constructor
  · exact parse_sound
  · rintro ⟨small, rest, rfl⟩
    exact parse_entry_append small rest

/-! ## Damaged files -/

/-- No strict prefix of an entry is accepted. -/
theorem parse_strict_prefix {bin part : Bytes} (small : bin.length < 2 ^ 32)
    (cut : part <+: entryBytes bin) (strict : part ≠ entryBytes bin) : parse part = none := by
  cases parsed : parse part with
  | none => rfl
  | some read =>
      obtain ⟨fits, rest, rfl⟩ := parse_sound parsed
      obtain ⟨tail, whole⟩ := cut
      have reread : parse (entryBytes bin) = some read := by
        rw [← whole, List.append_assoc]
        exact parse_entry_append fits (rest ++ tail)
      rw [parse_entry small] at reread
      obtain rfl := Option.some.inj reread
      have nothing : rest = [] := by
        have lengths := congrArg List.length whole
        simp only [List.length_append] at lengths
        exact List.eq_nil_of_length_eq_zero (by omega)
      rw [nothing, List.append_nil] at strict
      exact absurd rfl strict

theorem fnv_multiplier_injective : Function.Injective fun h : UInt32 => h * 16777619 := by
  intro left right same
  have undone := congrArg (fun h : UInt32 => h * 899433627) same
  have inverse : (16777619 : UInt32) * 899433627 = 1 := by decide
  simpa only [UInt32.mul_assoc, inverse, UInt32.mul_one] using undone

theorem fnv_step_injective (byte : UInt8) :
    Function.Injective fun h : UInt32 => (h ^^^ byte.toUInt32) * 16777619 := by
  intro left right same
  exact (UInt32.xor_left_inj _).mp (fnv_multiplier_injective same)

theorem fnv_byte_injective (h : UInt32) :
    Function.Injective fun byte : UInt8 => (h ^^^ byte.toUInt32) * 16777619 := by
  intro left right same
  exact UInt8.toUInt32_inj.mp ((UInt32.xor_right_inj _).mp (fnv_multiplier_injective same))

/-- The checksum sees the change of any one byte. -/
theorem fnv1a32_set_ne {bin : Bytes} {position : Nat} (inside : position < bin.length)
    {byte : UInt8} (different : byte ≠ bin[position]) :
    fnv1a32 (bin.set position byte) ≠ fnv1a32 bin :=
  foldl_set_ne fnv_step_injective fnv_byte_injective bin 2166136261 position inside different

theorem payload_len_set (file : Bytes) {position : Nat} (elsewhere : position < 12 ∨ 16 ≤ position)
    (byte : UInt8) :
    (BinHeader.ofBytes (file.set position byte)).payloadLen =
      (BinHeader.ofBytes file).payloadLen := by
  simp only [BinHeader.ofBytes, List.drop_set]
  obtain before | behind := elsewhere
  · rw [if_pos before]
  · rw [if_neg (by omega), List.take_set, List.set_eq_of_length_le]
    have short := List.length_take_le 4 (file.drop 12)
    omega

theorem parsed_entry {file bin read : Bytes} (small : bin.length < 2 ^ 32)
    (sameLength : file.length = (entryBytes bin).length)
    (sameField : (BinHeader.ofBytes file).payloadLen = (header bin).payloadLen)
    (parsed : parse file = some read) : file = entryBytes read ∧ read.length = bin.length := by
  obtain ⟨fits, rest, rfl⟩ := parse_sound parsed
  have field : (header read).payloadLen = (header bin).payloadLen := by
    rw [← sameField, ← header_of_entry read]
    rfl
  have lengths := congrArg UInt32.toNat field
  simp only [header, UInt32.toNat_ofNat_of_lt' fits, UInt32.toNat_ofNat_of_lt' small] at lengths
  have nothing : rest = [] := by
    simp only [entryBytes, List.length_append, header_length] at sameLength
    exact List.eq_nil_of_length_eq_zero (by omega)
  rw [nothing, List.append_nil]
  exact ⟨rfl, lengths⟩

/-- An entry with one byte changed outside the length field is not accepted. -/
theorem parse_changed {bin : Bytes} (small : bin.length < 2 ^ 32) {position : Nat}
    (inside : position < (entryBytes bin).length) (elsewhere : position < 12 ∨ 16 ≤ position)
    {byte : UInt8} (different : byte ≠ (entryBytes bin)[position]) :
    parse ((entryBytes bin).set position byte) = none := by
  cases parsed : parse ((entryBytes bin).set position byte) with
  | none => rfl
  | some read =>
      have sameField := payload_len_set (entryBytes bin) elsewhere byte
      rw [header_of_entry] at sameField
      obtain ⟨entry, sameLength⟩ := parsed_entry small List.length_set sameField parsed
      have split : (entryBytes bin).set position byte = (header read).toBytes ++ read := entry
      obtain before | behind := elsewhere
      · -- the payload is the old one, so the whole entry is
        have inHeader : position < (header bin).toBytes.length := by
          rw [header_length, BinHeader.size]
          omega
        rw [entryBytes, List.set_append_left _ _ inHeader] at split
        have payload : bin = read := List.append_inj_right' split sameLength.symm
        rw [← payload] at entry
        have kept := List.getElem_set_self (l := entryBytes bin) (i := position) (a := byte)
          (by simpa using inside)
        simp only [entry] at kept
        exact absurd kept.symm different
      · -- the checksum is the old one, over a payload with one byte changed
        have pastHeader : (header bin).toBytes.length ≤ position := behind
        have inPayload : position - 16 < bin.length := by
          simp only [entryBytes, List.length_append, header_length, BinHeader.size] at inside
          omega
        rw [entryBytes, List.set_append_right _ _ pastHeader, header_length] at split
        obtain ⟨headers, payload⟩ := List.append_inj split rfl
        have crc : readLe32 (le32 (fnv1a32 bin)) = readLe32 (le32 (fnv1a32 read)) :=
          congrArg (fun bytes : Bytes => readLe32 ((bytes.drop 8).take 4)) headers
        rw [read_le32_le32, read_le32_le32, ← payload] at crc
        have changed : byte ≠ bin[position - 16] := by
          intro same
          apply different
          rw [same]
          exact (List.getElem_append_right pastHeader).symm
        exact absurd crc.symm (fnv1a32_set_ne inPayload changed)

end AmpFormal.CacheEntryCodec
