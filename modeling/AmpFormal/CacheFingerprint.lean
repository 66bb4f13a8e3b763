import AmpFormal.CacheDigest
import AmpFormal.DelimitedText

/-!
# The hashed text of a compile target

The five string fields are cut out at the bars, and the shape is a list of decimal
numbers that are each terminated by a comma. So the text determines every field, as
long as no string field contains a bar.
-/

namespace AmpFormal.CacheFingerprint

open AmpFormal.FileDirectory AmpFormal.CacheDigestModel AmpFormal.CacheDigest
open AmpFormal.DelimitedText

set_option autoImplicit false

/-! ## Decimal bytes -/

theorem decimal_char {z : Int} {char : Char} (member : char ∈ z.repr.toList) :
    char.toNat = 45 ∨ 48 ≤ char.toNat ∧ char.toNat ≤ 57 := by
  obtain rfl | digit := int_repr_chars member
  · exact .inl rfl
  · obtain ⟨lower, upper⟩ := Char.isDigit_iff_toNat.mp digit
    exact .inr ⟨lower, upper⟩

theorem decimal_byte {z : Int} {char : Char} (member : char ∈ z.repr.toList) :
    (UInt8.ofNat char.toNat).toNat = char.toNat := by
  rw [UInt8.toNat_ofNat']
  have ascii := decimal_char member
  omega

theorem decimal_chars (d : Int32) :
    (decimal d).map (fun byte => Char.ofNat byte.toNat) = (Int.repr d.toInt).toList := by
  rw [decimal, List.map_map]
  calc (Int.repr d.toInt).toList.map _ = (Int.repr d.toInt).toList.map id := by
        apply List.map_congr_left
        intro char member
        rw [Function.comp_apply, decimal_byte member, Char.ofNat_toNat, id]
    _ = (Int.repr d.toInt).toList := List.map_id _

theorem decimal_injective : Function.Injective decimal := by
  intro left right same
  have chars := congrArg (List.map fun byte : UInt8 => Char.ofNat byte.toNat) same
  rw [decimal_chars, decimal_chars] at chars
  exact Int32.toInt_inj.mp (int_repr_injective (String.toList_inj.mp chars))

theorem decimal_clean (d : Int32) : comma ∉ decimal d := by
  intro member
  obtain ⟨char, inNumber, same⟩ := List.mem_map.mp member
  have byte := decimal_byte inNumber
  have ascii := decimal_char inNumber
  rw [same] at byte
  have value : comma.toNat = 44 := rfl
  omega

/-! ## The whole text -/

structure Unbarred (g : CompileGraph) : Prop where
  op : bar ∉ g.op
  dtype : bar ∉ g.dtype
  arch : bar ∉ g.arch
  tuneCfg : bar ∉ g.tuneCfg
  runtimeVer : bar ∉ g.runtimeVer

theorem fingerprint_text_eq (g : CompileGraph) :
    fingerprintText g = g.op ++ bar :: (g.dtype ++ bar :: (g.arch ++ bar :: (g.tuneCfg ++
      bar :: (g.runtimeVer ++ bar :: terminated comma decimal g.shape)))) := by
  simp [fingerprintText, terminated]

/-- The fields are cut out one after the other. -/
theorem fingerprint_text_fields {g g' : CompileGraph} (clean : Unbarred g) (clean' : Unbarred g')
    (same : fingerprintText g = fingerprintText g') : g = g' := by
  rw [fingerprint_text_eq, fingerprint_text_eq] at same
  obtain ⟨op, same⟩ := append_separator_injective clean.op clean'.op same
  obtain ⟨dtype, same⟩ := append_separator_injective clean.dtype clean'.dtype same
  obtain ⟨arch, same⟩ := append_separator_injective clean.arch clean'.arch same
  obtain ⟨tuneCfg, same⟩ := append_separator_injective clean.tuneCfg clean'.tuneCfg same
  obtain ⟨runtimeVer, same⟩ := append_separator_injective clean.runtimeVer clean'.runtimeVer same
  have shape := terminated_injective decimal_injective decimal_clean same
  obtain ⟨op₁, shape₁, dtype₁, arch₁, tuneCfg₁, runtimeVer₁⟩ := g
  obtain ⟨op₂, shape₂, dtype₂, arch₂, tuneCfg₂, runtimeVer₂⟩ := g'
  dsimp only at op dtype arch tuneCfg runtimeVer shape
  rw [op, dtype, arch, tuneCfg, runtimeVer, shape]

/-- The same text is hashed exactly for equal targets. -/
theorem fingerprint_text_eq_iff (g g' : CompileGraph) (clean : Unbarred g) (clean' : Unbarred g') :
    fingerprintText g = fingerprintText g' ↔
      g.op = g'.op ∧ g.shape = g'.shape ∧ g.dtype = g'.dtype ∧ g.arch = g'.arch ∧
        g.tuneCfg = g'.tuneCfg ∧ g.runtimeVer = g'.runtimeVer := by
  constructor
  · intro same
    obtain rfl := fingerprint_text_fields clean clean' same
    exact ⟨rfl, rfl, rfl, rfl, rfl, rfl⟩
  · rintro ⟨op, shape, dtype, arch, tuneCfg, runtimeVer⟩
    rw [fingerprintText, op, shape, dtype, arch, tuneCfg, runtimeVer, fingerprintText]

/-- Two targets that differ in the runtime only, with a negative dimension. -/
def target (runtimeVer : Bytes) : CompileGraph where
  op := [0x6d, 0x6d]
  shape := [-1, 23]
  dtype := []
  arch := [0x61]
  tuneCfg := []
  runtimeVer := runtimeVer

theorem fingerprint_text_eq_iff_runtime :
    fingerprintText (target [0x31]) = fingerprintText (target [0x32]) ↔
      (target [0x31]).op = (target [0x32]).op ∧ (target [0x31]).shape = (target [0x32]).shape ∧
        (target [0x31]).dtype = (target [0x32]).dtype ∧
        (target [0x31]).arch = (target [0x32]).arch ∧
        (target [0x31]).tuneCfg = (target [0x32]).tuneCfg ∧
        (target [0x31]).runtimeVer = (target [0x32]).runtimeVer :=
  fingerprint_text_eq_iff (target [0x31]) (target [0x32])
    ⟨by decide, by decide, by decide, by decide, by decide⟩
    ⟨by decide, by decide, by decide, by decide, by decide⟩

theorem fingerprint_eq (g : CompileGraph) (small : (fingerprintText g).length < 2 ^ 61) :
    fingerprint g = String.ofList ((Sha256.hexDigest (fingerprintText g)).toList.take 16) := by
  obtain ⟨absorbed, counted⟩ := updates_absorbed [fingerprintText g]
  rw [List.flatten_singleton] at absorbed counted
  rw [fingerprint, ← hexdigest_absorbed absorbed counted small]
  rfl

end AmpFormal.CacheFingerprint
