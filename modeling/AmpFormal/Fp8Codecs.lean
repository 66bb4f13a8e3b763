import AmpFormal.Fp8Model
import AmpFormal.MinifloatGrid
import Mathlib.Algebra.Order.Ring.Rat
import Mathlib.Tactic.NormNum

/-!
# The FP8 conversions on the grid of magnitudes

Both encoders clamp a magnitude, store the code nearest to it and put the sign bit
above; the carry of the mantissa into the exponent is the addition of the two
fields. Only a subnormal mantissa is clamped instead of carried. The decoders read
every code up to the greatest finite one as its magnitude.
-/

namespace AmpFormal.Fp8Codecs

open AmpFormal.ExactFloats AmpFormal.Fp8Model AmpFormal.GridRounding AmpFormal.MinifloatGrid

set_option autoImplicit false

def e4m3 : Layout := { fractionBits := 3, bias := 7 }

def e5m2 : Layout := { fractionBits := 2, bias := 15 }

/-- The magnitude the encoders store: a subnormal one never carries into the exponent. -/
def storedCode (layout : Layout) (x : ℚ) : ℕ :=
  if x < layout.leastNormal ℚ then min (layout.width - 1) (layout.nearestCode x)
  else layout.nearestCode x

def signBit (negative : Bool) : UInt8 := if negative then 0x80 else 0

def signed (negative : Bool) (c : ℕ) : UInt8 := signBit negative ||| UInt8.ofNat c

/-! ## The operations of the encoders -/

theorem round_away_nonneg {v : ℚ} (nonneg : 0 ≤ v) : roundAway v = round v := by
  unfold roundAway
  rw [if_neg (not_lt.mpr nonneg), round_eq]

theorem round_away_byte {v : ℚ} (nonneg : 0 ≤ v) :
    toUInt8 (roundAway v) = UInt8.ofNat (round v).toNat := by
  rw [round_away_nonneg nonneg, toUInt8]

theorem frexp_positive {v : ℚ} (positive : 0 < v) :
    frexp v = (v / 2 ^ (Int.log 2 v + 1), Int.log 2 v + 1) := by
  unfold frexp
  rw [if_neg positive.ne', abs_of_pos positive]

theorem norm_mant (v : ℚ) : v / 2 ^ (Int.log 2 v + 1) * 2 - 1 = v / 2 ^ Int.log 2 v - 1 := by
  rw [zpow_add_one₀ two_ne_zero, div_mul_eq_mul_div, mul_div_mul_right _ _ two_ne_zero]

theorem fraction_bits (layout : Layout) {v : ℚ} (positive : 0 < v) :
    0 ≤ (v / 2 ^ Int.log 2 v - 1) * layout.width ∧
      (round ((v / 2 ^ Int.log 2 v - 1) * layout.width)).toNat ≤ layout.width := by
  have power : (0 : ℚ) < 2 ^ Int.log 2 v := zpow_pos two_pos _
  have lower : (2 : ℚ) ^ Int.log 2 v ≤ v := by
    exact_mod_cast Int.zpow_log_le_self one_lt_two positive
  have upper : v < 2 ^ Int.log 2 v * 2 := by
    rw [← zpow_add_one₀ two_ne_zero]
    exact_mod_cast Int.lt_zpow_succ_log_self one_lt_two v
  have atLeast : 1 ≤ v / 2 ^ Int.log 2 v := (one_le_div power).mpr lower
  have below : v / 2 ^ Int.log 2 v < 2 := by
    rw [div_lt_iff₀ power, mul_comm]
    exact upper
  have width : (0 : ℚ) ≤ layout.width := Nat.cast_nonneg _
  constructor
  · exact mul_nonneg (sub_nonneg.mpr atLeast) width
  · apply round_le_count
    exact mul_le_of_le_one_left width (by linarith)

/-- Every byte is a sign bit above a magnitude code. -/
theorem byte_signed (code : UInt8) : ∃ negative, ∃ c < 128, code = signed negative c := by
  have table : ∀ n < 256, UInt8.ofNat n = signed (decide (128 ≤ n)) (n % 128) := by
    decide +kernel
  refine ⟨decide (128 ≤ code.toNat), code.toNat % 128, Nat.mod_lt _ (by decide), ?_⟩
  rw [← table code.toNat code.toNat_lt, UInt8.ofNat_toNat]

theorem pack_e4m3 (negative : Bool) : ∀ e < 16, ∀ m < 9, 1 ≤ e → e * 8 + m ≤ 126 →
    packE4m3 (signBit negative) (UInt8.ofNat e) (UInt8.ofNat m) = signed negative (e * 8 + m) := by
  cases negative <;> decide +kernel

theorem pack_e5m2 (negative : Bool) : ∀ e < 31, ∀ m < 5, 1 ≤ e → e * 4 + m ≤ 123 →
    packE5m2 (signBit negative) (UInt8.ofNat e) (UInt8.ofNat m) = signed negative (e * 4 + m) := by
  cases negative <;> decide +kernel

theorem clamp_e4m3 (negative : Bool) : ∀ m < 9,
    (signBit negative ||| if 7 < UInt8.ofNat m then 7 else UInt8.ofNat m) =
      signed negative (min 7 m) := by
  cases negative <;> decide +kernel

theorem clamp_e5m2 (negative : Bool) : ∀ m < 5,
    (signBit negative ||| if 3 < UInt8.ofNat m then 3 else UInt8.ofNat m) =
      signed negative (min 3 m) := by
  cases negative <;> decide +kernel

section Layouts

variable (layout : Layout) {v : ℚ}

theorem biased_nonpos_iff (positive : 0 < v) :
    Int.log 2 v + 1 - 1 + layout.bias ≤ 0 ↔ v < layout.leastNormal ℚ := by
  have below : v < layout.leastNormal ℚ ↔ Int.log 2 v < 1 - layout.bias := by
    rw [← Int.lt_zpow_iff_log_lt one_lt_two positive]
    norm_cast
  rw [below]
  omega

theorem subnormal_steps (nonneg : 0 ≤ v) (subnormal : v < layout.leastNormal ℚ) :
    0 ≤ v / layout.ulp ℚ 1 ∧ (round (v / layout.ulp ℚ 1)).toNat ≤ layout.width := by
  have positive := layout.ulp_pos ℚ 1
  have bound : v / layout.ulp ℚ 1 ≤ layout.width := by
    rw [div_le_iff₀ positive, layout.width_mul_ulp]
    exact subnormal.le
  exact ⟨div_nonneg nonneg positive.le, round_le_count bound⟩

theorem stored_zero : storedCode layout 0 = 0 := by
  have subnormal : (0 : ℚ) < layout.leastNormal ℚ := zpow_pos two_pos _
  unfold storedCode Layout.nearestCode
  rw [if_pos subnormal, if_pos subnormal, zero_div, round_zero]
  exact Nat.min_zero _

/-- What the encoders compute of a positive magnitude, and the code they store. -/
inductive EncodingSteps (layout : Layout) (v : ℚ) : Prop
  | subnormal (m : ℕ) (exponent : Int.log 2 v + 1 - 1 + layout.bias ≤ 0)
      (mantissa : toUInt8 (roundAway (v / layout.ulp ℚ 1)) = UInt8.ofNat m)
      (count : m ≤ layout.width) (code : storedCode layout v = min (layout.width - 1) m)
  | normal (field m : ℕ) (someField : 1 ≤ field)
      (exponent : Int.log 2 v + 1 - 1 + layout.bias = field)
      (mantissa : toUInt8 (roundAway ((v / 2 ^ (Int.log 2 v + 1) * 2 - 1) * layout.width)) =
        UInt8.ofNat m)
      (count : m ≤ layout.width) (code : storedCode layout v = field * layout.width + m)

theorem encoding_steps (positive : 0 < v) : EncodingSteps layout v := by
  rcases lt_or_ge v (layout.leastNormal ℚ) with subnormal | normal
  · obtain ⟨steps, count⟩ := subnormal_steps layout positive.le subnormal
    refine .subnormal _ ((biased_nonpos_iff layout positive).mpr subnormal)
      (round_away_byte steps) count ?_
    unfold storedCode Layout.nearestCode
    rw [if_pos subnormal, if_pos subnormal]
  · obtain ⟨fraction, count⟩ := fraction_bits layout positive
    obtain ⟨field, exponent⟩ := layout.normal_field_exponent normal
    refine .normal (layout.normalField v) _ field (by omega) ?_ count ?_
    · rw [norm_mant]
      exact round_away_byte fraction
    · unfold storedCode Layout.nearestCode
      rw [if_neg (not_lt.mpr normal), if_neg (not_lt.mpr normal)]

theorem stored_le {top : ℕ} (nonneg : 0 ≤ v) (bound : v ≤ layout.magnitude ℚ top) :
    storedCode layout v ≤ top := by
  have nearest := layout.nearest_code_le nonneg bound
  unfold storedCode
  split
  case isTrue => exact (Nat.min_le_right _ _).trans nearest
  case isFalse => exact nearest

end Layouts

theorem magnitude_to_e4m3 (negative : Bool) {v : ℚ} (nonneg : 0 ≤ v)
    (bound : v ≤ e4m3.magnitude ℚ 126) :
    magnitudeToE4m3 (signBit negative) v = signed negative (storedCode e4m3 v) := by
  have small := stored_le e4m3 nonneg bound
  have width : e4m3.width = 8 := rfl
  have bias : e4m3.bias = 7 := rfl
  have step : e4m3.ulp ℚ 1 = 1 / 512 := by norm_num [Layout.ulp, e4m3]
  unfold magnitudeToE4m3
  split
  case isTrue zero =>
    rw [zero, stored_zero]
    cases negative <;> rfl
  case isFalse nonzero =>
    have positive : 0 < v := lt_of_le_of_ne nonneg (Ne.symm nonzero)
    rw [frexp_positive positive]
    dsimp only
    cases encoding_steps e4m3 positive with
    | subnormal m exponent mantissa count code =>
        have scaled : v * ldexp 8 6 = v / e4m3.ulp ℚ 1 := by
          rw [step, div_div_eq_mul_div, div_one]
          norm_num [ldexp]
        rw [bias] at exponent
        rw [if_pos exponent, scaled, mantissa, code]
        exact clamp_e4m3 negative m (Nat.lt_succ_of_le count)
    | normal field m someField exponent mantissa count code =>
        rw [width] at mantissa count code
        rw [bias] at exponent
        push_cast at mantissa
        have inside : field < 16 := by omega
        have notClamped : ¬15 < (field : ℤ) := by omega
        rw [exponent, if_neg (by omega), if_neg notClamped, mantissa, code]
        exact pack_e4m3 negative field inside m (Nat.lt_succ_of_le count) someField (by omega)

theorem magnitude_to_e5m2 (negative : Bool) {v : ℚ} (nonneg : 0 ≤ v)
    (bound : v ≤ e5m2.magnitude ℚ 123) :
    magnitudeToE5m2 (signBit negative) v = signed negative (storedCode e5m2 v) := by
  have small := stored_le e5m2 nonneg bound
  have width : e5m2.width = 4 := rfl
  have bias : e5m2.bias = 15 := rfl
  have step : e5m2.ulp ℚ 1 = 1 / 65536 := by norm_num [Layout.ulp, e5m2]
  unfold magnitudeToE5m2
  split
  case isTrue zero =>
    rw [zero, stored_zero]
    cases negative <;> rfl
  case isFalse nonzero =>
    have positive : 0 < v := lt_of_le_of_ne nonneg (Ne.symm nonzero)
    rw [frexp_positive positive]
    dsimp only
    cases encoding_steps e5m2 positive with
    | subnormal m exponent mantissa count code =>
        have scaled : v * ldexp 4 14 = v / e5m2.ulp ℚ 1 := by
          rw [step, div_div_eq_mul_div, div_one]
          norm_num [ldexp]
        rw [bias] at exponent
        rw [if_pos exponent, scaled, mantissa, code]
        exact clamp_e5m2 negative m (Nat.lt_succ_of_le count)
    | normal field m someField exponent mantissa count code =>
        rw [width] at mantissa count code
        rw [bias] at exponent
        push_cast at mantissa
        have inside : field < 31 := by omega
        have notInfinite : ¬31 ≤ (field : ℤ) := by omega
        rw [exponent, if_neg (by omega), if_neg notInfinite, mantissa, code]
        exact pack_e5m2 negative field inside m (Nat.lt_succ_of_le count) someField (by omega)

/-! ## Codecs -/

def withSign (negative : Bool) (q : ℚ) : ℚ := if negative then -q else q

/-- A pair of conversions that stores the code of the clamped magnitude below the
sign bit and reads it back; the codes above `top` stand for no number. -/
structure Codec (layout : Layout) (top : ℕ) (encode : IeeeValue ℚ → UInt8)
    (decode : UInt8 → IeeeValue ℚ) : Prop where
  normals : layout.width ≤ top
  encodes : ∀ v : ℚ, encode (.finite v) =
    signed (decide (v < 0)) (storedCode layout (min |v| (layout.magnitude ℚ top)))
  decodes : ∀ negative, ∀ c < top + 1,
    decode (signed negative c) = .finite (withSign negative (layout.magnitude ℚ c))
  reserved : ∀ negative, ∀ c < 128, top < c → ¬(decode (signed negative c)).isFinite

theorem sign_bit_of (v : ℚ) : (if v < 0 then 0x80 else 0) = signBit (decide (v < 0)) := by
  unfold signBit
  simp only [decide_eq_true_eq]

theorem clamp_above (v bound : ℚ) : (if bound < |v| then bound else |v|) = min |v| bound := by
  rw [min_comm, min_def_lt]

theorem e4m3_greatest : e4m3.magnitude ℚ 126 = 448 := by decide +kernel

theorem e5m2_greatest : e5m2.magnitude ℚ 123 = 57344 := by decide +kernel

theorem e4m3_codec : Codec e4m3 126 f32ToE4m3 e4m3ToF32 where
  normals := by decide
  encodes := by
    intro v
    have nonneg : 0 ≤ min |v| (e4m3.magnitude ℚ 126) :=
      le_min (abs_nonneg v) (e4m3.magnitude_nonneg 126)
    rw [← magnitude_to_e4m3 _ nonneg (min_le_right _ _), ← clamp_above, ← sign_bit_of,
      e4m3_greatest]
    rfl
  decodes := by
    intro negative
    cases negative <;> decide +kernel
  reserved := by
    intro negative
    cases negative <;> decide +kernel

theorem e5m2_codec : Codec e5m2 123 f32ToE5m2 e5m2ToF32 where
  normals := by decide
  encodes := by
    intro v
    have nonneg : 0 ≤ min |v| (e5m2.magnitude ℚ 123) :=
      le_min (abs_nonneg v) (e5m2.magnitude_nonneg 123)
    rw [← magnitude_to_e5m2 _ nonneg (min_le_right _ _), ← clamp_above, ← sign_bit_of,
      e5m2_greatest]
    rfl
  decodes := by
    intro negative
    cases negative <;> decide +kernel
  reserved := by
    intro negative
    cases negative <;> decide +kernel

end AmpFormal.Fp8Codecs
