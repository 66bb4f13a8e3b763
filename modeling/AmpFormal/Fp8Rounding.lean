import AmpFormal.Fp8Codecs
import Mathlib.Algebra.Order.Group.MinMax

/-!
# What the FP8 conversions round to

Storing and reading back is nearest rounding to the finite values except in one
interval: between the middle of the greatest subnormal and the least normal value
and the latter, where the mantissa is clamped instead of carried. The clamp keeps
the order, so the conversions are monotone and odd everywhere.
-/

namespace AmpFormal.Fp8Rounding

open AmpFormal.ExactFloats AmpFormal.Fp8Codecs AmpFormal.Fp8Model AmpFormal.GridRounding
open AmpFormal.MinifloatGrid

set_option autoImplicit false

/-! ## The stored magnitude -/

section Magnitudes

variable (layout : Layout) {x y : ℚ}

/-- Magnitudes that should carry into the least normal value. -/
def BorderGap (x : ℚ) : Prop :=
  layout.leastNormal ℚ - layout.ulp ℚ 1 / 2 < x ∧ x < layout.leastNormal ℚ

theorem greatest_subnormal :
    layout.magnitude ℚ (layout.width - 1) = layout.leastNormal ℚ - layout.ulp ℚ 1 := by
  have positive := layout.width_pos
  have least := layout.magnitude_subnormal (K := ℚ) (le_refl layout.width)
  rw [layout.magnitude_subnormal (Nat.sub_le _ _), ← layout.magnitude_width, least,
    Nat.cast_pred positive, sub_one_mul]

theorem stored_mono (nonneg : 0 ≤ x) (ordered : x ≤ y) :
    storedCode layout x ≤ storedCode layout y := by
  have nearest := layout.nearest_code_mono nonneg ordered
  unfold storedCode
  split
  case isTrue small =>
    split
    case isTrue => exact min_le_min_left _ nearest
    case isFalse large =>
      have normal := layout.width_le_nearest_code (not_lt.mp large)
      exact (Nat.min_le_left _ _).trans ((Nat.sub_le _ _).trans normal)
  case isFalse large =>
    rw [if_neg (not_lt.mpr ((not_lt.mp large).trans ordered))]
    exact nearest

theorem stored_in_gap (gap : BorderGap layout x) : storedCode layout x = layout.width - 1 := by
  have step := layout.ulp_pos ℚ 1
  have lower : layout.magnitude ℚ (layout.width - 1) ≤ x := by
    rw [greatest_subnormal]
    linarith [gap.1]
  have nonneg := (layout.magnitude_nonneg _).trans lower
  have nearest := le_nearest layout.magnitude_strict_mono (layout.nearest_code_nearest nonneg) lower
  unfold storedCode
  rw [if_pos gap.2, Nat.min_eq_left nearest]

theorem border_step : layout.magnitude ℚ (layout.width - 1) < layout.magnitude ℚ layout.width :=
  layout.magnitude_strict_mono (Nat.sub_lt layout.width_pos Nat.one_pos)

/-- Outside of the gap the stored code is a nearest one, in a tie the lower. -/
theorem stored_nearest (nonneg : 0 ≤ x) (outside : ¬BorderGap layout x) :
    Nearest (layout.magnitude ℚ) x (storedCode layout x) := by
  have nearest := layout.nearest_code_nearest nonneg
  unfold storedCode
  split
  case isFalse => exact nearest
  case isTrue subnormal =>
    have middle : x ≤ layout.leastNormal ℚ - layout.ulp ℚ 1 / 2 := by
      by_contra above
      exact outside ⟨not_le.mp above, subnormal⟩
    rcases Nat.lt_or_ge (layout.nearestCode x) layout.width with below | carried
    · rwa [Nat.min_eq_right (Nat.le_sub_one_of_lt below)]
    · have bound : x ≤ layout.magnitude ℚ layout.width := by
        rw [layout.magnitude_width]
        exact subnormal.le
      have exact_width := Nat.le_antisymm (layout.nearest_code_le nonneg bound) carried
      rw [Nat.min_eq_left ((Nat.sub_le _ _).trans carried)]
      intro d
      have lower : |x - layout.magnitude ℚ (layout.width - 1)| ≤
          |x - layout.magnitude ℚ layout.width| := by
        apply nearer_below (border_step layout)
        rw [greatest_subnormal, layout.magnitude_width]
        linarith
      rw [exact_width] at nearest
      exact lower.trans (nearest d)

/-- Inside the gap the least normal value is nearer. -/
theorem gap_not_nearest (gap : BorderGap layout x) :
    |x - layout.magnitude ℚ layout.width| < |x - layout.magnitude ℚ (storedCode layout x)| := by
  rw [stored_in_gap layout gap]
  by_contra nearer
  have middle := below_middle (border_step layout) (not_lt.mp nearer)
  rw [greatest_subnormal, layout.magnitude_width] at middle
  linarith [gap.1]

end Magnitudes

/-! ## Signed values -/

/-- `v` clamped to `[-bound, bound]`. -/
def clamp (bound v : ℚ) : ℚ := max (-bound) (min v bound)

theorem clamp_with_sign {bound : ℚ} (nonneg : 0 ≤ bound) (v : ℚ) :
    clamp bound v = withSign (decide (v < 0)) (min |v| bound) := by
  unfold clamp
  rcases lt_or_ge v 0 with negative | positive
  · rw [decide_eq_true negative, abs_of_neg negative, min_eq_left (negative.le.trans nonneg)]
    exact (max_comm _ _).trans ((congrArg (max · (-bound)) (neg_neg v).symm).trans
      (max_neg_neg (-v) bound))
  · have within : -bound ≤ min v bound :=
      (neg_nonpos.mpr nonneg).trans (le_min positive nonneg)
    rw [decide_eq_false (not_lt.mpr positive), abs_of_nonneg positive, max_eq_right within]
    rfl

theorem abs_with_sign (negative : Bool) (x q : ℚ) :
    |withSign negative x - withSign negative q| = |x - q| := by
  cases negative with
  | false => rfl
  | true =>
      simp only [withSign, if_true, neg_sub_neg]
      exact abs_sub_comm q x

theorem le_abs_with_sign (negative other : Bool) {x q : ℚ} (xNonneg : 0 ≤ x) (qNonneg : 0 ≤ q) :
    |x - q| ≤ |withSign negative x - withSign other q| := by
  have apart : |x - q| ≤ x + q := abs_le.mpr ⟨by linarith, by linarith⟩
  cases negative <;> cases other
  · exact le_refl _
  · have sum : withSign false x - withSign true q = x + q := sub_neg_eq_add x q
    rw [sum]
    exact apart.trans (le_abs_self _)
  · have sum : withSign true x - withSign false q = -(x + q) := (neg_add' x q).symm
    rw [sum, abs_neg]
    exact apart.trans (le_abs_self _)
  · exact (abs_with_sign true x q).ge

theorem with_sign_mono {v w p q : ℚ} (ordered : v ≤ w) (pNonneg : 0 ≤ p) (qNonneg : 0 ≤ q)
    (up : 0 ≤ v → p ≤ q) (down : w < 0 → q ≤ p) :
    withSign (decide (v < 0)) p ≤ withSign (decide (w < 0)) q := by
  unfold withSign
  rcases lt_or_ge v 0 with negative | positive
  · rw [decide_eq_true negative, if_pos rfl]
    rcases lt_or_ge w 0 with below | above
    · rw [decide_eq_true below, if_pos rfl]
      exact neg_le_neg (down below)
    · rw [decide_eq_false (not_lt.mpr above), if_neg Bool.false_ne_true]
      linarith
  · rw [decide_eq_false (not_lt.mpr positive), if_neg Bool.false_ne_true,
      decide_eq_false (not_lt.mpr (positive.trans ordered)), if_neg Bool.false_ne_true]
    exact up positive

/-! ## Any codec -/

section Codecs

variable {layout : Layout} {top : ℕ} {encode : IeeeValue ℚ → UInt8} {decode : UInt8 → IeeeValue ℚ}

def clamped (layout : Layout) (top : ℕ) (v : ℚ) : ℚ := min |v| (layout.magnitude ℚ top)

def rounded (layout : Layout) (top : ℕ) (v : ℚ) : ℚ :=
  withSign (decide (v < 0)) (layout.magnitude ℚ (storedCode layout (clamped layout top v)))

theorem clamped_nonneg (v : ℚ) : 0 ≤ clamped layout top v :=
  le_min (abs_nonneg v) (layout.magnitude_nonneg top)

theorem stored_clamped_le (v : ℚ) : storedCode layout (clamped layout top v) ≤ top :=
  stored_le layout (clamped_nonneg v) (min_le_right _ _)

theorem round_trip (codec : Codec layout top encode decode) (v : ℚ) :
    decode (encode (.finite v)) = .finite (rounded layout top v) := by
  rw [codec.encodes]
  exact codec.decodes _ _ (Nat.lt_succ_of_le (stored_clamped_le v))

theorem finite_values (codec : Codec layout top encode decode) {code : UInt8} {q : ℚ}
    (read : decode code = .finite q) :
    ∃ negative, ∃ c ≤ top, q = withSign negative (layout.magnitude ℚ c) := by
  obtain ⟨negative, c, small, rfl⟩ := byte_signed code
  rcases Nat.lt_or_ge top c with above | inside
  · have reserved := codec.reserved negative c small above
    rw [read] at reserved
    exact absurd rfl reserved
  · have decoded := codec.decodes negative c (Nat.lt_succ_of_le inside)
    rw [read] at decoded
    cases decoded
    exact ⟨negative, c, inside, rfl⟩

/-- A finite value of the format of minimal distance to `x`. -/
structure NearestFinite (decode : UInt8 → IeeeValue ℚ) (x q : ℚ) : Prop where
  value : ∃ code, decode code = .finite q
  minimal : ∀ code r, decode code = .finite r → |x - q| ≤ |x - r|

/-- The gap of a clamped magnitude is the gap of the magnitude. -/
theorem clamped_gap_iff (normals : layout.width ≤ top) (v : ℚ) :
    BorderGap layout (clamped layout top v) ↔ BorderGap layout |v| := by
  have bound : layout.leastNormal ℚ ≤ layout.magnitude ℚ top := by
    rw [← layout.magnitude_width]
    exact layout.magnitude_strict_mono.monotone normals
  have step := layout.ulp_pos ℚ 1
  unfold BorderGap clamped
  rw [lt_min_iff, min_lt_iff]
  constructor
  · rintro ⟨⟨above, -⟩, below | large⟩
    · exact ⟨above, below⟩
    · exact absurd large (not_lt.mpr bound)
  · rintro ⟨above, below⟩
    exact ⟨⟨above, by linarith⟩, .inl below⟩

theorem nearest_finite_iff (codec : Codec layout top encode decode) (v : ℚ) :
    NearestFinite decode (clamp (layout.magnitude ℚ top) v) (rounded layout top v) ↔
      ¬BorderGap layout |v| := by
  have nonneg : 0 ≤ clamped layout top v := clamped_nonneg v
  rw [clamp_with_sign (layout.magnitude_nonneg top) v, ← clamped_gap_iff codec.normals v]
  constructor
  · intro nearest gap
    have decoded := codec.decodes (decide (v < 0)) layout.width (Nat.lt_succ_of_le codec.normals)
    have minimal := nearest.minimal _ _ decoded
    have nearer := gap_not_nearest layout gap
    rw [rounded, abs_with_sign, abs_with_sign] at minimal
    exact absurd minimal (not_le.mpr nearer)
  · intro outside
    refine ⟨⟨_, round_trip codec v⟩, fun code r read => ?_⟩
    obtain ⟨negative, c, -, rfl⟩ := finite_values codec read
    rw [rounded, abs_with_sign]
    exact (stored_nearest layout nonneg outside c).trans
      (le_abs_with_sign _ negative nonneg (layout.magnitude_nonneg c))

theorem round_trip_nearest_iff (codec : Codec layout top encode decode) (v : ℚ) :
    (∃ q, decode (encode (.finite v)) = .finite q ∧
      NearestFinite decode (clamp (layout.magnitude ℚ top) v) q) ↔ ¬BorderGap layout |v| := by
  rw [← nearest_finite_iff codec, round_trip codec]
  constructor
  · rintro ⟨q, read, nearest⟩
    cases read
    exact nearest
  · intro nearest
    exact ⟨_, rfl, nearest⟩

theorem rounded_mono {v w : ℚ} (ordered : v ≤ w) :
    rounded layout top v ≤ rounded layout top w := by
  have increasing := (layout.magnitude_strict_mono (K := ℚ)).monotone
  have nonneg (c : ℕ) := layout.magnitude_nonneg (K := ℚ) c
  have further {a b : ℚ} (smaller : |a| ≤ |b|) :
      layout.magnitude ℚ (storedCode layout (clamped layout top a)) ≤
        layout.magnitude ℚ (storedCode layout (clamped layout top b)) :=
    increasing (stored_mono layout (clamped_nonneg a) (min_le_min_right _ smaller))
  apply with_sign_mono ordered (nonneg _) (nonneg _)
  · intro positive
    exact further (abs_le_abs_of_nonneg positive ordered)
  · intro negative
    exact further (abs_le_abs_of_nonpos negative.le ordered)

theorem rounded_neg (v : ℚ) : rounded layout top (-v) = -rounded layout top v := by
  unfold rounded clamped
  rw [abs_neg]
  rcases lt_trichotomy v 0 with negative | rfl | positive
  · rw [decide_eq_true negative, decide_eq_false (by linarith)]
    exact (neg_neg _).symm
  · have zero : min |(0 : ℚ)| (layout.magnitude ℚ top) = 0 := by
      rw [abs_zero]
      exact min_eq_left (layout.magnitude_nonneg top)
    rw [neg_zero, zero, stored_zero, Layout.magnitude_zero]
    rfl
  · rw [decide_eq_false (not_lt.mpr positive.le), decide_eq_true (by linarith)]
    rfl

/-- Storing and reading back keeps the order and the sign of all finite values. -/
structure MonotoneOdd (encode : IeeeValue ℚ → UInt8) (decode : UInt8 → IeeeValue ℚ) : Prop where
  finite : ∀ v : ℚ, (decode (encode (.finite v))).isFinite
  monotone : ∀ v w p q : ℚ, v ≤ w → decode (encode (.finite v)) = .finite p →
    decode (encode (.finite w)) = .finite q → p ≤ q
  odd : ∀ v q : ℚ, decode (encode (.finite v)) = .finite q →
    decode (encode (.finite (-v))) = .finite (-q)

theorem monotone_odd (codec : Codec layout top encode decode) : MonotoneOdd encode decode where
  finite := by
    intro v
    rw [round_trip codec]
    rfl
  monotone := by
    intro v w p q ordered first second
    rw [round_trip codec] at first second
    cases first
    cases second
    exact rounded_mono ordered
  odd := by
    intro v q read
    rw [round_trip codec] at read ⊢
    cases read
    rw [rounded_neg]

end Codecs

/-! ## The two formats -/

theorem e4m3_gap : BorderGap e4m3 = fun x => 15 / 1024 < x ∧ x < 1 / 64 := by
  have lower : e4m3.leastNormal ℚ - e4m3.ulp ℚ 1 / 2 = 15 / 1024 := by decide +kernel
  have upper : e4m3.leastNormal ℚ = 1 / 64 := by decide +kernel
  funext x
  rw [BorderGap, lower, upper]

theorem e5m2_gap : BorderGap e5m2 = fun x => 7 / 131072 < x ∧ x < 1 / 16384 := by
  have lower : e5m2.leastNormal ℚ - e5m2.ulp ℚ 1 / 2 = 7 / 131072 := by decide +kernel
  have upper : e5m2.leastNormal ℚ = 1 / 16384 := by decide +kernel
  funext x
  rw [BorderGap, lower, upper]

/-- The nearest finite value is read back, to the clamped argument, unless its
magnitude lies in the gap below the least normal value of the format. -/
theorem fp8_nearest_iff (v : ℚ) :
    ((∃ q, e4m3ToF32 (f32ToE4m3 (.finite v)) = .finite q ∧
        NearestFinite e4m3ToF32 (clamp 448 v) q) ↔ ¬(15 / 1024 < |v| ∧ |v| < 1 / 64)) ∧
    ((∃ q, e5m2ToF32 (f32ToE5m2 (.finite v)) = .finite q ∧
        NearestFinite e5m2ToF32 (clamp 57344 v) q) ↔
      ¬(7 / 131072 < |v| ∧ |v| < 1 / 16384)) := by
  have first := round_trip_nearest_iff e4m3_codec v
  have second := round_trip_nearest_iff e5m2_codec v
  rw [e4m3_greatest, e4m3_gap] at first
  rw [e5m2_greatest, e5m2_gap] at second
  exact ⟨first, second⟩

/-- Between 7/512 and 1/64, nearer to the latter, and read back as the former. -/
theorem border_rounds_down :
    ¬∀ v : ℚ, (∃ q, e4m3ToF32 (f32ToE4m3 (.finite v)) = .finite q ∧
        NearestFinite e4m3ToF32 (clamp 448 v) q) ∧
      ∃ q, e5m2ToF32 (f32ToE5m2 (.finite v)) = .finite q ∧
        NearestFinite e5m2ToF32 (clamp 57344 v) q := by
  intro always
  obtain ⟨⟨q, read, nearest⟩, -⟩ := always (31 / 2048)
  have stored : e4m3ToF32 (f32ToE4m3 (.finite (31 / 2048))) = .finite (7 / 512) := by
    decide +kernel
  rw [stored] at read
  cases read
  have nearer := nearest.minimal 8 (1 / 64) (by decide +kernel)
  exact absurd nearer (by decide +kernel)

/-- Both conversions are monotone and odd on all finite values and give finite ones. -/
theorem fp8_monotone_odd :
    MonotoneOdd f32ToE4m3 e4m3ToF32 ∧ MonotoneOdd f32ToE5m2 e5m2ToF32 :=
  ⟨monotone_odd e4m3_codec, monotone_odd e5m2_codec⟩

end AmpFormal.Fp8Rounding
