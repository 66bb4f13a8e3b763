import AmpFormal.GridRounding
import Mathlib.Data.Int.Log

/-!
# The magnitudes of a small floating-point format

A magnitude is a code: the exponent field above the fraction bits. Counting codes
up goes through the magnitudes in order, with a carry from the fraction to the
exponent, and the codes of one exponent are evenly spaced; so are the subnormal
ones up to the least normal. Rounding therefore adds the rounded fraction to the
exponent field and lets it carry.
-/

namespace AmpFormal.MinifloatGrid

open AmpFormal.GridRounding

set_option autoImplicit false

structure Layout where
  fractionBits : ℕ
  bias : ℤ
  deriving DecidableEq, Repr

namespace Layout

variable (layout : Layout)

def width : ℕ := 2 ^ layout.fractionBits

/-- The fraction with its leading bit, which the subnormals do not have. -/
def significand (c : ℕ) : ℕ := if c < layout.width then c else layout.width + c % layout.width

def exponent (c : ℕ) : ℤ := max 1 (c / layout.width : ℕ)

variable (K : Type*) [Field K]

def ulp (e : ℤ) : K := 2 ^ (e - layout.bias - layout.fractionBits)

def magnitude (c : ℕ) : K := layout.significand c * layout.ulp K (layout.exponent c)

def leastNormal : K := 2 ^ (1 - layout.bias)

theorem width_pos : 0 < layout.width := Nat.two_pow_pos _

variable {K}

theorem magnitude_subnormal {c : ℕ} (small : c ≤ layout.width) :
    layout.magnitude K c = c * layout.ulp K 1 := by
  rcases Nat.lt_or_eq_of_le small with below | rfl
  · have field : c / layout.width = 0 := Nat.div_eq_of_lt below
    unfold magnitude significand exponent
    rw [if_pos below, field]
    rfl
  · have field : layout.width / layout.width = 1 := Nat.div_self layout.width_pos
    unfold magnitude significand exponent
    rw [if_neg (lt_irrefl _), field, Nat.mod_self]
    rfl

theorem magnitude_normal {e j : ℕ} (normal : 1 ≤ e) (inside : j < layout.width) :
    layout.magnitude K (e * layout.width + j) = (layout.width + j) * layout.ulp K e := by
  have large : ¬e * layout.width + j < layout.width := by nlinarith
  have field : (e * layout.width + j) / layout.width = e := by
    rw [Nat.add_comm, Nat.add_mul_div_right _ _ layout.width_pos, Nat.div_eq_of_lt inside,
      Nat.zero_add]
  have fraction : (e * layout.width + j) % layout.width = j := by
    rw [Nat.add_comm, Nat.add_mul_mod_self_right, Nat.mod_eq_of_lt inside]
  have exponent : max (1 : ℤ) e = e := max_eq_right (by exact_mod_cast normal)
  unfold magnitude significand Layout.exponent
  rw [if_neg large, field, fraction, exponent, Nat.cast_add]

@[simp] theorem magnitude_zero : layout.magnitude K 0 = 0 := by
  rw [layout.magnitude_subnormal (Nat.zero_le _), Nat.cast_zero, zero_mul]

variable (K) [LinearOrder K] [IsStrictOrderedRing K]

theorem ulp_pos (e : ℤ) : 0 < layout.ulp K e := zpow_pos two_pos _

theorem ulp_succ (e : ℤ) : layout.ulp K (e + 1) = 2 * layout.ulp K e := by
  have shifted : e + 1 - layout.bias - layout.fractionBits =
      1 + (e - layout.bias - layout.fractionBits) := by ring
  unfold ulp
  rw [shifted, zpow_one_add₀ two_ne_zero]

theorem width_mul_ulp (e : ℤ) : layout.width * layout.ulp K e = 2 ^ (e - layout.bias) := by
  have split : e - layout.bias = layout.fractionBits + (e - layout.bias - layout.fractionBits) := by
    ring
  unfold width ulp
  rw [split, zpow_add₀ two_ne_zero, zpow_natCast, Nat.cast_pow, Nat.cast_ofNat]
  congr 2
  ring

/-! ## The two kinds of stretches -/

variable {K}

theorem subnormals_spaced :
    EvenlySpaced (layout.magnitude K) 0 layout.width (layout.ulp K 1) where
  positive := layout.ulp_pos K 1
  spaced := by
    intro j small
    rw [Nat.zero_add, layout.magnitude_subnormal small,
      layout.magnitude_subnormal (Nat.zero_le _)]
    simp

theorem normals_spaced {e : ℕ} (normal : 1 ≤ e) :
    EvenlySpaced (layout.magnitude K) (e * layout.width) layout.width (layout.ulp K e) where
  positive := layout.ulp_pos K e
  spaced := by
    intro j small
    have first := layout.magnitude_normal (K := K) normal layout.width_pos
    rw [Nat.add_zero] at first
    rw [first]
    rcases Nat.lt_or_eq_of_le small with below | rfl
    · rw [layout.magnitude_normal normal below]
      push_cast
      ring
    · have next := layout.magnitude_normal (K := K) (Nat.le_succ_of_le normal) layout.width_pos
      rw [Nat.add_zero, Nat.succ_mul] at next
      rw [next, Nat.cast_succ, ulp_succ]
      push_cast
      ring

/-- Every code lies on a stretch, so the magnitudes increase with the codes. -/
theorem magnitude_strict_mono : StrictMono (layout.magnitude K) := by
  apply strictMono_nat_of_lt_succ
  intro c
  rcases Nat.lt_or_ge c layout.width with subnormal | normal
  · have increases := (layout.subnormals_spaced (K := K)).increases subnormal
    rwa [Nat.zero_add] at increases
  · have field : 1 ≤ c / layout.width := Nat.div_pos normal layout.width_pos
    have fraction : c % layout.width < layout.width := Nat.mod_lt c layout.width_pos
    have increases := (layout.normals_spaced (K := K) field).increases fraction
    rwa [Nat.mul_comm, Nat.div_add_mod] at increases

theorem magnitude_nonneg (c : ℕ) : 0 ≤ layout.magnitude K c := by
  rw [← layout.magnitude_zero]
  exact layout.magnitude_strict_mono.monotone (Nat.zero_le c)

theorem magnitude_binade {e : ℕ} (normal : 1 ≤ e) :
    layout.magnitude K (e * layout.width) = 2 ^ ((e : ℤ) - layout.bias) := by
  have first := layout.magnitude_normal (K := K) normal layout.width_pos
  rw [Nat.add_zero, Nat.cast_zero, add_zero, width_mul_ulp] at first
  exact first

theorem magnitude_width : layout.magnitude K layout.width = layout.leastNormal K := by
  have first := layout.magnitude_binade (K := K) (le_refl 1)
  rwa [Nat.one_mul] at first

/-! ## Encoding -/

variable [FloorRing K]

def normalField (x : K) : ℕ := (Int.log 2 x + layout.bias).toNat

/-- The code nearest to a magnitude: the number of the least steps below the least
normal one, and above it the exponent field and the rounded fraction, added. -/
def nearestCode (x : K) : ℕ :=
  if x < layout.leastNormal K then (round (x / layout.ulp K 1)).toNat
  else
    layout.normalField x * layout.width + (round ((x / 2 ^ Int.log 2 x - 1) * layout.width)).toNat

theorem normal_field_exponent {x : K} (normal : layout.leastNormal K ≤ x) :
    1 ≤ layout.normalField x ∧ (layout.normalField x : ℤ) - layout.bias = Int.log 2 x := by
  have positive : 0 < x := lt_of_lt_of_le (zpow_pos two_pos _) normal
  have exponent : 1 - layout.bias ≤ Int.log 2 x :=
    (Int.zpow_le_iff_le_log one_lt_two positive).mp (by exact_mod_cast normal)
  unfold normalField
  omega

theorem nearest_code_subnormal {x : K} (nonneg : 0 ≤ x) (subnormal : x ≤ layout.leastNormal K) :
    Nearest (layout.magnitude K) x (round (x / layout.ulp K 1)).toNat := by
  have lower : layout.magnitude K 0 ≤ x := by rwa [magnitude_zero]
  have upper : x ≤ layout.magnitude K (0 + layout.width) := by
    rw [Nat.zero_add, layout.magnitude_width]
    exact subnormal
  have nearest := layout.subnormals_spaced.nearest_round layout.magnitude_strict_mono lower upper
  rwa [magnitude_zero, sub_zero, Nat.zero_add] at nearest

theorem nearest_code_normal {x : K} (normal : layout.leastNormal K ≤ x) :
    Nearest (layout.magnitude K) x (layout.normalField x * layout.width +
      (round ((x / 2 ^ Int.log 2 x - 1) * layout.width)).toNat) := by
  have positive : 0 < x := lt_of_lt_of_le (zpow_pos two_pos _) normal
  obtain ⟨field, exponent⟩ := layout.normal_field_exponent normal
  have power : (0 : K) < 2 ^ Int.log 2 x := zpow_pos two_pos _
  have first := layout.magnitude_binade (K := K) field
  rw [exponent] at first
  have next := layout.magnitude_binade (K := K) (Nat.le_succ_of_le field)
  have shifted : ((layout.normalField x + 1 : ℕ) : ℤ) - layout.bias = Int.log 2 x + 1 := by omega
  rw [shifted, Nat.succ_mul] at next
  have lower : layout.magnitude K (layout.normalField x * layout.width) ≤ x := by
    rw [first]
    exact_mod_cast Int.zpow_log_le_self one_lt_two positive
  have upper : x ≤ layout.magnitude K (layout.normalField x * layout.width + layout.width) := by
    rw [next]
    exact_mod_cast (Int.lt_zpow_succ_log_self one_lt_two x).le
  have steps : (x - 2 ^ Int.log 2 x) / layout.ulp K (layout.normalField x) =
      (x / 2 ^ Int.log 2 x - 1) * layout.width := by
    have spacing := layout.width_mul_ulp K (layout.normalField x)
    have nonzero := (layout.ulp_pos K (layout.normalField x)).ne'
    rw [exponent] at spacing
    rw [div_eq_iff nonzero, mul_assoc, spacing]
    field_simp
  have nearest := (layout.normals_spaced field).nearest_round layout.magnitude_strict_mono
    lower upper
  rwa [first, steps] at nearest

theorem nearest_code_nearest {x : K} (nonneg : 0 ≤ x) :
    Nearest (layout.magnitude K) x (layout.nearestCode x) := by
  unfold nearestCode
  split
  case isTrue subnormal => exact layout.nearest_code_subnormal nonneg subnormal.le
  case isFalse normal => exact layout.nearest_code_normal (not_lt.mp normal)

theorem nearest_code_mono {x y : K} (nonneg : 0 ≤ x) (ordered : x ≤ y) :
    layout.nearestCode x ≤ layout.nearestCode y := by
  rcases ordered.eq_or_lt with rfl | less
  · exact le_refl _
  · exact nearest_mono layout.magnitude_strict_mono (layout.nearest_code_nearest nonneg)
      (layout.nearest_code_nearest (nonneg.trans ordered)) less

theorem nearest_code_le {x : K} {d : ℕ} (nonneg : 0 ≤ x) (bound : x ≤ layout.magnitude K d) :
    layout.nearestCode x ≤ d :=
  nearest_le layout.magnitude_strict_mono (layout.nearest_code_nearest nonneg) bound

theorem width_le_nearest_code {x : K} (normal : layout.leastNormal K ≤ x) :
    layout.width ≤ layout.nearestCode x := by
  rw [← layout.magnitude_width] at normal
  have nonneg : 0 ≤ x := (layout.magnitude_nonneg _).trans normal
  exact le_nearest layout.magnitude_strict_mono (layout.nearest_code_nearest nonneg) normal

end Layout

end AmpFormal.MinifloatGrid
