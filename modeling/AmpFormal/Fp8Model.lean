import AmpFormal.ExactFloats
import Mathlib.Data.Int.Log
import Mathlib.Data.Rat.Floor

/-!
# The FP8 conversions

A transcription of `fp8.hpp`. A `float` is an exact number, an infinity or NaN; the
operations on it that occur here are exact, and a zero has no sign. Integers are
promoted to `int` and come back to `uint8_t` unchanged, so all of them are bytes.
-/

namespace AmpFormal.Fp8Model

open AmpFormal.ExactFloats

set_option autoImplicit false

/-! ## The C library -/

/-- `std::frexp`: a fraction of magnitude in [1/2, 1) and an exponent. -/
def frexp (v : ℚ) : ℚ × ℤ :=
  if v = 0 then (0, 0)
  else
    let exp := Int.log 2 |v| + 1
    (v / 2 ^ exp, exp)

def ldexp (v : ℚ) (exp : ℤ) : ℚ := v * 2 ^ exp

/-- `std::round`: halfway cases go away from 0. -/
def roundAway (v : ℚ) : ℤ := if v < 0 then -⌊1 / 2 - v⌋ else ⌊v + 1 / 2⌋

/-- The conversion of an integral value from 0 to 255 to `uint8_t`. -/
def toUInt8 (n : ℤ) : UInt8 := UInt8.ofNat n.toNat

/-! ## E4M3: bias 7, no infinity -/

def e4m3ToF32 (v : UInt8) : IeeeValue ℚ :=
  let sign := (v >>> 7) &&& 1
  let exp := (v >>> 3) &&& 0xF
  let mant := v &&& 0x7
  let result : IeeeValue ℚ :=
    if exp = 0 ∧ mant = 0 then .finite 0
    else if exp = 0xF ∧ mant = 0x7 then .nan
    else if exp = 0 then .finite (ldexp (mant.toNat / 8) (-6))
    else .finite (ldexp (1 + mant.toNat / 8) (exp.toNat - 7))
  if sign ≠ 0 then result.neg else result

/-- From the rounded mantissa on: the carry, the reserved pattern and the fields. -/
def packE4m3 (sign e m : UInt8) : UInt8 :=
  let (m, e) := if 8 ≤ m then (0, e + 1) else (m, e)
  if 15 < e ∨ (e = 15 ∧ 7 ≤ m) then sign ||| 0x7E else sign ||| (e <<< 3) ||| m

def magnitudeToE4m3 (sign : UInt8) (v : ℚ) : UInt8 :=
  if v = 0 then sign
  else
    let (frac, exp) := frexp v
    let biased := exp - 1 + 7
    if biased ≤ 0 then
      -- subnormal
      let mant := toUInt8 (roundAway (v * ldexp 8 6))
      let mant := if 7 < mant then 7 else mant
      sign ||| mant
    else
      let e := toUInt8 (if 15 < biased then 15 else biased)
      let normMant := frac * 2 - 1
      packE4m3 sign e (toUInt8 (roundAway (normMant * 8)))

def f32ToE4m3 : IeeeValue ℚ → UInt8
  | .nan => 0x7F
  | .negInf => magnitudeToE4m3 0x80 448
  | .posInf => magnitudeToE4m3 0 448
  | .finite v => magnitudeToE4m3 (if v < 0 then 0x80 else 0) (if 448 < |v| then 448 else |v|)

/-! ## E5M2: bias 15, with infinities -/

def e5m2ToF32 (v : UInt8) : IeeeValue ℚ :=
  let sign := (v >>> 7) &&& 1
  let exp := (v >>> 2) &&& 0x1F
  let mant := v &&& 0x3
  let result : IeeeValue ℚ :=
    if exp = 0x1F then if mant = 0 then .posInf else .nan
    else if exp = 0 ∧ mant = 0 then .finite 0
    else if exp = 0 then .finite (ldexp (mant.toNat / 4) (-14))
    else .finite (ldexp (1 + mant.toNat / 4) (exp.toNat - 15))
  if sign ≠ 0 then result.neg else result

def packE5m2 (sign e m : UInt8) : UInt8 :=
  let (m, e) := if 4 ≤ m then (0, e + 1) else (m, e)
  if 31 ≤ e then sign ||| 0x7C else sign ||| (e <<< 2) ||| m

def magnitudeToE5m2 (sign : UInt8) (v : ℚ) : UInt8 :=
  if v = 0 then sign
  else
    let (frac, exp) := frexp v
    let biased := exp - 1 + 15
    if biased ≤ 0 then
      let mant := toUInt8 (roundAway (v * ldexp 4 14))
      let mant := if 3 < mant then 3 else mant
      sign ||| mant
    else if 31 ≤ biased then sign ||| 0x7C
    else
      let normMant := frac * 2 - 1
      packE5m2 sign (toUInt8 biased) (toUInt8 (roundAway (normMant * 4)))

def f32ToE5m2 : IeeeValue ℚ → UInt8
  | .nan => 0x7F
  | .negInf => 0x80 ||| 0x7C
  | .posInf => 0x7C
  | .finite v =>
      magnitudeToE5m2 (if v < 0 then 0x80 else 0) (if 57344 < |v| then 57344 else |v|)

end AmpFormal.Fp8Model
