import TraceMath.Binary64.Basic

/-!
# Rounding to an integer

`floor`, `ceil` and `trunc` keep the sign bit, also of a zero result. From `2^52` on every number
is an integer and comes back as it is.
-/

namespace TraceMath.Binary64

/-- The magnitude from which on every number is an integer, that of `2^52`. -/
def integralMagnitude : Nat := (1023 + 52) * Magnitude.binade

/-- The integer next to a finite number on the side of zero, or on the other side. -/
def roundToIntegral (awayFromZero : Bool) (x : Binary64) : Binary64 :=
  if x.IsNaN then nan
  else if integralMagnitude ≤ x.magnitude then x
  else
    let whole := x.units / Magnitude.unitsPerOne
    let isWhole := x.units % Magnitude.unitsPerOne = 0
    ofParts x.negative (Magnitude.ofNat (if awayFromZero ∧ ¬isWhole then whole + 1 else whole))

/-- The largest integer that is not above `x`. -/
def floor (x : Binary64) : Binary64 := x.roundToIntegral x.negative

/-- The least integer that is not below `x`. -/
def ceil (x : Binary64) : Binary64 := x.roundToIntegral (!x.negative)

/-- The integer part of `x`. -/
def trunc (x : Binary64) : Binary64 := x.roundToIntegral false

end TraceMath.Binary64
