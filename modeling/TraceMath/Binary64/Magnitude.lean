/-!
# Magnitudes of binary64 numbers

A magnitude is the lower 63 bits of a binary64 word, as a natural number: eleven exponent bits
above 52 fraction bits. Finite magnitudes are measured in *units* of `2^-1074`, the least
positive one, so that every finite value is a natural number of units.

* `units` grows strictly with the magnitude up to `infinity`, and has the value that one more
  binade would have there. So the order of finite values is the order of their codes, and the
  point where rounding leaves the finite range is the midpoint below `infinity` like any other.
* `ofRatio` rounds an exact quotient to the nearest magnitude, a tie to the even code. Products,
  quotients, square roots, decimal literals and enclosures all round through it.
-/

namespace TraceMath.Magnitude

/-- Units in the number one. -/
def unitsPerOne : Nat := Nat.pow 2 1074

/-- Magnitudes with one exponent: `2^52`. -/
def binade : Nat := 0x10000000000000

/-- The value of the sign bit, `2^63`; magnitudes are below it. -/
def signBit : Nat := 0x8000000000000000

/-- The magnitude of infinity; larger magnitudes are those of NaN words. -/
def infinity : Nat := 2047 * binade

/-- The value of a finite magnitude, in units of `2^-1074`. -/
def units (m : Nat) : Nat :=
  if m < binade then m else (binade + m % binade) * Nat.pow 2 (m / binade - 1)

/-- The natural number nearest to `num / den`; of two equally near ones the even one. -/
def nearestEven (num den : Nat) : Nat :=
  let q := num / den
  let r := num % den
  if 2 * r < den ∨ (2 * r = den ∧ q % 2 = 0) then q else q + 1

/-- The magnitude nearest to `num / den` units, ties to even, from half a unit above the largest
finite value on `infinity`. With `e` the number of bits by which the quotient exceeds 53, the
significand is the quotient by `2^e`, and `e * 2^52` puts it into its binade; a significand that
is rounded up to `2^53` is the first of the next binade by itself. -/
def ofRatio (num den : Nat) : Nat :=
  let e := (num / den).log2 - 52
  min infinity (e * binade + nearestEven num (den * Nat.pow 2 e))

/-- The magnitude nearest to the natural number `n`. -/
def ofNat (n : Nat) : Nat := ofRatio (n * unitsPerOne) 1

@[simp] theorem ofRatio_le_infinity (num den : Nat) : ofRatio num den ≤ infinity :=
  Nat.min_le_left _ _

@[simp] theorem infinity_lt : infinity < signBit := by decide

@[simp] theorem ofRatio_lt (num den : Nat) : ofRatio num den < signBit :=
  Nat.lt_of_le_of_lt (ofRatio_le_infinity num den) infinity_lt

end TraceMath.Magnitude
