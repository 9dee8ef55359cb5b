import TraceMath.Binary64.Basic

/-!
# Product, quotient and square root

Each operation is the exact result, rounded once to nearest, ties to even, by
`Magnitude.ofRatio`; where there is none (a NaN operand, `0 * ∞`, `0 / 0`, `∞ / ∞`, the root of a
negative number) the result is `nan`.
-/

namespace TraceMath

/-- The largest `r` with `r * r ≤ n`: the root of `n / 4`, doubled, and one more if that fits. -/
def floorSqrt (n : Nat) : Nat :=
  if n < 2 then n
  else
    let r := 2 * floorSqrt (n / 4)
    if (r + 1) * (r + 1) ≤ n then r + 1 else r
termination_by n

namespace Binary64

/-- The product, correctly rounded. -/
def mul (x y : Binary64) : Binary64 :=
  let negative := x.negative != y.negative
  if x.IsNaN ∨ y.IsNaN then nan
  else if x.IsInfinite ∨ y.IsInfinite then
    if x.IsZero ∨ y.IsZero then nan else infinity negative
  else ofRatio negative (x.units * y.units) Magnitude.unitsPerOne

instance : Mul Binary64 := ⟨mul⟩

/-- The quotient, correctly rounded; a number over zero is infinite. -/
def div (x y : Binary64) : Binary64 :=
  let negative := x.negative != y.negative
  if x.IsNaN ∨ y.IsNaN then nan
  else if x.IsInfinite then if y.IsInfinite then nan else infinity negative
  else if y.IsInfinite then zero negative
  else if y.IsZero then if x.IsZero then nan else infinity negative
  else ofRatio negative (x.units * Magnitude.unitsPerOne) y.units

instance : Div Binary64 := ⟨div⟩

/-- The square root, correctly rounded. The integer root of the scaled value has more than 500
bits, so one more bit, set if the root is not exact, decides every rounding. -/
def sqrt (x : Binary64) : Binary64 :=
  if x.IsNaN then nan
  else if x.IsZero then x
  else if x.negative then nan
  else if x.IsInfinite then x
  else
    let n := x.units * Magnitude.unitsPerOne
    let r := floorSqrt n
    ofRatio false (2 * r + if r * r = n then 0 else 1) 2

end Binary64

end TraceMath
