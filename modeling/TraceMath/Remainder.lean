import TraceMath.Fault
import TraceMath.Word

/-!
# Floored remainder

The remainder that has the sign of the divisor, computed on the magnitudes of the operands in
words of 32 bits, as generated code does.
-/

namespace TraceMath

/-- The remainder of the floored division `a / b`, for `b ≠ 0`. The remainder of the magnitudes
is moved by `|b|` if the signs differ, and is then given the sign of `b`. -/
def floorRem (a b : Int32) : Int32 :=
  let y := absWord a % absWord b
  let y := if y ≠ 0 ∧ (a ^^^ b) < 0 then y - absWord b else y
  let y := if (y.toInt32 ^^^ b) < 0 then -y else y
  y.toInt32

/-- The floored remainder with its contract: the divisor is not zero. -/
def checkedRem (a b : Int32) : Checked Int32 :=
  if b = 0 then .error .zeroDivisor else .ok (floorRem a b)

theorem checkedRem_eq_ok (a : Int32) {b : Int32} (h : b ≠ 0) :
    checkedRem a b = .ok (floorRem a b) :=
  if_neg h

end TraceMath
