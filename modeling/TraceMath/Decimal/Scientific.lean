import TraceMath.Decimal.Shortest

/-!
# Numbers in the log

The log shows a number by its shortest decimal, like any output, but so that no number looks like an
integer: with a point, or by one digit and a power of ten if the magnitude is very large or very
small.
-/

namespace TraceMath

namespace Decimal

/-- One digit in front of the point, and a power of ten. -/
def scientific (d : Decimal) : List Char :=
  match natChars d.coefficient with
  | [] => []
  | c :: cs =>
    c :: (if cs.isEmpty then [] else '.' :: cs) ++ 'e' :: intChars (d.exponent + cs.length)

/-- Without a power of ten, with at least one digit behind the point. -/
def pointed (d : Decimal) : List Char :=
  if 0 ≤ d.exponent then d.positional ++ ['.', '0'] else d.positional

end Decimal

namespace Binary64

/-- The number `10^-4`. -/
def tenThousandth : Binary64 := ⟨0x3f1a36e2eb1c432d⟩

/-- The number `10^16`. -/
def tenQuadrillions : Binary64 := ⟨0x4341c37937e08000⟩

/-- The text of a number in the log. -/
def logChars (x : Binary64) : List Char :=
  if ¬x.IsFinite then x.chars
  else
    let pointed := x.IsZero ∨
      tenThousandth.magnitude ≤ x.magnitude ∧ x.magnitude < tenQuadrillions.magnitude
    let d := Decimal.shortest x
    let unsigned := if pointed then d.pointed else d.scientific
    if x.negative then '-' :: unsigned else unsigned

end Binary64

end TraceMath
