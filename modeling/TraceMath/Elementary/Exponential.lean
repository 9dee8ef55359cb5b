import TraceMath.Binary64.Arithmetic
import TraceMath.Elementary.Logarithm

/-!
# Exponential functions

`exp` is reduced by a multiple of `ln 2` to an argument below a half, where its series is summed;
the powers of two and the hyperbolic functions are formed from it.
-/

namespace TraceMath

namespace Enclosure

/-- The exponential function, as `2^k * exp r` with `a = k * ln 2 + r`. -/
def exp (p : Nat) (a : Enclosure) : Enclosure :=
  let k := a.nearestMultiple (ln2 p)
  let r := a.sub ((ln2 p).scale k)
  (series p (one p) r (fun k => k + 1) (fun _ => 1)).shift k

end Enclosure

namespace Binary64

/-- From `2^11` on every exponential function is beyond the finite range, or at its limit. -/
abbrev IsBeyondExponent (x : Binary64) : Prop := (1023 + 11) * Magnitude.binade ≤ x.magnitude

/-- The exponential function. -/
def exp (x : Binary64) : Binary64 :=
  if x.IsNaN then nan
  else if x.IsBeyondExponent then if x.negative then zero false else infinity false
  else Enclosure.settle fun p => some ((Enclosure.ofNumber p x).exp p)

/-- The power of two. An integer argument has an exact power, which is rounded as a ratio. -/
def exp2 (x : Binary64) : Binary64 :=
  if x.IsNaN then nan
  else if x.IsBeyondExponent then if x.negative then zero false else infinity false
  else if x.units % Magnitude.unitsPerOne = 0 then
    let n := x.signedUnits / Magnitude.unitsPerOne
    ofRatio false (Magnitude.unitsPerOne * Nat.pow 2 n.toNat) (Nat.pow 2 (-n).toNat)
  else
    Enclosure.settle fun p =>
      some (((Enclosure.ofNumber p x).mul p (Enclosure.ln2 p)).exp p)

/-- The hyperbolic sine, `(exp x - exp (-x)) / 2`. -/
def sinh (x : Binary64) : Binary64 :=
  if x.IsNaN then nan
  else if x.IsZero then x
  else if x.IsBeyondExponent then infinity x.negative
  else
    Enclosure.settle fun p =>
      let a := Enclosure.ofNumber p x
      some (((a.exp p).sub (a.neg.exp p)).divNat 2)

/-- The hyperbolic cosine, `(exp x + exp (-x)) / 2`. -/
def cosh (x : Binary64) : Binary64 :=
  if x.IsNaN then nan
  else if x.IsBeyondExponent then infinity false
  else
    Enclosure.settle fun p =>
      let a := Enclosure.ofNumber p x
      some (((a.exp p).add (a.neg.exp p)).divNat 2)

/-- The hyperbolic tangent, `(1 - e) / (1 + e)` with `e = exp (-2 |x|)`, and odd. -/
def tanh (x : Binary64) : Binary64 :=
  if x.IsNaN then nan
  else if x.IsZero then x
  else if x.IsBeyondExponent then ofParts x.negative one.magnitude
  else
    Enclosure.settle fun p =>
      let e := ((Enclosure.ofNumber p x.abs).scale (-2)).exp p
      let t? := (Enclosure.sub (.one p) e).quotient? p (.add (.one p) e)
      if x.negative then t?.map .neg else t?

end Binary64

end TraceMath
