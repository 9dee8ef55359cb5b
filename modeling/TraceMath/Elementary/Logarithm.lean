import TraceMath.Elementary.Enclosure

/-!
# Logarithms

A positive number is a power of two times a number from one up to two, and the logarithm of the
latter is `2 artanh ((f - 1) / (f + 1))`. The logarithms to other bases are quotients; where they
are integers, they are found exactly, as no enclosure of one could be rounded near a tie.
-/

namespace TraceMath

namespace Enclosure

/-- The inverse hyperbolic tangent of at most a third. -/
def artanh (p : Nat) (a : Enclosure) : Enclosure :=
  series p a (a.mul p a) (fun _ => 1) (fun k => 2 * k + 1)

/-- The natural logarithm of two, `2 artanh (1 / 3)`. -/
def ln2 (p : Nat) : Enclosure := ((ofRatio p 1 3).artanh p).scale 2

/-- The natural logarithm of a positive natural number. -/
def lnNat (p n : Nat) : Enclosure :=
  let e := n.log2
  let z := ofRatio p (n - Nat.pow 2 e) (n + Nat.pow 2 e)
  ((z.artanh p).scale 2).add ((ln2 p).scale e)

/-- The natural logarithm of a positive number of units. -/
def lnUnits (p units : Nat) : Enclosure := (lnNat p units).sub ((ln2 p).scale 1074)

end Enclosure

namespace Binary64

/-- A logarithm: the special values, the positive numbers of units where it is an integer, and an
enclosure elsewhere. -/
def logarithm (integer? : Nat → Option Int) (evaluate : Nat → Nat → Option Enclosure)
    (x : Binary64) : Binary64 :=
  if x.IsNaN then nan
  else if x.IsZero then infinity true
  else if x.negative then nan
  else if x.IsInfinite then x
  else
    match integer? x.units with
    | some n => ofInt n
    | none => Enclosure.settle fun p => evaluate p x.units

/-- The natural logarithm. -/
def log : Binary64 → Binary64 :=
  logarithm (fun units => if units = Magnitude.unitsPerOne then some 0 else none)
    fun p units => some (Enclosure.lnUnits p units)

/-- The logarithm to base two; an integer at every power of two. -/
def log2 : Binary64 → Binary64 :=
  logarithm (fun units => if units = Nat.pow 2 units.log2 then some (units.log2 - 1074) else none)
    fun p units => (Enclosure.lnUnits p units).quotient? p (Enclosure.ln2 p)

/-- The logarithm to base ten; an integer at the powers of ten, of which `10^22` is the largest
binary64 number. -/
def log10 : Binary64 → Binary64 :=
  logarithm
    (fun units =>
      ((List.range 23).find? fun k => units = Nat.pow 10 k * Magnitude.unitsPerOne).map Int.ofNat)
    fun p units => (Enclosure.lnUnits p units).quotient? p (Enclosure.lnNat p 10)

end Binary64

end TraceMath
