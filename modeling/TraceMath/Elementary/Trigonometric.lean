import TraceMath.Elementary.Enclosure

/-!
# Trigonometric functions

The argument is reduced by a multiple of a quarter turn to at most an eighth of a turn. The
multiple has up to 1024 bits, and the precision of `π` has as many bits more, so nothing of a large
argument is lost.
-/

namespace TraceMath

namespace Enclosure

/-- The inverse tangent of `1 / n`. -/
def arctanInv (p n : Nat) : Enclosure :=
  let z := ofRatio p 1 n
  series p z (z.mul p z).neg (fun _ => 1) (fun k => 2 * k + 1)

/-- A quarter turn, `8 arctan (1 / 5) - 2 arctan (1 / 239)`. -/
def halfPi (p : Nat) : Enclosure := ((arctanInv p 5).scale 8).sub ((arctanInv p 239).scale 2)

/-- The sine of at most an eighth of a turn. -/
def sinSeries (p : Nat) (r : Enclosure) : Enclosure :=
  series p r (r.mul p r).neg (fun k => (2 * k + 2) * (2 * k + 3)) (fun _ => 1)

/-- The cosine of at most an eighth of a turn. -/
def cosSeries (p : Nat) (r : Enclosure) : Enclosure :=
  series p (one p) (r.mul p r).neg (fun k => (2 * k + 1) * (2 * k + 2)) (fun _ => 1)

/-- The sine and the cosine, by the quarter of the turn. -/
def sinCos (p : Nat) (a : Enclosure) : Enclosure × Enclosure :=
  let k := a.nearestMultiple (halfPi p)
  let r := a.sub ((halfPi p).scale k)
  let s := r.sinSeries p
  let c := r.cosSeries p
  match (k % 4).toNat with
  | 0 => (s, c)
  | 1 => (c, s.neg)
  | 2 => (s.neg, c.neg)
  | _ => (c.neg, s)

end Enclosure

namespace Binary64

/-- The sine. -/
def sin (x : Binary64) : Binary64 :=
  if ¬x.IsFinite then nan
  else if x.IsZero then x
  else Enclosure.settle fun p => some ((Enclosure.ofNumber p x).sinCos p).1

/-- The cosine. -/
def cos (x : Binary64) : Binary64 :=
  if ¬x.IsFinite then nan
  else Enclosure.settle fun p => some ((Enclosure.ofNumber p x).sinCos p).2

/-- The tangent. -/
def tan (x : Binary64) : Binary64 :=
  if ¬x.IsFinite then nan
  else if x.IsZero then x
  else
    Enclosure.settle fun p =>
      let (s, c) := (Enclosure.ofNumber p x).sinCos p
      s.quotient? p c

end Binary64

end TraceMath
