import TraceMath.Binary64.Basic

/-!
# Enclosures of real numbers

An enclosure at precision `p` is a pair of integers; it stands for the reals between `lo * 2^-p`
and `hi * 2^-p`. Every operation rounds its ends outwards, so that the exact result of reals from
the operands lies in the result.

* `round?` gives the binary64 number to which both ends round, if they agree: it is then the
  correct rounding of every real in the enclosure.
* `settle` repeats an evaluation at growing precision until its ends agree.
-/

namespace TraceMath

/-- The reals from `lo` to `hi`, in units of `2^-p` at the precision `p` of the context. -/
structure Enclosure where
  lo : Int
  hi : Int
deriving DecidableEq, Repr

namespace Enclosure

/-! ## Operations -/

/-- The quotient by a positive divisor, rounded down. -/
def floorDiv (a : Int) (n : Nat) : Int := a / n

/-- The quotient by a positive divisor, rounded up. -/
def ceilDiv (a : Int) (n : Nat) : Int := -(-a / n)

/-- The ends of a real `num / den`. -/
def ofRatio (p : Nat) (num : Int) (den : Nat) : Enclosure :=
  ⟨floorDiv (num * Nat.pow 2 p) den, ceilDiv (num * Nat.pow 2 p) den⟩

/-- The value of a finite number; exact from precision 1074 on. -/
def ofNumber (p : Nat) (x : Binary64) : Enclosure :=
  ofRatio p x.signedUnits Magnitude.unitsPerOne

def one (p : Nat) : Enclosure := ofRatio p 1 1

def add (a b : Enclosure) : Enclosure := ⟨a.lo + b.lo, a.hi + b.hi⟩

def neg (a : Enclosure) : Enclosure := ⟨-a.hi, -a.lo⟩

def sub (a b : Enclosure) : Enclosure := a.add b.neg

/-- Moves each end outwards by `n` units. -/
def widen (a : Enclosure) (n : Nat) : Enclosure := ⟨a.lo - n, a.hi + n⟩

/-- The larger of the absolute values of the ends. -/
def bound (a : Enclosure) : Nat := max a.lo.natAbs a.hi.natAbs

/-- The least and the greatest of four products or quotients of ends, rounded outwards. -/
def hull (a b c d : Int) (down up : Int → Int) : Enclosure :=
  ⟨down (min (min a b) (min c d)), up (max (max a b) (max c d))⟩

def mul (p : Nat) (a b : Enclosure) : Enclosure :=
  hull (a.lo * b.lo) (a.lo * b.hi) (a.hi * b.lo) (a.hi * b.hi)
    (floorDiv · (Nat.pow 2 p)) (ceilDiv · (Nat.pow 2 p))

/-- The product with an integer, exact. -/
def scale (n : Int) (a : Enclosure) : Enclosure :=
  ⟨min (n * a.lo) (n * a.hi), max (n * a.lo) (n * a.hi)⟩

/-- The quotient by a positive natural number. -/
def divNat (a : Enclosure) (n : Nat) : Enclosure := ⟨floorDiv a.lo n, ceilDiv a.hi n⟩

/-- The product with `2^k`. -/
def shift (a : Enclosure) (k : Int) : Enclosure :=
  if 0 ≤ k then a.scale (Nat.pow 2 k.toNat) else a.divNat (Nat.pow 2 (-k).toNat)

/-- The reciprocal of an enclosure that does not hold zero. -/
def reciprocal? (p : Nat) (a : Enclosure) : Option Enclosure :=
  let one : Nat := Nat.pow 4 p
  if 0 < a.lo then some ⟨floorDiv one a.hi.toNat, ceilDiv one a.lo.toNat⟩
  else if a.hi < 0 then some ⟨-ceilDiv one (-a.hi).toNat, -floorDiv one (-a.lo).toNat⟩
  else none

/-- The quotient by an enclosure that does not hold zero. -/
def quotient? (p : Nat) (a b : Enclosure) : Option Enclosure := (b.reciprocal? p).map (a.mul p)

/-- The integer nearest to the quotient of `a` and a positive `b`. It is computed from the lower
ends, which is enough for a reduction: any integer near the quotient will do. -/
def nearestMultiple (a b : Enclosure) : Int := (2 * a.lo / b.lo + 1) / 2

/-! ## Power series -/

/-- The sum of the terms from the `k`th on, added to `sum`. The `k`th term is `power` over
`weight k`, and the next `power` is `power * factor / ratio k`. Where these grow by at most a half
per step, the terms left out add up to at most twice the last power. -/
def seriesFrom (p : Nat) (factor : Enclosure) (ratio weight : Nat → Nat) :
    Nat → Nat → Enclosure → Enclosure → Enclosure
  | 0, _, power, sum => sum.widen (2 * power.bound)
  | fuel + 1, k, power, sum =>
    if power.bound ≤ 1 then sum.widen 2
    else
      seriesFrom p factor ratio weight fuel (k + 1) ((power.mul p factor).divNat (ratio k))
        (sum.add (power.divNat (weight k)))

/-- The sum of a power series. A power loses at least a bit per step, so `p` terms reach the
precision. -/
def series (p : Nat) (first factor : Enclosure) (ratio weight : Nat → Nat) : Enclosure :=
  seriesFrom p factor ratio weight p 0 first ⟨0, 0⟩

/-! ## Rounding to binary64 -/

/-- The binary64 number nearest to an end. -/
def nearest (p : Nat) (n : Int) : Binary64 :=
  .ofRatio (decide (n < 0)) (n.natAbs * Magnitude.unitsPerOne) (Nat.pow 2 p)

/-- The number to which every real of the enclosure rounds. -/
def round? (p : Nat) (a : Enclosure) : Option Binary64 :=
  if nearest p a.lo = nearest p a.hi then some (nearest p a.lo) else none

/-- The precisions that are tried. The first has 128 bits below the least binary64 number. -/
def precisions : List Nat := [1202, 1330, 1586, 2098, 3122]

/-- The number that the first narrow enough evaluation rounds to; NaN if none is. -/
def settle (evaluate : Nat → Option Enclosure) : Binary64 :=
  (precisions.findSome? fun p => (evaluate p).bind (round? p)).getD .nan

end Enclosure

end TraceMath
