import TraceMath.Decimal.Literal

/-!
# The shortest decimal of a number

A binary64 number is written with the fewest digits that read back to it, and of equally many with
those nearest to it. The text is positional throughout, without an exponent.

The decimals that read back to a finite magnitude lie between the midpoints to its neighbours, the
ends included exactly when the magnitude is even. All quantities are natural numbers of the unit
`10^-1075`, in which every midpoint and every number is whole. The search tries the multiples of
falling powers of ten, so the first hit has the fewest digits, and it ends at the number itself.
-/

namespace TraceMath.Decimal

/-- The numbers that read back to a magnitude, in units of `10^-1075`. -/
structure Readable where
  value : Nat
  low : Nat
  high : Nat
  /-- The ends read back, too. -/
  closed : Bool

namespace Readable

/-- The numbers that read back to a finite magnitude above zero. -/
def ofMagnitude (m : Nat) : Readable where
  value := 2 * Magnitude.units m * Nat.pow 5 1075
  low := (Magnitude.units (m - 1) + Magnitude.units m) * Nat.pow 5 1075
  high := (Magnitude.units m + Magnitude.units (m + 1)) * Nat.pow 5 1075
  closed := m % 2 = 0

/-- The number reads back. -/
def Holds (r : Readable) (n : Nat) : Prop :=
  if r.closed then r.low ≤ n ∧ n ≤ r.high else r.low < n ∧ n < r.high

instance (r : Readable) (n : Nat) : Decidable (r.Holds n) := by
  unfold Holds
  infer_instance

/-- The multiple of `grid` that reads back and is nearest to the value; of two equally near ones
the upper. The result is the factor of `grid`. -/
def onGrid? (r : Readable) (grid : Nat) : Option Nat :=
  let below := r.value / grid
  let above := below + 1
  if r.Holds (below * grid) then
    if r.Holds (above * grid) ∧ (below + above) * grid ≤ 2 * r.value then some above
    else some below
  else if r.Holds (above * grid) then some above
  else none

/-- A factor and an exponent `t` of a power of ten in units: the first hit on the multiples of
`10^t`, from the given exponent down. -/
def search (r : Readable) : Nat → Nat × Nat
  | 0 => (r.value, 0)
  | t + 1 =>
    match r.onGrid? (Nat.pow 10 (t + 1)) with
    | some c => (c, t + 1)
    | none => r.search t

/-- The shortest decimal. No multiple of a power of ten with more digits than the value has can
be in the range, so the search starts there. -/
def shortest (r : Readable) : Nat × Nat := r.search (digitCount r.value)

end Readable

/-- The shortest decimal of a finite number. -/
def shortest (x : Binary64) : Decimal :=
  if x.IsZero then ⟨x.negative, 0, 0⟩
  else
    let (c, t) := (Readable.ofMagnitude x.magnitude).shortest
    ⟨x.negative, c, t - 1075⟩

/-- The digits of a decimal without an exponent: zeros behind it, or a point in or before it. -/
def positional (d : Decimal) : List Char :=
  let ds := natChars d.coefficient
  if 0 ≤ d.exponent then ds ++ List.replicate d.exponent.toNat '0'
  else
    let places := (-d.exponent).toNat
    if places < ds.length then
      ds.take (ds.length - places) ++ '.' :: ds.drop (ds.length - places)
    else '0' :: '.' :: List.replicate (places - ds.length) '0' ++ ds

end Decimal

/-- The text of a number. -/
def Binary64.chars (x : Binary64) : List Char :=
  if x.IsNaN then ['N', 'a', 'N']
  else
    let unsigned := if x.IsInfinite then ['i', 'n', 'f'] else (Decimal.shortest x).positional
    if x.negative then '-' :: unsigned else unsigned

end TraceMath
