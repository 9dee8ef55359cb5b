import TraceMath.Binary64.Basic
import TraceMath.Decimal.Digits

/-!
# Reading numbers with a fraction

A literal is an optional sign and either the name of a special value in any ASCII case (`inf`,
`infinity`, `nan`) or digits with an optional point, at least one digit in all, and an optional
exponent. The number read is the binary64 number nearest to the exact decimal value; of an exponent
beyond all that can matter not every digit counts (`exponentOfDigits`).
-/

namespace TraceMath

/-- The number `± coefficient * 10 ^ exponent`; zero has a sign. -/
structure Decimal where
  negative : Bool
  coefficient : Nat
  exponent : Int
deriving DecidableEq, Repr

namespace Binary64

/-- The number nearest to a decimal, ties to even. A coefficient above zero times more than
`10^400` rounds to infinity, and a value below `10^-400` to zero; the ratio is formed only between
these limits. -/
def ofDecimal (d : Decimal) : Binary64 :=
  if d.coefficient = 0 then zero d.negative
  else if 400 < d.exponent then infinity d.negative
  else if Decimal.digitCount d.coefficient + d.exponent < -400 then zero d.negative
  else
    ofRatio d.negative (d.coefficient * Nat.pow 10 d.exponent.toNat * Magnitude.unitsPerOne)
      (Nat.pow 10 (-d.exponent).toNat)

end Binary64

namespace Decimal

/-- Why a text is no number. -/
inductive LiteralError where
  | empty
  | invalid
deriving DecidableEq, Repr

def LiteralError.message : LiteralError → String
  | empty => "cannot parse float from empty string"
  | invalid => "invalid float literal"

/-- Takes a sign off the front; `true` is a minus. -/
def takeSign : List Char → Bool × List Char
  | '-' :: cs => (true, cs)
  | '+' :: cs => (false, cs)
  | cs => (false, cs)

/-- The size of an exponent. Digits behind one of `2^16` or more are left out: only a literal with
as many digits in front of its exponent could tell the difference. -/
def exponentOfDigits (ds : List Nat) : Nat :=
  ds.foldl (fun n d => if n < 0x10000 then 10 * n + d else n) 0

/-- Reads what may follow the digits: nothing, or an exponent. -/
def readExponent? : List Char → Option Int
  | [] => some 0
  | c :: cs =>
    if c = 'e' ∨ c = 'E' then
      let (negative, rest) := takeSign cs
      match digitRun rest with
      | (d :: ds, []) =>
        let size : Int := exponentOfDigits (d :: ds)
        some (if negative then -size else size)
      | _ => none
    else none

/-- Reads digits with an optional point, and an optional exponent. -/
def readUnsigned? (negative : Bool) (cs : List Char) : Option Decimal :=
  let (whole, rest) := digitRun cs
  let (fraction, rest) := match rest with
    | '.' :: rest => digitRun rest
    | rest => ([], rest)
  if whole = [] ∧ fraction = [] then none
  else
    (readExponent? rest).map fun e =>
      ⟨negative, ofDigits (whole ++ fraction), e - fraction.length⟩

/-- Reads a binary64 number. -/
def readBinary64 (s : String) : Except LiteralError Binary64 :=
  let (negative, cs) := takeSign s.toList
  let name := String.ofList (cs.map Char.toLower)
  if s.toList = [] then .error .empty
  else if name = "inf" ∨ name = "infinity" then .ok (.infinity negative)
  else if name = "nan" then .ok .nan
  else
    match readUnsigned? negative cs with
    | some d => .ok (.ofDecimal d)
    | none => .error .invalid

end Decimal

end TraceMath
