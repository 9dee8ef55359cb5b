import TraceMath.Decimal.Digits

/-!
# Reading integers

An integer is an optional sign and digits. It is read into a signed word of 64 bits, from left to
right, and must then be one of 32 bits. The first character that is no digit, or the first digit
that leaves the wider range, decides what is wrong.
-/

namespace TraceMath.Decimal

/-- Why a text is no 32-bit integer. -/
inductive IntegerError where
  | empty
  | invalidDigit
  /-- Above the range of 64 bits. -/
  | tooLarge
  /-- Below the range of 64 bits. -/
  | tooSmall
  /-- Within 64 bits, and not within 32. -/
  | outOfRange (n : Int)
deriving DecidableEq, Repr

def IntegerError.message : IntegerError → String
  | empty => "cannot parse integer from empty string"
  | invalidDigit => "invalid digit found in string"
  | tooLarge => "number too large to fit in target type"
  | tooSmall => "number too small to fit in target type"
  | outOfRange n => String.ofList (intChars n) ++ " is not in -2147483648..=2147483647"

/-- Reads digits behind the number `n`; the number may not pass `limit`. -/
def readMagnitude (limit : Nat) (overflow : IntegerError) :
    Nat → List Char → Except IntegerError Nat
  | n, [] => .ok n
  | n, c :: cs =>
    match digit? c with
    | none => .error .invalidDigit
    | some d =>
      if limit < 10 * n + d then .error overflow
      else readMagnitude limit overflow (10 * n + d) cs

/-- Reads a signed integer of 64 bits. -/
def readInt64 : List Char → Except IntegerError Int
  | [] => .error .empty
  | ['+'] | ['-'] => .error .invalidDigit
  | '-' :: cs => (readMagnitude 0x8000000000000000 .tooSmall 0 cs).map fun n => -(n : Int)
  | '+' :: cs => (readMagnitude 0x7fffffffffffffff .tooLarge 0 cs).map Int.ofNat
  | cs => (readMagnitude 0x7fffffffffffffff .tooLarge 0 cs).map Int.ofNat

/-- Reads a signed integer of 32 bits. -/
def readInt32 (s : String) : Except IntegerError Int32 :=
  match readInt64 s.toList with
  | .error e => .error e
  | .ok n =>
    if -0x80000000 ≤ n ∧ n < 0x80000000 then .ok (Int32.ofInt n) else .error (.outOfRange n)

end TraceMath.Decimal
