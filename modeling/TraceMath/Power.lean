import TraceMath.Binary64.Arithmetic
import TraceMath.Word

/-!
# Integer powers in a fixed order of multiplication

`x` to the power `n` is the product of the squares `x`, `x^2`, `x^4`, … at the one bits of `n`,
multiplied from the lowest bit up. Floating-point products depend on their order, so the order is
part of the result: `Power.positive` is stated for an arbitrary multiplication, and
`Binary64.powInt` takes the binary64 one.

Both recursions take a positive exponent and pass on a positive one. So neither meets zero, where
the squaring would not end, and none of them forms a square beyond the highest bit.
-/

namespace TraceMath

namespace Power

variable {α : Type} (mul : α → α → α)

/-- With `x` the square at the last bit used, multiplies `y` by the squares at the one bits of
`n`, which are the bits above it. -/
def extend (y x : α) (n : Nat) (pos : 0 < n) : α :=
  let square := mul x x
  if last : n = 1 then mul y square
  else extend (if n % 2 = 1 then mul y square else y) square (n / 2) (by omega)
termination_by n

/-- `x` to the power `n`. The product starts with the square at the lowest one bit. -/
def positive (x : α) (n : Nat) (pos : 0 < n) : α :=
  if even : n % 2 = 0 then positive (mul x x) (n / 2) (by omega)
  else if last : n = 1 then x
  else extend mul x x (n / 2) (by omega)
termination_by n

/-- `x` to the power `k`: one for `k = 0`, whatever `x` is, and one over the positive power for a
negative `k`. -/
def integer (div : α → α → α) (one x : α) (k : Int32) : α :=
  if zero : k = 0 then one
  else
    let power := positive mul x (absWord k).toNat (toNat_absWord_pos zero)
    if 0 < k then power else div one power

end Power

/-- `x` to the power `k` in binary64 arithmetic. -/
def Binary64.powInt (x : Binary64) (k : Int32) : Binary64 :=
  Power.integer (· * ·) (· / ·) .one x k

end TraceMath
