import TraceMath.Binary64.Basic
import TraceMath.Fault
import TraceMath.Helper.Signature

/-!
# Routines and their calls

A routine is the code of a helper, typed by its signature: a caller that has matched the
signature has the function (`as?`). `call` is the untyped view, for a caller that brings its own
arguments.
-/

namespace TraceMath

/-- The functions that have a signature. -/
@[reducible] def Signature.Function : Signature → Type
  | intIntToInt => Int32 → Int32 → Checked Int32
  | floatIntToFloat => Binary64 → Int32 → Checked Binary64
  | floatTagToFloat => Binary64 → UInt32 → Checked Binary64
  | floatToFloat => Binary64 → Checked Binary64

/-- A helper's code. -/
inductive Routine where
  | intIntToInt (f : Int32 → Int32 → Checked Int32)
  | floatIntToFloat (f : Binary64 → Int32 → Checked Binary64)
  | floatTagToFloat (f : Binary64 → UInt32 → Checked Binary64)
  | floatToFloat (f : Binary64 → Checked Binary64)

/-- The arguments of a call. -/
inductive Arguments where
  | intInt (a b : Int32)
  | floatInt (x : Binary64) (k : Int32)
  | floatTag (x : Binary64) (tag : UInt32)
  | float (x : Binary64)
deriving DecidableEq

/-- The signature that takes the arguments. -/
def Arguments.signature : Arguments → Signature
  | intInt _ _ => .intIntToInt
  | floatInt _ _ => .floatIntToFloat
  | floatTag _ _ => .floatTagToFloat
  | float _ => .floatToFloat

/-- The result of a call. -/
inductive Value where
  | int (a : Int32)
  | float (x : Binary64)
deriving DecidableEq

/-- Calls a function of the signature. -/
def Arguments.apply : (args : Arguments) → args.signature.Function → Checked Value
  | intInt a b, f => (f a b).map .int
  | floatInt x k, f => (f x k).map .float
  | floatTag x tag, f => (f x tag).map .float
  | float x, f => (f x).map .float

namespace Routine

def signature : Routine → Signature
  | intIntToInt _ => .intIntToInt
  | floatIntToFloat _ => .floatIntToFloat
  | floatTagToFloat _ => .floatTagToFloat
  | floatToFloat _ => .floatToFloat

/-- The function of a routine, if the routine has the signature. -/
def as? : Routine → (s : Signature) → Option s.Function
  | intIntToInt f, .intIntToInt => some f
  | floatIntToFloat f, .floatIntToFloat => some f
  | floatTagToFloat f, .floatTagToFloat => some f
  | floatToFloat f, .floatToFloat => some f
  | _, _ => none

/-- Calls a routine; `none` if the arguments are not those of its signature. -/
def call (r : Routine) (args : Arguments) : Option (Checked Value) :=
  (r.as? args.signature).map args.apply

end Routine

end TraceMath
