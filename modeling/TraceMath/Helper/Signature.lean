/-!
# Call signatures of helpers

A signature names the parameters of a helper and their meaning; its function type is what the
machine sees. An opcode tag is a 32-bit integer there, so two of the four signatures have the
same function type.
-/

namespace TraceMath

/-- The shape of a helper. -/
inductive Signature where
  | intIntToInt
  | floatIntToFloat
  /-- The second argument is an opcode tag. -/
  | floatTagToFloat
  | floatToFloat
deriving DecidableEq, Repr

/-- A machine type. -/
inductive MachineType where
  | i32
  | f64
deriving DecidableEq, Repr

/-- The parameter and return types of a function of a code module. -/
structure FunctionType where
  params : List MachineType
  returns : List MachineType
deriving DecidableEq, Repr

def MachineType.name : MachineType → String
  | i32 => "i32"
  | f64 => "f64"

/-- The types as messages show them, with an arrow in front of those that are returned. -/
def FunctionType.text (t : FunctionType) : String :=
  let list (types : List MachineType) := ", ".intercalate (types.map MachineType.name)
  "(" ++ list t.params ++ ") -> " ++ list t.returns

namespace Signature

/-- The name of the signature in listings and messages. -/
def name : Signature → String
  | intIntToInt => "IntIntToInt"
  | floatIntToFloat => "FloatIntToFloat"
  | floatTagToFloat => "FloatTagToFloat"
  | floatToFloat => "FloatToFloat"

def all : List Signature := [intIntToInt, floatIntToFloat, floatTagToFloat, floatToFloat]

/-- The function type of a helper with this signature. -/
def functionType : Signature → FunctionType
  | intIntToInt => ⟨[.i32, .i32], [.i32]⟩
  | floatIntToFloat => ⟨[.f64, .i32], [.f64]⟩
  | floatTagToFloat => ⟨[.f64, .i32], [.f64]⟩
  | floatToFloat => ⟨[.f64], [.f64]⟩

end Signature

end TraceMath
