import TraceMath.Helper.Signature
import TraceMath.Opcode

/-!
# Errors of calls from generated code

A code generator finds these when it links helpers into generated code or calls one through it.
-/

namespace TraceMath

/-- Two declarations of one name with different function types. -/
structure Conflict where
  name : String
  /-- The type of the first declaration. -/
  declared : FunctionType
  /-- The type that was asked for. -/
  requested : FunctionType
deriving DecidableEq, Repr

/-- Why a helper cannot be linked or called. -/
inductive CallError where
  /-- The host is no target of the code generator. -/
  | isaSetup (reason : String)
  /-- A name was declared before with another function type. -/
  | incompatibleDeclaration (conflict : Conflict)
  /-- No helper has the name. -/
  | unknownHelper (name : String)
  /-- The opcode has no helper that evaluates it. -/
  | unsupportedOpcode (op : Opcode)
  /-- The helper with the name has another signature than the call. -/
  | signatureMismatch (name : String) (expected actual : Signature)
deriving DecidableEq, Repr

namespace CallError

def message : CallError → String
  | isaSetup reason => s!"ISA setup failed: {reason}"
  | incompatibleDeclaration c =>
    s!"Failed during module processing: Function {c.name} signature {c.requested.text} is " ++
      s!"incompatible with previous declaration {c.declared.text}"
  | unknownHelper name => s!"No helper named '{name}' is exported for this target"
  | unsupportedOpcode op => s!"Extended math opcode '{op.name}' has no helper evaluation"
  | signatureMismatch name expected actual =>
    s!"Helper '{name}' has signature {actual.name}, expected {expected.name}"

end CallError

end TraceMath
