import TraceMath.CodeModule.CallError
import TraceMath.Helper.Table

/-!
# Calls through the table

A caller names a helper and the signature that it expects, and gets the function if the table has
both. A call from generated code is refused for the same two reasons.
-/

namespace TraceMath.Helper

/-- The function that the table has under a name. -/
def function (b : Build) (name : String) (expected : Signature) :
    Outcome CallError expected.Function :=
  match find? b name with
  | none => .refused (.unknownHelper name)
  | some h =>
    match h.routine.as? expected with
    | some f => .value f
    | none => .refused (.signatureMismatch name expected h.signature)

/-- Calls the function that the table has under a name. -/
def call (b : Build) (name : String) (args : Arguments) : Outcome CallError Value :=
  (function b name args.signature).bind fun f => .ofChecked (args.apply f)

end TraceMath.Helper
