import TraceMath.Fold
import TraceMath.Helper.Routine
import TraceMath.Power
import TraceMath.Remainder

/-!
# The table of exported helpers

Every helper of a build, with the name under which generated code links to it. The hyperbolic
functions are exported only where the target needs wrappers for them.

* `find?` looks a helper up by its exact name.
-/

namespace TraceMath

/-- An exported helper. -/
structure Helper where
  name : String
  routine : Routine

namespace Helper

def signature (h : Helper) : Signature := h.routine.signature

/-! ## Names that generated code calls by -/

def remainderName : String := "tracejit_vm_modi"

def powerName : String := "tracejit_vm_powi"

def foldName : String := "tracejit_vm_foldfpm"

/-! ## The table -/

/-- A helper of one number that never ends the process. -/
def unary (name : String) (f : Binary64 → Binary64) : Helper :=
  ⟨name, .floatToFloat fun x => .ok (f x)⟩

/-- The wrappers of the hyperbolic functions, where the target needs them. -/
def wrappers (b : Build) : List Helper :=
  if b.capabilities.hyperbolicWrappers then
    [unary "tracejit_vm_sinh" b.library.sinh,
     unary "tracejit_vm_cosh" b.library.cosh,
     unary "tracejit_vm_tanh" b.library.tanh]
  else []

/-- Every exported helper, in the order of the listing. -/
def table (b : Build) : List Helper :=
  [⟨remainderName, .intIntToInt checkedRem⟩,
   ⟨powerName, .floatIntToFloat fun x k => .ok (x.powInt k)⟩,
   ⟨foldName, .floatTagToFloat fun x tag => foldTag b tag x⟩,
   unary "tracejit_vm_floor" Binary64.floor,
   unary "tracejit_vm_ceil" Binary64.ceil,
   unary "tracejit_vm_trunc" Binary64.trunc,
   unary "tracejit_vm_log2" b.log2,
   unary "tracejit_vm_exp2" b.exp2] ++ wrappers b

/-- The helper with the given name. -/
def find? (b : Build) (name : String) : Option Helper := (table b).find? (·.name == name)

/-- The text of a helper in debug listings, with its address written as `address`. -/
def describe (h : Helper) (address : String) : String :=
  fieldsText "HelperSymbol"
    [("name", "\"" ++ h.name ++ "\""), ("addr", address), ("sig", h.signature.name)]

end Helper

end TraceMath
