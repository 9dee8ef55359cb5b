import TraceMath.CodeModule.CallError
import TraceMath.Machine

/-!
# Declarations of a code module

A code module names the functions that generated code may call. A name is declared with a
function type and keeps the id and the type of its first declaration.

* `declare` gives a declared name its id again if the function types agree, gives a new name the
  next id, and refuses a conflict without changing the module.
-/

namespace TraceMath

/-- The id of a declared function: its place in the order of first declarations. -/
structure FunctionId where
  index : Nat
deriving DecidableEq, Repr

def FunctionId.name (id : FunctionId) : String := s!"funcid{id.index}"

/-- A declared function. -/
structure Declaration where
  name : String
  type : FunctionType
  id : FunctionId
deriving DecidableEq, Repr

/-- The functions declared so far, in the order of their ids. -/
structure CodeModule where
  declarations : List Declaration
deriving DecidableEq, Repr

namespace CodeModule

def empty : CodeModule := ⟨[]⟩

/-- Declares a function. -/
def declare (m : CodeModule) (name : String) (type : FunctionType) :
    CodeModule × Except CallError FunctionId :=
  match m.declarations.find? (·.name == name) with
  | some d =>
    (m, if d.type = type then .ok d.id else .error (.incompatibleDeclaration ⟨name, d.type, type⟩))
  | none =>
    let id : FunctionId := ⟨m.declarations.length⟩
    (⟨m.declarations ++ [⟨name, type, id⟩]⟩, .ok id)

/-- Declares a helper with the function type of its signature. -/
def importHelper (m : CodeModule) (name : String) (signature : Signature) :
    CodeModule × Except CallError FunctionId :=
  m.declare name signature.functionType

/-- A module as a machine that is asked to declare helpers. -/
def importing : Machine CodeModule (String × Signature) (Except CallError FunctionId) where
  step m call := m.importHelper call.1 call.2

/-- Declares helpers one after another and answers each. -/
def importAll (m : CodeModule) (calls : List (String × Signature)) :
    List (Except CallError FunctionId) :=
  importing.answers m calls

end CodeModule

end TraceMath
