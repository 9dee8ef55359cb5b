import TraceMath.CodeModule.Jit
import TraceMath.Helper.Call

/-!
# Chains of evaluations

A chain threads one number through a list of requests. A step that gives a value passes it on, a
NaN as the quiet one; a step that fails leaves the number as it is. A request goes to the function
itself, to the exported helper in the table, or through generated code.
-/

namespace TraceMath

/-- The way a request takes to its helper. -/
inductive Route where
  | direct
  | jit
deriving DecidableEq, Repr

/-- What a helper takes behind its number. -/
inductive Operand where
  | none
  | int (k : Int32)
  | tag (tag : UInt32)
deriving DecidableEq, Repr

/-- The signature that takes a number and the operand. -/
def Operand.signature : Operand → Signature
  | none => .floatToFloat
  | int _ => .floatIntToFloat
  | tag _ => .floatTagToFloat

/-- Calls a function of the signature at `x`. -/
def Operand.apply (x : Binary64) : (o : Operand) → o.signature.Function → Checked Binary64
  | none, f => f x
  | int k, f => f x k
  | tag t, f => f x t

/-- Calls the function that the table has under a name, at `x`. -/
def Helper.evaluate (b : Build) (name : String) (operand : Operand) (x : Binary64) :
    Outcome CallError Binary64 :=
  (function b name operand.signature).bind fun f => .ofChecked (operand.apply x f)

/-- A request that takes one number and gives one. -/
inductive Step where
  | power (k : Int32) (route : Route)
  /-- The operation with the given name. -/
  | fold (name : String) (route : Route)
  | foldTag (tag : UInt32)
  /-- The helper of one number with the given name, through generated code. -/
  | apply (name : String)
  /-- The exported helper with the given name, found in the table. -/
  | exported (name : String) (operand : Operand)
deriving DecidableEq, Repr

/-- Why a request is refused. -/
inductive StepError where
  | opcode (e : OpcodeError)
  | call (e : CallError)
deriving DecidableEq, Repr

namespace Step

/-- The answer of a request at `x`. -/
def run (b : Build) (x : Binary64) : Step → Outcome StepError Binary64
  | power k .direct => .value (x.powInt k)
  | power k .jit => (Jit.request b (·.power x k)).mapRefusal .call
  | fold name route =>
    match Opcode.ofName name, route with
    | .error e, _ => .refused (.opcode e)
    | .ok op, .direct => .ofChecked (TraceMath.fold b op x)
    | .ok op, .jit => (Jit.request b (·.fold op x)).mapRefusal .call
  | foldTag tag => .ofChecked (TraceMath.foldTag b tag x)
  | apply name => (Jit.request b (·.apply name x)).mapRefusal .call
  | exported name operand => (Helper.evaluate b name operand x).mapRefusal .call

end Step

/-- The number after a step that started at `x`. -/
def Outcome.next {ε : Type} (x : Binary64) : Outcome ε Binary64 → Binary64
  | value y => y.quiet
  | _ => x

/-- A chain as a machine that holds the number. -/
def chain (b : Build) : Machine Binary64 Step (Outcome StepError Binary64) where
  step x step :=
    let answer := step.run b x
    (answer.next x, answer)

/-- The answers of a chain that starts at `x`. -/
def runChain (b : Build) (x : Binary64) (steps : List Step) : List (Outcome StepError Binary64) :=
  (chain b).answers x steps

end TraceMath
