import TraceMath.CodeModule.Basic
import TraceMath.Helper.Table

/-!
# Calls from generated code

For every exported helper a trampoline with the helper's own signature is compiled; it does
nothing but call the helper, which it imports by name. A call finds the trampoline by the helper's
name and goes ahead only if the signature is the one that the caller expects.

* `link` registers the symbols of the table, then declares and compiles the trampolines, in the
  order of the table.
* `resolve` is the way from a compiled function to the code that it calls.
* `remainder`, `power`, `fold` and `apply` are the calls.
-/

namespace TraceMath

/-- A compiled function. It calls one declared function with all of its arguments and returns what
that returns. -/
structure Forwarder where
  id : FunctionId
  callee : FunctionId
deriving DecidableEq, Repr

/-- The entry to generated code for a helper. -/
structure Trampoline where
  helper : String
  signature : Signature
  /-- The compiled function. -/
  id : FunctionId
deriving DecidableEq, Repr

/-- A code module with its compiled functions and the trampolines among them. -/
structure Jit where
  /-- The code that an import can be resolved to, by its name. -/
  symbols : List Helper
  code : CodeModule
  functions : List Forwarder
  trampolines : List Trampoline

namespace Jit

/-- Registers symbols, so that imports are resolved to them. -/
def register (symbols : List Helper) : Jit := ⟨symbols, .empty, [], []⟩

/-- The name under which the trampoline of a helper is declared. -/
def trampolineName (helper : String) : String := helper ++ "_trampoline"

/-- Declares a helper and its trampoline, and compiles the trampoline. -/
def compile (j : Jit) (h : Helper) : Except CallError Jit :=
  let (m, callee) := j.code.importHelper h.name h.signature
  let (m, own) := m.importHelper (trampolineName h.name) h.signature
  match callee, own with
  | .ok callee, .ok own =>
    .ok { j with
      code := m
      functions := j.functions ++ [⟨own, callee⟩]
      trampolines := j.trampolines ++ [⟨h.name, h.signature, own⟩] }
  | .error e, _ => .error e
  | _, .error e => .error e

/-- Links every helper of a build. -/
def link (b : Build) : Except CallError Jit :=
  (Helper.table b).foldlM compile (register (Helper.table b))

/-- The log of `link`: the capabilities, then the helpers, then the trampolines. Addresses and the
name of the host are no part of a build, and are left out. -/
def linkLog (b : Build) : List LogRecord :=
  b.capabilities.logRecord ::
    ((Helper.table b).map fun h =>
      ⟨.trace, "tracejit_native::linkage", s!"Registering helper {h.name}"⟩) ++
    ((Helper.table b).map fun h =>
      ⟨.trace, "tracejit_native::jit", s!"Compiled trampoline {trampolineName h.name}"⟩)

/-- The names of the helpers that can be called, in alphabetical order. -/
def names (j : Jit) : List String := (j.trampolines.map (·.helper)).mergeSort

/-- The code that a compiled function calls: its callee is declared under a name, and a symbol is
registered under this name. -/
def resolve (j : Jit) (id : FunctionId) : Option Routine := do
  let f ← j.functions.find? (·.id == id)
  let d ← j.code.declarations.find? (·.id == f.callee)
  let h ← j.symbols.find? (·.name == d.name)
  pure h.routine

/-- The function behind the trampoline of a helper. -/
def function (j : Jit) (name : String) (expected : Signature) :
    Outcome CallError expected.Function :=
  match j.trampolines.find? (·.helper == name) with
  | none => .refused (.unknownHelper name)
  | some t =>
    if t.signature ≠ expected then .refused (.signatureMismatch name expected t.signature)
    else
      match (j.resolve t.id).bind (·.as? expected) with
      | some f => .value f
      | none => .aborted (.unresolvedSymbol name)

/-- The floored remainder. -/
def remainder (j : Jit) (a b : Int32) : Outcome CallError Int32 :=
  (j.function Helper.remainderName .intIntToInt).bind fun f => .ofChecked (f a b)

/-- The integer power. -/
def power (j : Jit) (x : Binary64) (k : Int32) : Outcome CallError Binary64 :=
  (j.function Helper.powerName .floatIntToFloat).bind fun f => .ofChecked (f x k)

/-- The operation `op`. The helper ends the process on `other`, so that request is never
forwarded. -/
def fold (j : Jit) (op : Opcode) (x : Binary64) : Outcome CallError Binary64 :=
  if op = .other then .refused (.unsupportedOpcode op)
  else (j.function Helper.foldName .floatTagToFloat).bind fun f => .ofChecked (f x op.tag)

/-- The helper of one number with the given name. -/
def apply (j : Jit) (name : String) (x : Binary64) : Outcome CallError Binary64 :=
  (j.function name .floatToFloat).bind fun f => .ofChecked (f x)

/-- Links the helpers of a build and calls generated code. -/
def request {α : Type} (b : Build) (call : Jit → Outcome CallError α) : Outcome CallError α :=
  match link b with
  | .ok j => call j
  | .error e => .refused e

end Jit

end TraceMath
