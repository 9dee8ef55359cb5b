import TraceMath.CodeModule.Jit

/-!
# Evaluation on behalf of a user

An engine calls the helpers directly or through generated code. It checks what the helpers leave
to their callers, so that a bad request is refused with an error and never ends the process.
-/

namespace TraceMath

/-- Why a request of a user is refused. -/
inductive EvaluationError where
  /-- Linking or calling generated code failed. -/
  | jit (source : CallError)
  /-- A remainder by zero was asked for. -/
  | zeroDivisor
  /-- The opcode cannot be evaluated. -/
  | unsupportedOpcode (op : Opcode)
deriving DecidableEq, Repr

namespace EvaluationError

def diagnostic : EvaluationError → Diagnostic
  | jit source =>
    { message := "JIT evaluation failed"
      code := "tracejit::cli::jit_error"
      help := none
      cause := some source.message }
  | zeroDivisor =>
    { message := "Division by zero in modi"
      code := "tracejit::cli::zero_divisor"
      help := some "Generated code checks the divisor before calling modi; pass a non-zero B"
      cause := none }
  | unsupportedOpcode op =>
    { message := s!"Extended math opcode '{op.name}' cannot be folded"
      code := "tracejit::cli::unsupported_fpm"
      help := none
      cause := none }

end EvaluationError

/-- A route to the helpers. -/
inductive Engine where
  | direct (b : Build)
  | jit (j : Jit)

namespace Engine

/-- The engine of a build, through generated code or not. -/
def select (b : Build) (useJit : Bool) : Except EvaluationError Engine :=
  if useJit then
    match Jit.link b with
    | .ok j => .ok (.jit j)
    | .error e => .error (.jit e)
  else .ok (.direct b)

/-- The floored remainder. -/
def remainder (engine : Engine) (a b : Int32) : Outcome EvaluationError Int32 :=
  if b = 0 then .refused .zeroDivisor
  else
    match engine with
    | direct _ => .ofChecked (checkedRem a b)
    | jit j => (j.remainder a b).mapRefusal .jit

/-- The integer power. -/
def power (engine : Engine) (x : Binary64) (k : Int32) : Outcome EvaluationError Binary64 :=
  match engine with
  | direct _ => .value (x.powInt k)
  | jit j => (j.power x k).mapRefusal .jit

/-- The operation `op`. -/
def fold (engine : Engine) (op : Opcode) (x : Binary64) : Outcome EvaluationError Binary64 :=
  if op = .other then .refused (.unsupportedOpcode op)
  else
    match engine with
    | direct b => .ofChecked (TraceMath.fold b op x)
    | jit j => (j.fold op x).mapRefusal .jit

end Engine

end TraceMath
