/-!
# Faults and log records

A helper that is called outside its contract ends the process: it returns no value, and what is
left is a message and the log written before it. Generated code whose import has no address ends
it, too. Such an end is a value here (`Fault`), so that a caller's guard against it can be stated
and proved.
-/

namespace TraceMath

/-- The severity of a log record. -/
inductive Level where
  | error
  | debug
  | trace
deriving DecidableEq, Repr

def Level.name : Level → String
  | error => "ERROR"
  | debug => "DEBUG"
  | trace => "TRACE"

/-- The place of a level among the five that a log can show, the most severe one first. No record
has the second or the third. -/
def Level.rank : Level → Nat
  | error => 1
  | debug => 4
  | trace => 5

/-- A line of the log: its severity, the part of the program that wrote it, and the text. -/
structure LogRecord where
  level : Level
  target : String
  text : String
deriving DecidableEq, Repr

def LogRecord.render (r : LogRecord) : String :=
  r.level.name ++ " " ++ r.target ++ " " ++ r.text

/-- A value with named fields, as a log or a listing shows it. -/
def fieldsText (name : String) (fields : List (String × String)) : String :=
  name ++ " \x7b " ++ ", ".intercalate (fields.map fun f => f.1 ++ ": " ++ f.2) ++ " \x7d"

/-- Why the process ends. -/
inductive Fault where
  /-- A remainder by zero; generated code checks the divisor first. -/
  | zeroDivisor
  /-- A tag that stands for no opcode that can be evaluated. -/
  | unsupportedTag (tag : UInt32)
  /-- An import of generated code that no registered symbol resolves. -/
  | unresolvedSymbol (name : String)
deriving DecidableEq, Repr

namespace Fault

def message : Fault → String
  | zeroDivisor => "modi: divisor must be checked before calling"
  | unsupportedTag tag => s!"foldfpm: unsupported extended math opcode tag {tag}"
  | unresolvedSymbol name => s!"can't resolve symbol {name}"

/-- The records written before the process ends. -/
def log : Fault → List LogRecord
  | unsupportedTag tag => [⟨.error, "tracejit_vmmath::fpm", (unsupportedTag tag).message⟩]
  | _ => []

end Fault

/-- A computation that returns a value or ends the process. -/
abbrev Checked (α : Type) := Except Fault α

/-- The end of a request: a value, a refusal that is reported to the caller, or the end of the
process. -/
inductive Outcome (ε α : Type) where
  | value (a : α)
  | refused (e : ε)
  | aborted (f : Fault)
deriving DecidableEq, Repr

namespace Outcome

variable {ε ε' α β : Type}

/-- What a helper returns is a value; a fault is not caught. -/
def ofChecked : Checked α → Outcome ε α
  | .ok a => value a
  | .error f => aborted f

def map (g : α → β) : Outcome ε α → Outcome ε β
  | value a => value (g a)
  | refused e => refused e
  | aborted f => aborted f

/-- Goes on with the value, if there is one. -/
def bind (o : Outcome ε α) (next : α → Outcome ε β) : Outcome ε β :=
  match o with
  | value a => next a
  | refused e => refused e
  | aborted f => aborted f

/-- The same end, with a refusal turned into the caller's own kind. -/
def mapRefusal (g : ε → ε') : Outcome ε α → Outcome ε' α
  | value a => value a
  | refused e => refused (g e)
  | aborted f => aborted f

section

variable (a : α) (e : ε) (f : Fault)

@[simp] theorem ofChecked_ok : (ofChecked (.ok a) : Outcome ε α) = value a := rfl

@[simp] theorem ofChecked_error : (ofChecked (.error f) : Outcome ε α) = aborted f := rfl

@[simp] theorem ofChecked_map (g : α → β) (c : Checked α) :
    (ofChecked (c.map g) : Outcome ε β) = (ofChecked c).map g := by
  cases c <;> rfl

@[simp] theorem map_value (g : α → β) : (value a : Outcome ε α).map g = value (g a) := rfl

@[simp] theorem bind_value (next : α → Outcome ε β) : (value a).bind next = next a := rfl

@[simp] theorem bind_refused (next : α → Outcome ε β) : (refused e).bind next = refused e := rfl

@[simp] theorem mapRefusal_value (g : ε → ε') : (value a).mapRefusal g = value a := rfl

end

end Outcome

end TraceMath
