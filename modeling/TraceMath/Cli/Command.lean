import TraceMath.Decimal.Integer
import TraceMath.Decimal.Literal
import TraceMath.Opcode

/-!
# Commands and their operands

A command is read operand by operand. Its form says which operand comes next and how its text is
read, and ends in the command with the values in place, so that a command without all of its
operands cannot be built.
-/

namespace TraceMath.Cli

/-- What the user asks for. -/
inductive Command where
  | remainder (a b : Int32)
  | power (x : Binary64) (k : Int32)
  | fold (op : Opcode) (x : Binary64)
  | capabilities
  | symbols
deriving DecidableEq

/-- An operand to be read, or the end. -/
inductive Form (α : Type) where
  | done (a : α)
  | int32 (name : String) (next : Int32 → Form α)
  | binary64 (name : String) (next : Binary64 → Form α)
  | opcode (name : String) (next : Opcode → Form α)

namespace Form

variable {α : Type}

/-- The names of the operands still to be read. They do not depend on the values read. -/
def operands : Form α → List String
  | done _ => []
  | int32 name next => name :: (next 0).operands
  | binary64 name next => name :: (next default).operands
  | opcode name next => name :: (next .floor).operands

/-- The form behind the next operand, whatever its value. -/
def tail : Form α → Form α
  | done a => done a
  | int32 _ next => next 0
  | binary64 _ next => next default
  | opcode _ next => next .floor

/-- The next operand may be a negative number. -/
def allowsNegative : Form α → Bool
  | int32 .. | binary64 .. => true
  | _ => false

def isDone : Form α → Bool
  | done _ => true
  | _ => false

end Form

/-- A command by its name on the command line. -/
structure Entry where
  name : String
  about : String
  form : Form Command

namespace Entry

/-- Every command, in the order of the help page. -/
def all : List Entry :=
  [{ name := "modi"
     about := "Floored integer remainder A % B"
     form := .int32 "A" fun a => .int32 "B" fun b => .done (.remainder a b) },
   { name := "powi"
     about := "X raised to the integer power K"
     form := .binary64 "X" fun x => .int32 "K" fun k => .done (.power x k) },
   { name := "fpm"
     about := "Extended math operation, e.g. `fpm log2 8`"
     form := .opcode "OP" fun op => .binary64 "X" fun x => .done (.fold op x) },
   { name := "caps"
     about := "Show the platform capabilities selected at build time"
     form := .done .capabilities },
   { name := "symbols"
     about := "List the helper symbols exported for this target"
     form := .done .symbols }]

def find? (name : String) : Option Entry := all.find? (·.name == name)

end Entry

/-- The name of the command that shows help pages. -/
def helpName : String := "help"

def helpAbout : String := "Print this message or the help of the given subcommand(s)"

/-- The name of the program. -/
def programName : String := "tracejit"

end TraceMath.Cli
