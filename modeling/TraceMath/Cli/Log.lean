import TraceMath.Cli.Usage
import TraceMath.Decimal.Scientific
import TraceMath.Fault

/-!
# The log of a command

A command is logged before it is carried out. The options of a command line say which records are
shown: each use of one option shows a level more, each use of the other a level less. Without them
errors are shown alone.
-/

namespace TraceMath.Cli

/-- How often the two options are given. -/
structure Verbosity where
  verbose : Nat := 0
  quiet : Nat := 0
deriving DecidableEq, Repr

namespace Verbosity

/-- Further uses of an option are not counted. -/
def limit : Nat := 255

/-- The options of one level. -/
def ofFlags (flags : List Flag) : Verbosity where
  verbose := min limit (flags.count .verbose)
  quiet := min limit (flags.count .quiet)

/-- The options of a command within those of the program: an option that is given to the command
counts there alone. -/
def within (command program : Verbosity) : Verbosity where
  verbose := if command.verbose = 0 then program.verbose else command.verbose
  quiet := if command.quiet = 0 then program.quiet else command.quiet

/-- The record is shown. -/
def shows (v : Verbosity) (r : LogRecord) : Bool :=
  decide ((r.level.rank : Int) ≤ 1 + v.verbose - v.quiet)

end Verbosity

/-- The text of a 32-bit integer. -/
def int32Chars (a : Int32) : List Char := Decimal.intChars a.toInt

namespace Command

/-- The command as the log shows it. -/
def logText : Command → String
  | remainder a b =>
    fieldsText "Modi" [("a", String.ofList (int32Chars a)), ("b", String.ofList (int32Chars b))]
  | power x k =>
    fieldsText "Powi" [("x", String.ofList x.logChars), ("k", String.ofList (int32Chars k))]
  | fold op x => fieldsText "Fpm" [("op", op.label), ("x", String.ofList x.logChars)]
  | capabilities => "Caps"
  | symbols => "Symbols"

/-- The record in front of all others. -/
def record (c : Command) (jit : Bool) : LogRecord :=
  ⟨.debug, "tracejit", s!"Running {c.logText} (jit: {jit})"⟩

end Command

end TraceMath.Cli
