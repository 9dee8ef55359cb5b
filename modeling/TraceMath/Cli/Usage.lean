import TraceMath.Cli.Page
import TraceMath.Cli.PlainText

/-!
# Usage errors

What is wrong with a command line, and the text that says so. The message emphasises what it quotes
from the command line; the reason that an operand is refused for may quote it again, without
emphasis.
-/

namespace TraceMath.Cli

/-- An option that any command line may hold. -/
inductive Flag where
  | verbose
  | quiet
  | jit
deriving DecidableEq, Repr

/-- The option as messages show it; three dots mark one that may be repeated. -/
def Flag.display : Flag → String
  | verbose => "--verbose..."
  | quiet => "--quiet..."
  | jit => "--jit"

inductive UsageError where
  /-- There are no arguments at all; the answer is the help page. -/
  | nothingGiven
  | missingCommand
  | unknownCommand (word : String)
  | unexpectedArgument (shown : String)
  | repeated (flag : Flag)
  | conflicting (first second : Flag)
  /-- An option that takes no value has one. -/
  | attachedValue (option value : String)
  | missingOperands (names : List String)
  | invalidOperand (name text reason : String)
deriving DecidableEq, Repr

namespace UsageError

/-- The message, without the mark in front of it. -/
def message : UsageError → String
  | nothingGiven => ""
  | missingCommand =>
    s!"'{programName}' requires a subcommand but one was not provided\n  [subcommands: " ++
      ", ".intercalate (Entry.all.map (·.name) ++ [helpName]) ++ "]"
  | unknownCommand word => s!"unrecognized subcommand '{emphasize word}'"
  | unexpectedArgument shown => s!"unexpected argument '{emphasize shown}' found"
  | repeated flag => s!"the argument '{emphasize flag.display}' cannot be used multiple times"
  | conflicting first second =>
    s!"the argument '{emphasize first.display}' cannot be used with '{emphasize second.display}'"
  | attachedValue option value =>
    s!"unexpected value '{emphasize value}' for '{emphasize option}' found; " ++
      "no more were expected"
  | missingOperands names =>
    "the following required arguments were not provided:" ++
      String.join (names.map fun name => "\n  " ++ emphasize s!"<{name}>")
  | invalidOperand name text reason =>
    s!"invalid value '{emphasize text}' for '" ++ emphasize s!"<{name}>" ++ "': " ++ reason

/-- The text of the error output. -/
def text : UsageError → String
  | nothingGiven => Page.program.text
  | e =>
    plain (emphasize "error:" ++ " " ++ e.message ++ "\n\nFor more information, try '" ++
      emphasize "--help" ++ "'.\n")

end UsageError

end TraceMath.Cli
