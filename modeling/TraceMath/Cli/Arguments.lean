import TraceMath.Cli.Log

/-!
# Reading a command line

The program reads options up to the name of a command, and the command then reads options and
operands. Both levels read an argument by the same rules.

* `--` turns every later argument of its level into an operand.
* An option may be given at either level, `--jit` once at each.
* An argument that starts with a minus is an operand if it looks like a number and the next operand
  may be negative; a lone `-` is an operand always.
* The text of an operand is read when something follows it that the level takes, or at the end. So
  an argument that the level does not take is reported before a bad operand in front of it.
* At the end of a level conflicting options are reported before missing operands. The end of the
  command comes before the end of the program's own level.
-/

namespace TraceMath.Cli

/-- A command with the options that bear on it. -/
structure Invocation where
  jit : Bool
  command : Command
  verbosity : Verbosity := {}
deriving DecidableEq

/-- The end of a reading without a command to carry out. -/
inductive Stop where
  | help (page : Page)
  | refused (e : UsageError)

/-! ## Shapes of arguments -/

/-- The shape of an argument. -/
inductive Token where
  /-- The argument `--`. -/
  | separator
  /-- A name behind two minus signs, with the value behind an equals sign. -/
  | long (name : String) (value : Option String)
  /-- One or more characters behind a minus sign. -/
  | short (cs : List Char)
  | word
deriving DecidableEq, Repr

/-- The text before the first equals sign, and the text behind it if there is one. -/
def splitValue : List Char → List Char × Option (List Char)
  | [] => ([], none)
  | c :: cs =>
    if c = '=' then ([], some cs)
    else
      let (name, value) := splitValue cs
      (c :: name, value)

def Token.ofChars : List Char → Token
  | ['-', '-'] => separator
  | '-' :: '-' :: cs =>
    let (name, value) := splitValue cs
    long (String.ofList name) (value.map String.ofList)
  | '-' :: c :: cs => short (c :: cs)
  | _ => word

/-- The characters behind a minus sign look like a number: digits, at most one point and not at
the front, and at most one `e` of either case, not at the front or the end, with no point behind
it. -/
def looksNumeric (cs : List Char) : Bool :=
  scan true false false cs
where
  /-- Flags for the front, a point and an `e` in what was scanned. -/
  scan (front point exponent : Bool) : List Char → Bool
    | [] => true
    | c :: cs =>
      if c.isDigit then scan false point exponent cs
      else if c = '.' then !front && !point && !exponent && scan false true exponent cs
      else if c = 'e' ∨ c = 'E' then !front && !exponent && !cs.isEmpty && scan false point true cs
      else false

/-! ## One level -/

/-- The state of a level. -/
structure Reader (α : Type) where
  /-- The help page of the level. -/
  page : Page
  /-- The operands that are still to be read. -/
  form : Form α
  /-- The text of an operand that is still to be read. -/
  pending : Option String := none
  /-- The options given, each as often as it was used. -/
  flags : List Flag := []
  /-- A `--` was given. -/
  operandsOnly : Bool := false

namespace Reader

variable {α : Type}

/-- The error of a text that is no value of an operand. -/
def invalid {β : Type} (name text reason : String) : Except Stop β :=
  .error (.refused (.invalidOperand name text reason))

/-- Reads the text that is still to be read. -/
def settle (r : Reader α) : Except Stop (Reader α) :=
  match r.pending, r.form with
  | none, _ | some _, .done _ => .ok r
  | some text, .int32 name next =>
    match Decimal.readInt32 text with
    | .ok n => .ok { r with form := next n, pending := none }
    | .error e => invalid name text e.message
  | some text, .binary64 name next =>
    match Decimal.readBinary64 text with
    | .ok x => .ok { r with form := next x, pending := none }
    | .error e => invalid name text e.message
  | some text, .opcode name next =>
    match Opcode.ofName text with
    | .ok op => .ok { r with form := next op, pending := none }
    | .error e => invalid name text e.diagnostic.message

/-- The form from the next operand on. -/
def upcoming (r : Reader α) : Form α := if r.pending.isSome then r.form.tail else r.form

/-- Takes an option. -/
def takeFlag (r : Reader α) (flag : Flag) : Except Stop (Reader α) := do
  let r ← r.settle
  if flag = .jit ∧ flag ∈ r.flags then throw (.refused (.repeated flag))
  pure { r with flags := r.flags ++ [flag] }

/-- Stops at the help page of the level. -/
def takeHelp (r : Reader α) : Except Stop (Reader α) := do
  let r ← r.settle
  throw (.help r.page)

/-- Takes an option by its long name. -/
def takeLong (r : Reader α) (name : String) (value : Option String) : Except Stop (Reader α) :=
  let without (option : String) (take : Except Stop (Reader α)) :=
    match value with
    | none => take
    | some v => .error (.refused (.attachedValue option v))
  match name with
  | "verbose" => without Flag.verbose.display (r.takeFlag .verbose)
  | "quiet" => without Flag.quiet.display (r.takeFlag .quiet)
  | "jit" => without Flag.jit.display (r.takeFlag .jit)
  | "help" => without "--help" r.takeHelp
  | _ => .error (.refused (.unexpectedArgument ("--" ++ name)))

/-- Takes an option by its letter. -/
def takeShort (r : Reader α) (c : Char) : Except Stop (Reader α) :=
  match c with
  | 'v' => r.takeFlag .verbose
  | 'q' => r.takeFlag .quiet
  | 'h' => r.takeHelp
  | _ => .error (.refused (.unexpectedArgument (String.ofList ['-', c])))

/-- Takes an operand, if one is still expected. -/
def takeOperand (r : Reader α) (arg : String) (unexpected : UsageError) :
    Except Stop (Reader α) := do
  if r.upcoming.isDone then throw (.refused unexpected)
  let r ← r.settle
  pure { r with pending := some arg }

/-- Takes an argument; `unexpected` is the error of a word that the level does not take. -/
def take (r : Reader α) (arg : String) (unexpected : UsageError) : Except Stop (Reader α) :=
  if r.operandsOnly then r.takeOperand arg unexpected
  else
    match Token.ofChars arg.toList with
    | .separator => .ok { r with operandsOnly := true }
    | .long name value => r.takeLong name value
    | .short cs =>
      if r.upcoming.allowsNegative && looksNumeric cs then r.takeOperand arg unexpected
      else cs.foldlM takeShort r
    | .word => r.takeOperand arg unexpected

/-- Refuses options that exclude each other, in the order of their last use. -/
def checkConflict (r : Reader α) : Except Stop Unit :=
  match (r.flags.filter (· ≠ .jit)).reverse with
  | [] => .ok ()
  | second :: earlier =>
    match earlier.find? (· ≠ second) with
    | some first => .error (.refused (.conflicting first second))
    | none => .ok ()

/-- Ends the level. -/
def finish (r : Reader α) : Except Stop α := do
  let r ← r.settle
  r.checkConflict
  match r.form with
  | .done a => pure a
  | form => throw (.refused (.missingOperands form.operands))

end Reader

/-! ## The whole line -/

/-- Reads the arguments of a command. -/
def readCommand (r : Reader Command) : List String → Except Stop Invocation
  | [] => do
    let command ← r.finish
    pure { jit := decide (.jit ∈ r.flags), command, verbosity := .ofFlags r.flags }
  | arg :: rest => do
    let r ← r.take arg (.unexpectedArgument arg)
    readCommand r rest

/-- The help page that a list of command names leads to. -/
def readHelp : List String → Stop
  | [] => .help .program
  | name :: rest =>
    let page? := if name = helpName then some Page.help else (Entry.find? name).map Page.ofEntry
    match page?, rest with
    | none, _ => .refused (.unknownCommand name)
    | some page, [] => .help page
    | some _, next :: _ => .refused (.unknownCommand next)

/-- Reads the arguments of the program from a state of its level. -/
def readFrom (r : Reader Unit) : List String → Except Stop Invocation
  | [] => throw (.refused (if r.flags.isEmpty then .nothingGiven else .missingCommand))
  | arg :: rest => do
    if r.operandsOnly && (arg = helpName || (Entry.find? arg).isSome) then
      throw (.refused (.unexpectedArgument arg))
    if !r.operandsOnly && arg = helpName then throw (readHelp rest)
    match if r.operandsOnly then none else Entry.find? arg with
    | some e =>
      let invocation ← readCommand { page := .ofEntry e, form := e.form } rest
      r.checkConflict
      pure { invocation with
        jit := invocation.jit || decide (.jit ∈ r.flags)
        verbosity := invocation.verbosity.within (.ofFlags r.flags) }
    | none =>
      let r ← r.take arg (.unknownCommand arg)
      readFrom r rest

/-- Reads a command line. -/
def readArguments (args : List String) : Except Stop Invocation :=
  readFrom { page := .program, form := .done () } args

end TraceMath.Cli
