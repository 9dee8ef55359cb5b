import TraceMath.Cli.Arguments
import TraceMath.Cli.Report
import TraceMath.Decimal.Shortest
import TraceMath.Engine

/-!
# Running a command line

The end of the process as a value: exit code, standard output, error output, and the log, which is
written to the error output as well. A command that is carried out exits with 0, one that is refused
with 1 and a report, a command line that cannot be read with 2.
-/

namespace TraceMath.Cli

structure ProcessResult where
  exit : Nat
  stdout : String
  /-- The error output, apart from the log. -/
  stderr : String
  log : List LogRecord
deriving DecidableEq, Repr

namespace ProcessResult

/-- A command was carried out. -/
def success (stdout : String) : ProcessResult := ⟨0, stdout, "", []⟩

/-- A value was computed; it is written on a line of its own. -/
def printed (text : List Char) : ProcessResult := success (String.ofList (text ++ ['\n']))

/-- The end of an evaluation. An abort is the end by a signal, which shells show as 134. -/
def ofOutcome {α : Type} (chars : α → List Char) : Outcome EvaluationError α → ProcessResult
  | .value a => printed (chars a)
  | .refused e => ⟨1, "", unlines (report e.diagnostic), []⟩
  | .aborted f => ⟨134, "", unlines [f.message], f.log⟩

/-- The same end, with more records in front of its log. -/
def after (r : ProcessResult) (records : List LogRecord) : ProcessResult :=
  { r with log := records ++ r.log }

/-- The same end, with the records that are shown. -/
def shown (r : ProcessResult) (v : Verbosity) : ProcessResult :=
  { r with log := r.log.filter v.shows }

end ProcessResult

/-- The lines that show the capabilities of a build. -/
def capabilityLines (c : Capabilities) : List String :=
  [padRight 19 "native_log2" ++ s!" {c.nativeLog2}",
   padRight 19 "native_exp2" ++ s!" {c.nativeExp2}",
   padRight 19 "hyperbolic_wrappers" ++ s!" {c.hyperbolicWrappers}"]

/-- The lines that list the helpers of a build. -/
def symbolLines (b : Build) : List String :=
  (Helper.table b).map fun h => padRight 24 h.name ++ " " ++ h.signature.name

/-- Evaluates through generated code or directly. -/
def evaluate {α : Type} (b : Build) (jit : Bool) (chars : α → List Char)
    (request : Engine → Outcome EvaluationError α) : ProcessResult :=
  let result : ProcessResult :=
    match Engine.select b jit with
    | .ok engine => .ofOutcome chars (request engine)
    | .error e => .ofOutcome chars (.refused e)
  result.after (if jit then Jit.linkLog b else [])

/-- Carries out a command. -/
def Command.carryOut (b : Build) (jit : Bool) : Command → ProcessResult
  | remainder x y => evaluate b jit int32Chars (·.remainder x y)
  | power x k => evaluate b jit Binary64.chars (·.power x k)
  | fold op x => evaluate b jit Binary64.chars (·.fold op x)
  | capabilities => .success (unlines (capabilityLines b.capabilities))
  | symbols => .success (unlines (symbolLines b))

/-- Logs a command and carries it out. -/
def execute (b : Build) (i : Invocation) : ProcessResult :=
  ((i.command.carryOut b i.jit).after [i.command.record i.jit]).shown i.verbosity

/-- Runs a command line. -/
def run (b : Build) (args : List String) : ProcessResult :=
  match readArguments args with
  | .ok i => execute b i
  | .error (.help page) => .success page.text
  | .error (.refused e) => ⟨2, "", e.text, []⟩

end TraceMath.Cli
