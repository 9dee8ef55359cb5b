import TraceMath.Cli.Command

/-!
# Help pages

A page has a line on its subject, a line on its use, and sections of rows. In a section the second
column starts two blanks behind the longest entry of the first.
-/

namespace TraceMath.Cli

/-- A titled table of two columns. -/
structure Section where
  title : String
  rows : List (String × String)

structure Page where
  about : String
  usage : String
  sections : List Section

/-- Writes each line with its end. -/
def unlines (lines : List String) : String := String.join (lines.map (· ++ "\n"))

/-- The text, filled with blanks up to a width. -/
def padRight (width : Nat) (s : String) : String :=
  s ++ String.ofList (List.replicate (width - s.length) ' ')

namespace Section

def width (s : Section) : Nat := (s.rows.map fun row => row.1.length).foldl max 0

def lines (s : Section) : List String :=
  ["", s.title ++ ":"] ++
    s.rows.map fun row => "  " ++ padRight s.width row.1 ++ "  " ++ row.2

end Section

namespace Page

def lines (p : Page) : List String :=
  [p.about, "", "Usage: " ++ p.usage] ++ p.sections.flatMap Section.lines

def text (p : Page) : String := unlines p.lines

/-- The options of the program and of every command. -/
def options : Section where
  title := "Options"
  rows :=
    [("-v, --verbose...", "Increase logging verbosity"),
     ("-q, --quiet...", "Decrease logging verbosity"),
     ("    --jit", "Evaluate through JIT-compiled calls instead of direct calls"),
     ("-h, --help", "Print help")]

/-- The page of the program. -/
def program : Page where
  about := "Evaluate and inspect the trace compiler's VM math helpers"
  usage := programName ++ " [OPTIONS] <COMMAND>"
  sections :=
    [⟨"Commands", Entry.all.map (fun e => (e.name, e.about)) ++ [(helpName, helpAbout)]⟩, options]

/-- The page of a command. -/
def ofEntry (e : Entry) : Page :=
  let operands := e.form.operands.map fun name => "<" ++ name ++ ">"
  { about := e.about
    usage := " ".intercalate ([programName, e.name, "[OPTIONS]"] ++ operands)
    sections :=
      (if operands.isEmpty then []
        else [⟨"Arguments", operands.map fun operand => (operand, "")⟩]) ++ [options] }

/-- The page of the help command. -/
def help : Page where
  about := helpAbout
  usage := programName ++ " " ++ helpName ++ " [COMMAND]..."
  sections := [⟨"Arguments", [("[COMMAND]...", "Print help for the subcommand(s)")]⟩]

end Page

end TraceMath.Cli
