import TraceMath.Diagnostic

/-!
# Error reports

A diagnostic is reported by its code, its message, the message of its cause, and its hint, which is
broken into lines of at most 78 characters.
-/

namespace TraceMath.Cli

/-- Breaks words into lines of at most `width` characters, one blank between two words; a line
that holds a single word may be longer. `line` is the line begun. -/
def fill (width : Nat) (line : String) : List String → List String
  | [] => [line]
  | word :: rest =>
    if line.length + 1 + word.length ≤ width then fill width (line ++ " " ++ word) rest
    else line :: fill width word rest

/-- Breaks a text into lines of at most `width` characters. -/
def wrap (width : Nat) (text : String) : List String :=
  match text.splitOn " " with
  | [] => []
  | word :: rest => fill width word rest

/-- Puts `first` in front of the first line and as many blanks in front of the others. -/
def hang (first : String) : List String → List String
  | [] => []
  | line :: rest =>
    let blanks := String.ofList (List.replicate first.length ' ')
    (first ++ line) :: rest.map (blanks ++ ·)

/-- The width of a report. -/
def reportWidth : Nat := 78

/-- The lines of an error report. -/
def report (d : Diagnostic) : List String :=
  let indented (first text : String) := hang first (wrap (reportWidth - first.length) text)
  ["Error: " ++ d.code, ""] ++ indented "  × " d.message ++
    (d.cause.map (indented "  ╰─▶ ")).getD [] ++ (d.help.map (indented "  help: ")).getD []

end TraceMath.Cli
