import TraceMath.Cli.Run
import TraceMath.Elementary.Library

/-!
# The command-line program
-/

open TraceMath

def main (args : List String) : IO UInt32 := do
  let result := Cli.run .native args
  for record in result.log do
    IO.eprintln ("[" ++ record.render ++ "]")
  IO.print result.stdout
  IO.eprint result.stderr
  pure (UInt32.ofNat result.exit)
