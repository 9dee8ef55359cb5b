/-!
# Diagnostics

What an error shows to the user, apart from the layout: a message, a code that identifies the
kind of error, a hint, and the message of the error behind it.
-/

namespace TraceMath

structure Diagnostic where
  message : String
  code : String
  help : Option String
  cause : Option String
deriving DecidableEq, Repr

end TraceMath
