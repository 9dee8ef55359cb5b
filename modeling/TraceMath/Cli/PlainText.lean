/-!
# Text for an output that is no terminal

A message emphasises words by the control sequences of a terminal. An output that is no terminal
gets the message without control characters and control sequences, those that a user typed
included.

* `plain` takes them out. Blanks, line breaks and all characters beyond ASCII are text.
* A break within a sequence is kept, and what follows it is text up to the next control character,
  where the sequence goes on.
-/

namespace TraceMath.Cli

/-! ## Characters -/

/-- The control characters that are blanks. -/
def isBreak (c : Char) : Bool := c = '\t' || c = '\n' || c = '\x0c' || c = '\r'

/-- Breaks, and what is no control character of ASCII. -/
def isText (c : Char) : Bool := isBreak c || (' ' ≤ c && c ≠ '\x7f')

/-- Characters that may stand between the parameters of a sequence and its end. -/
def isIntermediate (c : Char) : Bool := ' ' ≤ c && c ≤ '/'

/-- Digits, separators and marks of a parameter. -/
def isParameter (c : Char) : Bool := '0' ≤ c && c ≤ '?'

/-- Characters that end a control sequence. -/
def isFinal (c : Char) : Bool := '@' ≤ c && c ≤ '~'

/-- A byte of the character ends a string in eight-bit codes. -/
def endsString (c : Char) : Bool := (String.utf8EncodeChar c).contains 0x9c

/-! ## Control sequences -/

/-- Where a reader of a text is. -/
inductive Place where
  | text
  /-- Behind an escape character. -/
  | escape
  /-- Behind an escape character and an intermediate one. -/
  | escapeIntermediate
  /-- In a control sequence, which is introduced by `[`. -/
  | control
  /-- In a command to the operating system, which is introduced by `]`. -/
  | command
  /-- At the front of a device control string, which is introduced by `P`. -/
  | deviceEntry
  | deviceParameter
  | deviceIntermediate
  /-- In a string of any other kind, or in the data of a device control string. -/
  | string
deriving DecidableEq, Repr

namespace Place

/-- The character is shown at this place. -/
def shows (place : Place) (c : Char) : Bool :=
  match place with
  | text => isText c
  | escape | escapeIntermediate | control => isBreak c
  | _ => false

/-- The place behind a character that is not shown. The first three characters end whatever was
begun. -/
def next (place : Place) (c : Char) : Place :=
  if c = '\x18' ∨ c = '\x1a' then text
  else if c = '\x1b' then escape
  else
    match place with
    | text => text
    | escape =>
      if c = '[' then control
      else if c = ']' then command
      else if c = 'P' then deviceEntry
      else if c = 'X' ∨ c = '^' ∨ c = '_' then string
      else if isIntermediate c then escapeIntermediate
      else if isParameter c ∨ isFinal c then text
      else escape
    | escapeIntermediate => if isParameter c ∨ isFinal c then text else escapeIntermediate
    | control => if isFinal c then text else control
    | command => if c = '\x07' then text else command
    | deviceEntry =>
      if isIntermediate c then deviceIntermediate
      else if isParameter c then deviceParameter
      else if isFinal c then string
      else deviceEntry
    | deviceParameter =>
      if isIntermediate c then deviceIntermediate
      else if '<' ≤ c ∧ c ≤ '~' then string
      else deviceParameter
    | deviceIntermediate => if isParameter c ∨ isFinal c then string else deviceIntermediate
    | string => if endsString c then text else string

end Place

/-- The characters that are shown from a place on. `inText` holds behind a shown character: then
text is shown at every place, and a character beyond ASCII ends the sequence. -/
def plainFrom (place : Place) (inText : Bool) : List Char → List Char
  | [] => []
  | c :: cs =>
    if inText && isText c then c :: plainFrom (if c ≤ '\x7f' then place else .text) true cs
    else if place.shows c then c :: plainFrom place true cs
    else plainFrom (place.next c) false cs

/-- The text without control characters and control sequences. -/
def plain (s : String) : String := String.ofList (plainFrom .text true s.toList)

/-- Shows a word in bold on a terminal. -/
def emphasize (s : String) : String := "\x1b[1m" ++ s ++ "\x1b[0m"

end TraceMath.Cli
