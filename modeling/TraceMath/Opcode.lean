import TraceMath.Diagnostic

/-!
# Extended math opcodes

The thirteen operations that an extended-math instruction can carry. An instruction holds the
opcode's tag, a dump its name.

* `ofWord` decodes a tag; it refuses every word that is the tag of no opcode, and its error holds
  the word as it was.
* `ofName` reads a name in any ASCII case; its error holds the text as it was.
-/

namespace TraceMath

/-- An extended math operation. `other` marks an operation that is lowered to a generic call; it
has a tag and a name like the rest, and cannot be evaluated. -/
inductive Opcode where
  | floor
  | ceil
  | trunc
  | sqrt
  | exp
  | exp2
  | log
  | log2
  | log10
  | sin
  | cos
  | tan
  | other
deriving DecidableEq, Repr

/-- Why a tag or a name stands for no opcode. -/
inductive OpcodeError where
  | invalidTag (tag : UInt32)
  | unknownName (name : String)
deriving DecidableEq, Repr

namespace Opcode

/-- Every opcode, in the order of the tags. -/
def all : List Opcode :=
  [floor, ceil, trunc, sqrt, exp, exp2, log, log2, log10, sin, cos, tan, other]

/-- The mnemonic of dumps and of the command line. -/
def name : Opcode → String
  | floor => "floor"
  | ceil => "ceil"
  | trunc => "trunc"
  | sqrt => "sqrt"
  | exp => "exp"
  | exp2 => "exp2"
  | log => "log"
  | log2 => "log2"
  | log10 => "log10"
  | sin => "sin"
  | cos => "cos"
  | tan => "tan"
  | other => "other"

/-- The name with a capital first letter, for debug listings. -/
def label (op : Opcode) : String := op.name.capitalize

/-- The tag that an instruction operand and a helper call hold. -/
def tag : Opcode → UInt32
  | floor => 0
  | ceil => 1
  | trunc => 2
  | sqrt => 3
  | exp => 4
  | exp2 => 5
  | log => 6
  | log2 => 7
  | log10 => 8
  | sin => 9
  | cos => 10
  | tan => 11
  | other => 12

/-- The operations that round to an integer; backends often have an instruction for each. -/
def roundsToInteger : Opcode → Bool
  | floor | ceil | trunc => true
  | _ => false

/-- Opcodes are ordered by their tags. -/
instance : Ord Opcode := ⟨fun a b => compare a.tag b.tag⟩

/-- The opcode of a tag of eight bits. -/
def ofByte (tag : UInt8) : Except OpcodeError Opcode :=
  match all[tag.toNat]? with
  | some op => .ok op
  | none => .error (.invalidTag tag.toUInt32)

/-- The opcode of a tag. A word above 255 is refused before it is narrowed. -/
def ofWord (tag : UInt32) : Except OpcodeError Opcode :=
  if tag ≤ 255 then ofByte tag.toUInt8 else .error (.invalidTag tag)

/-- The text with the letters `A` to `Z` replaced by `a` to `z`. -/
def asciiLower (s : String) : String := s.map Char.toLower

/-- The opcode of a name, in any ASCII case. -/
def ofName (s : String) : Except OpcodeError Opcode :=
  let lowered := asciiLower s
  match all.find? (fun op => op.name == lowered) with
  | some op => .ok op
  | none => .error (.unknownName s)

theorem mem_all (op : Opcode) : op ∈ all := by cases op <;> decide

/-- An opcode stands in the list at its tag. -/
theorem all_getElem?_tag (op : Opcode) : all[op.tag.toNat]? = some op := by cases op <;> rfl

@[simp] theorem ofWord_tag (op : Opcode) : ofWord op.tag = .ok op := by cases op <;> rfl

theorem name_inj {a b : Opcode} (h : a.name = b.name) : a = b := by
  cases a <;> cases b <;> first | rfl | exact absurd h (by decide)

end Opcode

namespace OpcodeError

def diagnostic : OpcodeError → Diagnostic
  | invalidTag tag =>
    { message := s!"Invalid extended math opcode tag {tag}"
      code := "tracejit::ir::invalid_fpm_tag"
      help := none
      cause := none }
  | unknownName name =>
    { message := s!"Unknown extended math opcode '{name}'"
      code := "tracejit::ir::unknown_fpm_name"
      help := some ("Expected one of: floor, ceil, trunc, sqrt, exp, exp2, log, log2, log10, " ++
        "sin, cos, tan")
      cause := none }

end OpcodeError

end TraceMath
