import TraceMath.Binary64.Integral
import TraceMath.Build
import TraceMath.Opcode

/-!
# Evaluation of extended math opcodes

The constant folder evaluates an opcode, generated code an undecoded tag. `other` and a tag of no
opcode are a fault with the tag in it: the request can only come from a defect of the code
generator, and no value would be right.
-/

namespace TraceMath

/-- The value of an operation at `x`. -/
def fold (b : Build) (op : Opcode) (x : Binary64) : Checked Binary64 :=
  match op with
  | .floor => .ok x.floor
  | .ceil => .ok x.ceil
  | .trunc => .ok x.trunc
  | .sqrt => .ok x.sqrt
  | .exp => .ok (b.library.exp x)
  | .exp2 => .ok (b.exp2 x)
  | .log => .ok (b.library.log x)
  | .log2 => .ok (b.log2 x)
  | .log10 => .ok (b.library.log10 x)
  | .sin => .ok (b.library.sin x)
  | .cos => .ok (b.library.cos x)
  | .tan => .ok (b.library.tan x)
  | .other => .error (.unsupportedTag Opcode.other.tag)

/-- The value of the operation with the given tag at `x`. -/
def foldTag (b : Build) (tag : UInt32) (x : Binary64) : Checked Binary64 :=
  match Opcode.ofWord tag with
  | .ok op => fold b op x
  | .error _ => .error (.unsupportedTag tag)

/-- The folder and generated code agree on every opcode, `other` included. -/
@[simp] theorem foldTag_tag (b : Build) (op : Opcode) (x : Binary64) :
    foldTag b op.tag x = fold b op x := by
  simp [foldTag]

theorem exists_fold_eq_ok (b : Build) {op : Opcode} (h : op ≠ .other) (x : Binary64) :
    ∃ y, fold b op x = .ok y := by
  cases op with
  | other => exact absurd rfl h
  | _ => exact ⟨_, rfl⟩

end TraceMath
