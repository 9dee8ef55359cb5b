import Mathlib.Data.List.Nodup
import TraceMath.Helper.Call

/-!
# Look-up by name

Helpers, declarations, compiled functions and trampolines stand in lists that are searched by a name
or an id.

* `find?_key_eq_some_iff`: where the keys are distinct, a look-up gives the entry of exactly that
  key, wherever it stands; so the first match and the last one are the same.
* `Helper.find?_eq_some_iff`: the table of every build is such a list.
* `Helper.function_remainder` and the equations behind it are the functions that the table has, and
  `Helper.call_remainder` and those behind it are the calls of them.
-/

namespace TraceMath

section Keyed

variable {α κ : Type} [BEq κ] [LawfulBEq κ] {key : α → κ} {l : List α}

theorem find?_key_eq_some_iff (h : (l.map key).Nodup) (k : κ) (a : α) :
    l.find? (key · == k) = some a ↔ a ∈ l ∧ key a = k := by
  have keyed {c : α} {k : κ} (hc : l.find? (key · == k) = some c) : c ∈ l ∧ key c = k :=
    ⟨List.mem_of_find?_eq_some hc, by simpa using List.find?_some hc⟩
  refine ⟨keyed, ?_⟩
  rintro ⟨ha, rfl⟩
  have hs : (l.find? (key · == key a)).isSome := List.find?_isSome.mpr ⟨a, ha, by simp⟩
  obtain ⟨c, hc⟩ := Option.isSome_iff_exists.mp hs
  obtain ⟨hm, he⟩ := keyed hc
  rw [hc, List.inj_on_of_nodup_map h hm ha he]

theorem find?_key_eq_none_iff (k : κ) : l.find? (key · == k) = none ↔ k ∉ l.map key := by
  simp only [List.find?_eq_none, beq_iff_eq, List.mem_map, not_exists, not_and]

end Keyed

namespace Opcode

/-- The opcodes that are exported as helpers of their own as well. -/
def exported : List Opcode := [floor, ceil, trunc, log2, exp2]

/-- The name of an opcode's own helper. -/
def helperName (op : Opcode) : String := "tracejit_vm_" ++ op.name

end Opcode

namespace Routine

/-- A routine is a function of its own signature. -/
theorem exists_as? {r : Routine} {s : Signature} (h : r.signature = s) :
    ∃ f, r.as? s = some f := by
  subst h
  cases r <;> exact ⟨_, rfl⟩

theorem as?_eq_none_iff (r : Routine) (s : Signature) : r.as? s = none ↔ r.signature ≠ s := by
  cases r <;> cases s <;> simp [as?, signature]

/-- A call that is made has arguments of the routine's signature. -/
theorem signature_eq_of_call {r : Routine} {args : Arguments} {c : Checked Value}
    (h : r.call args = some c) : r.signature = args.signature := by
  by_contra hs
  rw [call, (as?_eq_none_iff r args.signature).mpr hs] at h
  cases h

theorem call_float (r : Routine) (x : Binary64) :
    r.call (.float x) = (r.as? .floatToFloat).map fun f => (f x).map .float := rfl

end Routine

namespace Helper

/-! ## Names -/

theorem names_nodup (b : Build) : ((table b).map (·.name)).Nodup := by
  unfold table wrappers unary
  cases b.capabilities.hyperbolicWrappers <;>
    simp only [List.map_append, List.map_cons, List.map_nil, ite_true, Bool.false_eq_true,
      ite_false] <;>
    decide

theorem find?_eq_some_iff (b : Build) (name : String) (h : Helper) :
    find? b name = some h ↔ h ∈ table b ∧ h.name = name :=
  find?_key_eq_some_iff (names_nodup b) name h

/-- A name is found if exactly one helper of the table has it. -/
theorem exists_find?_iff (b : Build) (name : String) :
    (∃ h, find? b name = some h) ↔ ∃! h, h ∈ table b ∧ h.name = name := by
  constructor
  · rintro ⟨h, hf⟩
    refine ⟨h, (find?_eq_some_iff b name h).mp hf, fun h' hm => ?_⟩
    exact Option.some.inj (((find?_eq_some_iff b name h').mpr hm).symm.trans hf)
  · rintro ⟨h, hm, -⟩
    exact ⟨h, (find?_eq_some_iff b name h).mpr hm⟩

/-! ## Rows -/

theorem exists_unary_of_mem_wrappers {b : Build} {h : Helper} (hm : h ∈ wrappers b) :
    ∃ name f, h = unary name f := by
  unfold wrappers at hm
  split at hm
  · simp only [List.mem_cons, List.not_mem_nil, or_false] at hm
    rcases hm with rfl | rfl | rfl <;> exact ⟨_, _, rfl⟩
  · cases hm

/-- A helper of the table is one of the three with more than one argument, or takes one number. -/
theorem cases_of_mem {b : Build} {h : Helper} (hm : h ∈ table b) :
    h = ⟨remainderName, .intIntToInt checkedRem⟩ ∨
      h = ⟨powerName, .floatIntToFloat fun x k => .ok (x.powInt k)⟩ ∨
      h = ⟨foldName, .floatTagToFloat fun x tag => foldTag b tag x⟩ ∨
      ∃ name f, h = unary name f := by
  simp only [table, List.cons_append, List.nil_append, List.mem_cons] at hm
  rcases hm with h | h | h | h | h | h | h | h | h
  · exact .inl h
  · exact .inr (.inl h)
  · exact .inr (.inr (.inl h))
  · exact .inr (.inr (.inr ⟨_, _, h⟩))
  · exact .inr (.inr (.inr ⟨_, _, h⟩))
  · exact .inr (.inr (.inr ⟨_, _, h⟩))
  · exact .inr (.inr (.inr ⟨_, _, h⟩))
  · exact .inr (.inr (.inr ⟨_, _, h⟩))
  · exact .inr (.inr (.inr (exists_unary_of_mem_wrappers h)))

/-! ## Functions -/

section Function

variable {b : Build} {name : String} {s : Signature}

theorem function_of_absent (hf : find? b name = none) (s : Signature) :
    function b name s = .refused (.unknownHelper name) := by
  simp only [function, hf]

theorem function_of_mismatch {h : Helper} (hf : find? b name = some h) (hs : h.signature ≠ s) :
    function b name s = .refused (.signatureMismatch name s h.signature) := by
  simp only [function, hf, (Routine.as?_eq_none_iff _ s).mpr hs]

theorem function_of_as? {h : Helper} {f : s.Function} (hf : find? b name = some h)
    (ha : h.routine.as? s = some f) : function b name s = .value f := by
  simp only [function, hf, ha]

@[simp] theorem function_remainder (b : Build) :
    function b remainderName .intIntToInt = .value checkedRem := rfl

@[simp] theorem function_power (b : Build) :
    function b powerName .floatIntToFloat = .value fun x k => .ok (x.powInt k) := rfl

@[simp] theorem function_fold (b : Build) :
    function b foldName .floatTagToFloat = .value fun x tag => foldTag b tag x := rfl

/-- An opcode's own helper is the function that the opcode evaluates to. -/
theorem function_exported (b : Build) {op : Opcode} (h : op ∈ Opcode.exported) :
    function b op.helperName .floatToFloat = .value (fold b op) := by
  simp only [Opcode.exported, List.mem_cons, List.not_mem_nil, or_false] at h
  rcases h with rfl | rfl | rfl | rfl | rfl <;> rfl

/-- The two functions of opcodes have one signature each. -/
theorem function_fold_of_ne (b : Build) (h : s ≠ .floatTagToFloat) :
    function b foldName s = .refused (.signatureMismatch foldName s .floatTagToFloat) := by
  cases s with
  | floatTagToFloat => exact absurd rfl h
  | _ => rfl

theorem function_exported_of_ne (b : Build) {op : Opcode} (hop : op ∈ Opcode.exported)
    (h : s ≠ .floatToFloat) :
    function b op.helperName s = .refused (.signatureMismatch op.helperName s .floatToFloat) := by
  simp only [Opcode.exported, List.mem_cons, List.not_mem_nil, or_false] at hop
  rcases hop with rfl | rfl | rfl | rfl | rfl <;> cases s <;> first | rfl | exact absurd rfl h

/-- A wrapper is found like any helper, where the target has it. -/
theorem function_wrapper {f : Binary64 → Binary64} (h : unary name f ∈ wrappers b) :
    function b name .floatToFloat = .value fun x => .ok (f x) :=
  function_of_as? ((find?_eq_some_iff b name _).mpr ⟨List.mem_append_right _ h, rfl⟩) rfl

/-- A helper of one number never ends the process. -/
theorem exists_eq_ok_of_function {f : Binary64 → Checked Binary64}
    (hf : function b name .floatToFloat = .value f) (x : Binary64) : ∃ y, f x = .ok y := by
  cases hfind : find? b name with
  | none => simp [function, hfind] at hf
  | some h =>
    obtain rfl | rfl | rfl | ⟨n, g, rfl⟩ := cases_of_mem ((find?_eq_some_iff b name h).mp hfind).1
      <;> simp [function, hfind, unary, Routine.as?] at hf
    subst hf
    exact ⟨g x, rfl⟩

end Function

/-! ## Calls -/

/-- A helper that is found is called, unless the arguments are not those of its signature. -/
theorem call_of_find? {b : Build} {name : String} {h : Helper} (hf : find? b name = some h)
    (args : Arguments) :
    call b name args =
      match h.routine.call args with
      | some c => .ofChecked c
      | none => .refused (.signatureMismatch name args.signature h.signature) := by
  simp only [call, function, Routine.call, hf]
  cases h.routine.as? args.signature <;> rfl

/-- A call ends the process if the code of the helper does. -/
theorem call_eq_aborted {b : Build} {name : String} {args : Arguments} {f : Fault}
    (h : call b name args = .aborted f) :
    ∃ helper, find? b name = some helper ∧ helper.routine.call args = some (.error f) := by
  cases hf : find? b name with
  | none => simp [call, function_of_absent hf] at h
  | some helper =>
    rw [call_of_find? hf] at h
    refine ⟨helper, rfl, ?_⟩
    split at h
    · next c hc =>
      rw [hc]
      cases c <;> simp_all
    · cases h

@[simp] theorem call_remainder (b : Build) (x y : Int32) :
    call b remainderName (.intInt x y) = .ofChecked ((checkedRem x y).map .int) := rfl

@[simp] theorem call_power (b : Build) (x : Binary64) (k : Int32) :
    call b powerName (.floatInt x k) = .value (.float (x.powInt k)) := rfl

@[simp] theorem call_fold (b : Build) (x : Binary64) (tag : UInt32) :
    call b foldName (.floatTag x tag) = .ofChecked ((foldTag b tag x).map .float) := rfl

theorem call_float (b : Build) (name : String) (x : Binary64) :
    call b name (.float x) =
      (function b name .floatToFloat).bind fun f => .ofChecked ((f x).map .float) := rfl

theorem call_remainder_of_ne_zero (b : Build) (x : Int32) {y : Int32} (h : y ≠ 0) :
    call b remainderName (.intInt x y) = .value (.int (floorRem x y)) := by
  simp [checkedRem_eq_ok x h, Except.map]

theorem call_fold_of_ok {b : Build} {x y : Binary64} {tag : UInt32} (h : foldTag b tag x = .ok y) :
    call b foldName (.floatTag x tag) = .value (.float y) := by
  simp [h, Except.map]

theorem call_exported {b : Build} {op : Opcode} (hop : op ∈ Opcode.exported) {x y : Binary64}
    (h : fold b op x = .ok y) : call b op.helperName (.float x) = .value (.float y) := by
  rw [call_float, function_exported b hop, Outcome.bind, h]
  rfl

theorem call_wrapper {b : Build} {name : String} {f : Binary64 → Binary64}
    (h : unary name f ∈ wrappers b) (x : Binary64) :
    call b name (.float x) = .value (.float (f x)) := by
  rw [call_float, function_wrapper h]
  rfl

end Helper

end TraceMath
