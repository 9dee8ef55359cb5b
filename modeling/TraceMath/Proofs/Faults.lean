import TraceMath.Elementary.Library
import TraceMath.Proofs.Lookup

/-!
# Where a helper ends the process

A tag is decoded exactly, and a call ends the process exactly where the contract of the helper is
broken: for a tag of no opcode that can be evaluated, and for a divisor of zero.

* `Opcode.ofWord_eq_ok_iff` and `Opcode.ofWord_eq_error_iff`: the decoder inverts `Opcode.tag`, and
  refuses every other word with the word in the error.
* `foldTag_eq_error_iff`: the fault of a tag, decoded or not, holds the tag.
* `Helper.call_eq_aborted_iff`: the same for every helper of the table and all arguments.
-/

namespace TraceMath

/-! ## Decoding -/

namespace Opcode

theorem all_nodup : all.Nodup := by decide

/-- The place of an opcode in the list is its tag. -/
theorem tag_of_getElem?_all {n : Nat} {op : Opcode} (h : all[n]? = some op) :
    op.tag.toNat = n := by
  have hn : n < all.length := (List.getElem?_eq_some_iff.mp h).1
  exact ((List.getElem?_inj hn all_nodup).mp (h.trans (all_getElem?_tag op).symm)).symm

theorem toNat_toUInt8_of_le {tag : UInt32} (h : tag ≤ 255) : tag.toUInt8.toNat = tag.toNat := by
  have hle : tag.toNat ≤ 255 := UInt32.le_iff_toNat_le.mp h
  rw [UInt32.toNat_toUInt8]
  omega

/-- A word is decoded to the opcode that has it as its tag. -/
theorem ofWord_eq_ok_iff (tag : UInt32) (op : Opcode) : ofWord tag = .ok op ↔ op.tag = tag := by
  constructor
  · intro h
    rw [ofWord] at h
    split at h
    · next hle =>
      rw [ofByte, toNat_toUInt8_of_le hle] at h
      split at h
      · next ho =>
        cases h
        exact UInt32.toNat_inj.mp (tag_of_getElem?_all ho)
      · cases h
    · cases h
  · rintro rfl
    exact ofWord_tag op

/-- A word that is the tag of no opcode is refused as it was. -/
theorem ofWord_of_unknown {tag : UInt32} (h : ∀ op : Opcode, op.tag ≠ tag) :
    ofWord tag = .error (.invalidTag tag) := by
  rw [ofWord]
  split
  · next hle =>
    have hback : tag.toUInt8.toUInt32 = tag := by
      apply UInt32.toNat_inj.mp
      rw [UInt8.toNat_toUInt32, toNat_toUInt8_of_le hle]
    rw [ofByte, toNat_toUInt8_of_le hle]
    split
    · next op ho => exact absurd (UInt32.toNat_inj.mp (tag_of_getElem?_all ho)) (h op)
    · rw [hback]
  · rfl

theorem ofWord_eq_error_iff (tag : UInt32) (e : OpcodeError) :
    ofWord tag = .error e ↔ (∀ op : Opcode, op.tag ≠ tag) ∧ e = .invalidTag tag := by
  constructor
  · intro h
    have hunknown : ∀ op : Opcode, op.tag ≠ tag := by
      rintro op rfl
      simp at h
    rw [ofWord_of_unknown hunknown] at h
    cases h
    exact ⟨hunknown, rfl⟩
  · rintro ⟨h, rfl⟩
    exact ofWord_of_unknown h

/-- A tag of eight bits is decoded as the same word. -/
theorem ofByte_eq_ofWord (tag : UInt8) : ofByte tag = ofWord tag.toUInt32 := by
  have hle : tag.toUInt32 ≤ 255 := by
    rw [UInt32.le_iff_toNat_le, UInt8.toNat_toUInt32]
    exact Nat.le_of_lt_succ tag.toNat_lt
  rw [ofWord, if_pos hle, UInt8.toUInt8_toUInt32]

/-- The word is the tag of an operation that can be evaluated. -/
def Evaluable (tag : UInt32) : Prop := ∃ op, ofWord tag = .ok op ∧ op ≠ other

end Opcode

/-! ## Evaluating a tag -/

theorem foldTag_of_ofWord {tag : UInt32} {op : Opcode} (h : Opcode.ofWord tag = .ok op) (b : Build)
    (x : Binary64) : foldTag b tag x = fold b op x := by
  rw [foldTag, h]

/-- `other` is decoded, and any further tag is not. Both are the same fault. -/
theorem foldTag_of_not_evaluable {tag : UInt32} (h : ¬Opcode.Evaluable tag) (b : Build)
    (x : Binary64) : foldTag b tag x = .error (.unsupportedTag tag) := by
  rw [foldTag]
  cases hw : Opcode.ofWord tag with
  | error e => rfl
  | ok op =>
    obtain rfl : op = .other := by
      by_contra hop
      exact h ⟨op, hw, hop⟩
    rw [← (Opcode.ofWord_eq_ok_iff tag .other).mp hw]
    rfl

theorem exists_foldTag_eq_ok {tag : UInt32} (h : Opcode.Evaluable tag) (b : Build) (x : Binary64) :
    ∃ y, foldTag b tag x = .ok y := by
  obtain ⟨op, hw, hop⟩ := h
  rw [foldTag_of_ofWord hw]
  exact exists_fold_eq_ok b hop x

theorem foldTag_eq_error_iff (b : Build) (tag : UInt32) (x : Binary64) (f : Fault) :
    foldTag b tag x = .error f ↔ ¬Opcode.Evaluable tag ∧ f = .unsupportedTag tag := by
  constructor
  · intro h
    have hnot : ¬Opcode.Evaluable tag := by
      intro he
      obtain ⟨y, hy⟩ := exists_foldTag_eq_ok he b x
      rw [hy] at h
      cases h
    rw [foldTag_of_not_evaluable hnot] at h
    cases h
    exact ⟨hnot, rfl⟩
  · rintro ⟨h, rfl⟩
    exact foldTag_of_not_evaluable h b x

/-! ## Calling a helper of the table -/

theorem checkedRem_eq_error_iff (x y : Int32) (f : Fault) :
    checkedRem x y = .error f ↔ y = 0 ∧ f = .zeroDivisor := by
  rw [checkedRem]
  split
  · next hy => simp [hy, eq_comm]
  · next hy => simp [hy]

theorem map_eq_error_iff {α β : Type} (g : α → β) (c : Checked α) (f : Fault) :
    c.map g = .error f ↔ c = .error f := by
  cases c <;> simp [Except.map]

namespace Helper

/-- **Which calls end the process**: the tag of no operation that can be evaluated, and the divisor
zero. No other helper does, whatever its arguments. -/
theorem call_eq_aborted_iff (b : Build) (name : String) (args : Arguments) (f : Fault) :
    call b name args = .aborted f ↔
      (name = foldName ∧ ∃ x tag, args = .floatTag x tag ∧ ¬Opcode.Evaluable tag ∧
        f = .unsupportedTag tag) ∨
      (name = remainderName ∧ ∃ x, args = .intInt x 0 ∧ f = .zeroDivisor) := by
  constructor
  · intro h
    obtain ⟨helper, hf, hcall⟩ := call_eq_aborted h
    obtain ⟨hm, rfl⟩ := (find?_eq_some_iff b name helper).mp hf
    have hs := Routine.signature_eq_of_call hcall
    -- The signature leaves one shape of arguments for each helper.
    obtain rfl | rfl | rfl | ⟨n, g, rfl⟩ := cases_of_mem hm <;> cases args <;> cases hs
    case inl.intInt.refl x y =>
      have hrem := (map_eq_error_iff _ _ f).mp (Option.some.inj hcall)
      obtain ⟨rfl, rfl⟩ := (checkedRem_eq_error_iff x y f).mp hrem
      exact .inr ⟨rfl, x, rfl, rfl⟩
    case inr.inl.floatInt.refl x k => cases hcall
    case inr.inr.inl.floatTag.refl x tag =>
      have hfold := (map_eq_error_iff _ _ f).mp (Option.some.inj hcall)
      obtain ⟨he, rfl⟩ := (foldTag_eq_error_iff b tag x f).mp hfold
      exact .inl ⟨rfl, x, tag, rfl, he, rfl⟩
    case inr.inr.inr.float.refl x => cases hcall
  · rintro (⟨rfl, x, tag, rfl, he, rfl⟩ | ⟨rfl, x, rfl, rfl⟩)
    · simp [foldTag_of_not_evaluable he, Except.map]
    · rfl

end Helper

/-! ## All tags and all calls -/

/-- **Tags are decoded exactly, and a call ends the process exactly outside its contract.** A word
is decoded to the opcode that has it as its tag, or is refused with the whole word in the error; a
byte is decoded alike. A tag is evaluated if and only if it is that of an opcode other than `other`,
and then as this opcode. Any other tag is a fault whose message and one log record hold the tag in
decimal. Of all calls of exported helpers only those with such a tag and those with a divisor of
zero end the process, and all others answer as the function itself. -/
theorem calls_end_the_process_exactly_outside_contract (b : Build) :
    (∀ tag op, Opcode.ofWord tag = .ok op ↔ op.tag = tag) ∧
    (∀ tag e, Opcode.ofWord tag = .error e ↔
      (∀ op : Opcode, op.tag ≠ tag) ∧ e = .invalidTag tag) ∧
    (∀ tag, 255 < tag → Opcode.ofWord tag = .error (.invalidTag tag)) ∧
    (∀ tag : UInt8, Opcode.ofByte tag = Opcode.ofWord tag.toUInt32) ∧
    (∀ tag x, (∃ y, foldTag b tag x = .ok y) ↔ ∃ op, Opcode.ofWord tag = .ok op ∧ op ≠ .other) ∧
    (∀ tag x op, Opcode.ofWord tag = .ok op → op ≠ .other →
      ∃ y, fold b op x = .ok y ∧ foldTag b tag x = .ok y ∧
        Helper.call b "tracejit_vm_foldfpm" (.floatTag x tag) = .value (.float y)) ∧
    (∀ tag x f, foldTag b tag x = .error f ↔
      ¬(∃ op, Opcode.ofWord tag = .ok op ∧ op ≠ .other) ∧ f = .unsupportedTag tag) ∧
    (∀ tag, (Fault.unsupportedTag tag).message =
        "foldfpm: unsupported extended math opcode tag " ++ tag.toNat.repr ∧
      (Fault.unsupportedTag tag).log = [⟨.error, "tracejit_vmmath::fpm",
        "foldfpm: unsupported extended math opcode tag " ++ tag.toNat.repr⟩]) ∧
    (∀ name args f, Helper.call b name args = .aborted f ↔
      (name = "tracejit_vm_foldfpm" ∧ ∃ x tag, args = .floatTag x tag ∧
        ¬(∃ op, Opcode.ofWord tag = .ok op ∧ op ≠ .other) ∧ f = .unsupportedTag tag) ∨
      (name = "tracejit_vm_modi" ∧ ∃ x, args = .intInt x 0 ∧ f = .zeroDivisor)) ∧
    (∀ x y : Int32, y ≠ 0 → checkedRem x y = .ok (floorRem x y) ∧
      Helper.call b "tracejit_vm_modi" (.intInt x y) = .value (.int (floorRem x y))) ∧
    (∀ x k, Helper.call b "tracejit_vm_powi" (.floatInt x k) = .value (.float (x.powInt k))) ∧
    (∀ op ∈ [.floor, .ceil, .trunc, .log2, .exp2], ∀ x, ∃ y, fold b op x = .ok y ∧
      Helper.call b ("tracejit_vm_" ++ op.name) (.float x) = .value (.float y)) ∧
    (b.capabilities.hyperbolicWrappers = true → ∀ x,
      Helper.call b "tracejit_vm_sinh" (.float x) = .value (.float (b.library.sinh x)) ∧
      Helper.call b "tracejit_vm_cosh" (.float x) = .value (.float (b.library.cosh x)) ∧
      Helper.call b "tracejit_vm_tanh" (.float x) = .value (.float (b.library.tanh x))) := by
  refine ⟨Opcode.ofWord_eq_ok_iff, Opcode.ofWord_eq_error_iff, fun tag htag => ?_,
    Opcode.ofByte_eq_ofWord, fun tag x => ⟨?_, fun h => exists_foldTag_eq_ok h b x⟩,
    fun tag x op hw hop => ?_, foldTag_eq_error_iff b, fun tag => ⟨rfl, rfl⟩,
    Helper.call_eq_aborted_iff b, fun x y hy => ⟨checkedRem_eq_ok x hy, ?_⟩, Helper.call_power b,
    fun op hop x => ?_, fun hyp x => ?_⟩
  · exact if_neg (UInt32.not_le.mpr htag)
  · rintro ⟨y, hy⟩
    by_contra hnot
    rw [foldTag_of_not_evaluable hnot] at hy
    cases hy
  · obtain ⟨y, hy⟩ := exists_fold_eq_ok b hop x
    have hfold : foldTag b tag x = .ok y := (foldTag_of_ofWord hw b x).trans hy
    exact ⟨y, hy, hfold, Helper.call_fold_of_ok hfold⟩
  · exact Helper.call_remainder_of_ne_zero b x hy
  · obtain ⟨y, hy⟩ := Helper.exists_eq_ok_of_function (Helper.function_exported b hop) x
    exact ⟨y, hy, Helper.call_exported hop hy⟩
  · have hw : Helper.wrappers b = [Helper.unary "tracejit_vm_sinh" b.library.sinh,
        Helper.unary "tracejit_vm_cosh" b.library.cosh,
        Helper.unary "tracejit_vm_tanh" b.library.tanh] := if_pos hyp
    exact ⟨Helper.call_wrapper (by simp [hw]) x, Helper.call_wrapper (by simp [hw]) x,
      Helper.call_wrapper (by simp [hw]) x⟩

/-- The low byte of the tag 256 is the tag of an opcode; a tag that is evaluated, a remainder, an
opcode's own helper and the wrappers. -/
theorem calls_end_the_process_exactly_outside_contract_native :
    ((255 : UInt32) < 256 ∧ Opcode.ofWord 256 = .error (.invalidTag 256)) ∧
    (Opcode.ofWord 1 = .ok .ceil ∧ Opcode.ceil ≠ .other ∧
      ∃ y, fold .native .ceil .one = .ok y ∧ foldTag .native 1 .one = .ok y ∧
        Helper.call .native "tracejit_vm_foldfpm" (.floatTag .one 1) = .value (.float y)) ∧
    ((3 : Int32) ≠ 0 ∧ checkedRem (-7) 3 = .ok (floorRem (-7) 3)) ∧
    (Opcode.log2 ∈ [.floor, .ceil, .trunc, .log2, .exp2] ∧
      ∃ y, fold .native .log2 .one = .ok y ∧
        Helper.call .native ("tracejit_vm_" ++ Opcode.log2.name) (.float .one) =
          .value (.float y)) ∧
    (Build.native.capabilities.hyperbolicWrappers = true ∧
      Helper.call .native "tracejit_vm_sinh" (.float .one) =
        .value (.float (Build.native.library.sinh .one))) := by
  obtain ⟨-, -, hwide, -, -, hfold, -, -, -, hrem, -, hown, hhyp⟩ :=
    calls_end_the_process_exactly_outside_contract .native
  have hlarge : (255 : UInt32) < 256 := by decide
  have hceil : Opcode.ceil ≠ .other := by decide
  have hthree : (3 : Int32) ≠ 0 := by decide
  have hlog : Opcode.log2 ∈ [.floor, .ceil, .trunc, .log2, .exp2] := by decide
  exact ⟨⟨hlarge, hwide 256 hlarge⟩, ⟨rfl, hceil, hfold 1 .one .ceil rfl hceil⟩,
    ⟨hthree, (hrem (-7) 3 hthree).1⟩, ⟨hlog, hown .log2 hlog .one⟩, rfl, (hhyp rfl .one).1⟩

end TraceMath
