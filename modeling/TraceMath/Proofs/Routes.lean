import TraceMath.Chain
import TraceMath.Elementary.Library
import TraceMath.Proofs.CodeModule.Linking
import TraceMath.Proofs.Machine

/-!
# Every route to a helper computes the same function

A request reaches a helper directly, through the table of exported helpers, or through generated
code; an opcode is given by itself, by its tag, or by the name of its own helper.

* `Step.operation` forgets the route of a step, `Operation.value?` is what the operation gives.
  `Step.value?_run` says that these two together are what a step gives on any route.
* `map_value?_runChain`: so the values of a chain are those of its operations, and
  `final_eq_foldl` says the same of the number that it leaves.
* `next_of_failed`: a step that fails hands on what it got, so it can be left out of a chain.
-/

namespace TraceMath

/-! ## Values of outcomes -/

namespace Outcome

variable {ε ε' α : Type}

/-- The value, if the request ended with one. -/
def value? : Outcome ε α → Option α
  | value a => some a
  | _ => none

@[simp] theorem value?_value (a : α) : (value a : Outcome ε α).value? = some a := rfl

@[simp] theorem value?_ofChecked (c : Checked α) :
    (ofChecked c : Outcome ε α).value? = c.toOption := by
  cases c <;> rfl

@[simp] theorem value?_mapRefusal (g : ε → ε') (o : Outcome ε α) :
    (o.mapRefusal g).value? = o.value? := by
  cases o <;> rfl

/-- What is threaded depends on the value alone. -/
theorem next_eq (x : Binary64) (o : Outcome ε Binary64) :
    o.next x = (o.value?.map Binary64.quiet).getD x := by
  cases o <;> rfl

end Outcome

theorem Helper.evaluate_none (b : Build) (name : String) (x : Binary64) :
    evaluate b name .none x =
      (function b name .floatToFloat).bind fun f => .ofChecked (f x) := rfl

/-! ## Operations -/

/-- What a step asks for, apart from its route. -/
inductive Operation where
  | power (k : Int32)
  | opcode (op : Opcode)
  /-- Any other call of an exported helper. -/
  | helper (name : String) (operand : Operand)
  /-- A name or a tag of no opcode. -/
  | unknown
deriving DecidableEq, Repr

namespace Operation

def ofOpcode : Except OpcodeError Opcode → Operation
  | .ok op => opcode op
  | .error _ => unknown

/-- The operation of a helper of one number: that of an opcode, if it is the opcode's own. -/
def ofHelper (name : String) : Operation :=
  match Opcode.exported.find? (·.helperName == name) with
  | some op => opcode op
  | none => helper name .none

/-- The value of an operation at `x`. -/
def value? (b : Build) (x : Binary64) : Operation → Option Binary64
  | power k => some (x.powInt k)
  | opcode op => (fold b op x).toOption
  | helper name operand => (Helper.evaluate b name operand x).value?
  | unknown => none

/-- The values of operations in a row; each starts from the last value before it. -/
def values (b : Build) (x : Binary64) : List Operation → List (Option Binary64)
  | [] => []
  | op :: rest => op.value? b x :: values b (((op.value? b x).map Binary64.quiet).getD x) rest

end Operation

/-- The operation of a step. -/
def Step.operation : Step → Operation
  | power k _ => .power k
  | fold name _ => .ofOpcode (Opcode.ofName name)
  | foldTag tag => .ofOpcode (Opcode.ofWord tag)
  | apply name => .ofHelper name
  | exported name .none => .ofHelper name
  | exported name (.int k) => if name = Helper.powerName then .power k else .helper name (.int k)
  | exported name (.tag t) =>
    if name = Helper.foldName then .ofOpcode (Opcode.ofWord t) else .helper name (.tag t)

/-- A decoded tag is evaluated as its opcode, and any other tag gives no value. -/
theorem toOption_foldTag (b : Build) (tag : UInt32) (x : Binary64) :
    (foldTag b tag x).toOption = (Operation.ofOpcode (Opcode.ofWord tag)).value? b x := by
  rw [foldTag]
  cases Opcode.ofWord tag <;> rfl

theorem value?_fold_of_link {b : Build} {j : Jit} (h : Jit.link b = .ok j) (op : Opcode)
    (x : Binary64) : (j.fold op x).value? = (fold b op x).toOption := by
  by_cases hop : op = .other
  · subst hop
    rfl
  · simp [Jit.fold_of_link h hop]

/-- A helper of one number gives the value of its operation. -/
theorem value?_evaluate_none (b : Build) (name : String) (x : Binary64) :
    (Helper.evaluate b name .none x).value? = (Operation.ofHelper name).value? b x := by
  rw [Operation.ofHelper]
  cases ho : Opcode.exported.find? (·.helperName == name) with
  | none => rfl
  | some op =>
    obtain rfl : op.helperName = name := by simpa using List.find?_some ho
    simp [Helper.evaluate_none, Helper.function_exported b (List.mem_of_find?_eq_some ho),
      Operation.value?]

/-- **A step gives the value of its operation**, whatever route it takes. -/
theorem Step.value?_run (b : Build) (x : Binary64) (step : Step) :
    (step.run b x).value? = step.operation.value? b x := by
  obtain ⟨j, hj, -⟩ := Jit.exists_link b
  cases step with
  | power k route =>
    cases route with
    | direct => rfl
    | jit => simp [run, Jit.request_of_link hj, Jit.power_of_link hj, operation, Operation.value?]
  | fold name route =>
    simp only [run, operation]
    cases Opcode.ofName name with
    | error e => rfl
    | ok op =>
      cases route with
      | direct => exact Outcome.value?_ofChecked _
      | jit =>
        simp [Jit.request_of_link hj, value?_fold_of_link hj, Operation.value?, Operation.ofOpcode]
  | foldTag tag => simp [run, operation, toOption_foldTag]
  | apply name =>
    simpa [run, operation, Jit.request_of_link hj, Jit.apply_of_link hj, Helper.evaluate_none]
      using value?_evaluate_none b name x
  | exported name operand =>
    rw [run, Outcome.value?_mapRefusal]
    cases operand with
    | none => exact value?_evaluate_none b name x
    | int k =>
      by_cases hn : name = Helper.powerName
      · rw [operation, if_pos hn, hn]
        rfl
      · rw [operation, if_neg hn, Operation.value?]
    | tag t =>
      by_cases hn : name = Helper.foldName
      · rw [operation, if_pos hn, hn, ← toOption_foldTag]
        exact Outcome.value?_ofChecked _
      · rw [operation, if_neg hn, Operation.value?]

/-! ## Chains -/

@[simp] theorem runChain_cons (b : Build) (x : Binary64) (step : Step) (rest : List Step) :
    runChain b x (step :: rest) = step.run b x :: runChain b ((step.run b x).next x) rest := rfl

/-- **The values of a chain** are those of its operations: a route shows in no value. -/
theorem map_value?_runChain (b : Build) (x : Binary64) (steps : List Step) :
    (runChain b x steps).map Outcome.value? = Operation.values b x (steps.map Step.operation) := by
  induction steps generalizing x with
  | nil => rfl
  | cons step rest ih =>
    rw [runChain_cons, List.map_cons, List.map_cons, ih, Outcome.next_eq, Step.value?_run,
      Operation.values]

/-- The end of a chain depends on the values alone. -/
theorem final_eq_foldl (b : Build) (x : Binary64) (steps : List Step) :
    (chain b).final x steps = (steps.map Step.operation).foldl
      (fun x op => ((op.value? b x).map Binary64.quiet).getD x) x := by
  induction steps generalizing x with
  | nil => rfl
  | cons step rest ih =>
    rw [Machine.final_cons, ih, List.map_cons, List.foldl_cons, ← Step.value?_run,
      ← Outcome.next_eq]
    rfl

/-- The step gave a value. -/
def succeeded (entry : Step × Outcome StepError Binary64) : Bool := entry.2.value?.isSome

/-- A step that fails hands on the number that it got. -/
theorem next_of_failed {step : Step} {answer : Outcome StepError Binary64}
    (h : succeeded (step, answer) = false) (x : Binary64) : answer.next x = x := by
  have hn : answer.value? = none := by simpa [succeeded] using h
  rw [Outcome.next_eq, hn]
  rfl

/-! ## Every route -/

/-- **All routes compute the same function.** In every build linking succeeds, and the helper
itself, the exported helper of the table and generated code give equal words: the remainder for a
divisor other than zero, every power, and every opcode but `other`, given by itself, by its tag, or
by its own helper. In a chain a step may take another route, and a step that fails may be left out:
the values of the steps and the number at the end stay the same. -/
theorem routes_agree (b : Build) :
    ∃ j, Jit.link b = .ok j ∧
      (∀ x y : Int32, y ≠ 0 → ∃ r, checkedRem x y = .ok r ∧
        Helper.call b "tracejit_vm_modi" (.intInt x y) = .value (.int r) ∧
        j.remainder x y = .value r) ∧
      (∀ x k, Helper.call b "tracejit_vm_powi" (.floatInt x k) = .value (.float (x.powInt k)) ∧
        j.power x k = .value (x.powInt k)) ∧
      (∀ op x, foldTag b op.tag x = fold b op x) ∧
      (∀ op x, op ≠ .other → ∃ y, fold b op x = .ok y ∧
        Helper.call b "tracejit_vm_foldfpm" (.floatTag x op.tag) = .value (.float y) ∧
        j.fold op x = .value y ∧
        (op ∈ [.floor, .ceil, .trunc, .log2, .exp2] →
          Helper.call b ("tracejit_vm_" ++ op.name) (.float x) = .value (.float y) ∧
          j.apply ("tracejit_vm_" ++ op.name) x = .value y)) ∧
      (∀ x steps steps', steps.map Step.operation = steps'.map Step.operation →
        (runChain b x steps).map Outcome.value? = (runChain b x steps').map Outcome.value? ∧
        (chain b).final x steps = (chain b).final x steps') ∧
      (∀ x steps kept, kept.Sublist ((chain b).transcript x steps) →
        kept.filter succeeded = ((chain b).transcript x steps).filter succeeded →
        (chain b).transcript x (kept.map Prod.fst) = kept ∧
        (chain b).final x (kept.map Prod.fst) = (chain b).final x steps) := by
  obtain ⟨j, hj, -⟩ := Jit.exists_link b
  refine ⟨j, hj, fun x y hy => ?_, fun x k => ?_, foldTag_tag b, fun op x hop => ?_,
    fun x steps steps' h => ?_, fun x steps kept hsub hall => ?_⟩
  · have hr := checkedRem_eq_ok x hy
    refine ⟨floorRem x y, hr, Helper.call_remainder_of_ne_zero b x hy, ?_⟩
    simp [Jit.remainder_of_link hj, hr]
  · exact ⟨Helper.call_power b x k, Jit.power_of_link hj x k⟩
  · obtain ⟨y, hy⟩ := exists_fold_eq_ok b hop x
    refine ⟨y, hy, Helper.call_fold_of_ok ((foldTag_tag b op x).trans hy), ?_, fun hown =>
      ⟨Helper.call_exported hown hy, Jit.apply_exported hj hown hy⟩⟩
    simp [Jit.fold_of_link hj hop, hy]
  · rw [map_value?_runChain, map_value?_runChain, final_eq_foldl, final_eq_foldl, h]
    exact ⟨rfl, rfl⟩
  · exact Machine.transcript_of_sublist (M := chain b) (fun x _ h => next_of_failed h x) hsub hall

/-- A remainder of operands with different signs, an opcode on all of its routes, a chain whose
steps take other routes and fail on both, and a chain without its failing step. -/
theorem routes_agree_native :
    ∃ j, Jit.link .native = .ok j ∧
      ((3 : Int32) ≠ 0 ∧
        Helper.call .native "tracejit_vm_modi" (.intInt (-7) 3) = .value (.int 2) ∧
        j.remainder (-7) 3 = .value 2) ∧
      (Opcode.floor ≠ .other ∧ Opcode.floor ∈ [.floor, .ceil, .trunc, .log2, .exp2] ∧
        Helper.call .native "tracejit_vm_foldfpm" (.floatTag ⟨0xc004000000000000⟩ 0) =
          .value (.float ⟨0xc008000000000000⟩) ∧
        j.fold .floor ⟨0xc004000000000000⟩ = .value ⟨0xc008000000000000⟩ ∧
        Helper.call .native "tracejit_vm_floor" (.float ⟨0xc004000000000000⟩) =
          .value (.float ⟨0xc008000000000000⟩) ∧
        j.apply "tracejit_vm_floor" ⟨0xc004000000000000⟩ = .value ⟨0xc008000000000000⟩) ∧
      ([.power (-3) .direct, .fold "other" .direct, .fold "EXP2" .jit, .foldTag 99].map
          Step.operation =
        [.power (-3) .jit, .foldTag 12, .apply "tracejit_vm_exp2", .fold "none" .direct].map
          Step.operation ∧
        (chain .native).final .one
          [.power (-3) .direct, .fold "other" .direct, .fold "EXP2" .jit, .foldTag 99] =
        (chain .native).final .one
          [.power (-3) .jit, .foldTag 12, .apply "tracejit_vm_exp2", .fold "none" .direct]) ∧
      ([(.foldTag 1, .value .one)].Sublist
          ((chain .native).transcript .one [.foldTag 99, .foldTag 1]) ∧
        [(.foldTag 1, .value .one)].filter succeeded =
          ((chain .native).transcript .one [.foldTag 99, .foldTag 1]).filter succeeded ∧
        (chain .native).transcript .one [.foldTag 1] = [(.foldTag 1, .value .one)]) := by
  obtain ⟨j, hj, hrem, -, -, hfold, hroute, hfewer⟩ := routes_agree .native
  have hthree : (3 : Int32) ≠ 0 := by decide
  have hfloor : Opcode.floor ≠ .other := by decide
  have hown : Opcode.floor ∈ [.floor, .ceil, .trunc, .log2, .exp2] := by decide
  have hsame : [.power (-3) .direct, .fold "other" .direct, .fold "EXP2" .jit, .foldTag 99].map
      Step.operation =
    [.power (-3) .jit, .foldTag 12, .apply "tracejit_vm_exp2", .fold "none" .direct].map
      Step.operation := by decide +kernel
  have ht : (chain .native).transcript .one [.foldTag 99, .foldTag 1] =
      [(.foldTag 99, .aborted (.unsupportedTag 99)), (.foldTag 1, .value .one)] := by
    decide +kernel
  refine ⟨j, hj, ⟨hthree, ?_⟩, ⟨hfloor, hown, ?_⟩, ⟨hsame, ?_⟩, ?_⟩
  · obtain ⟨r, hr, hanswers⟩ := hrem (-7) 3 hthree
    have htwo : checkedRem (-7) 3 = .ok 2 := by decide
    obtain rfl : 2 = r := Except.ok.inj (htwo.symm.trans hr)
    exact hanswers
  · obtain ⟨y, hy, htag, hjit, hname⟩ := hfold .floor ⟨0xc004000000000000⟩ hfloor
    have hminus : fold .native .floor ⟨0xc004000000000000⟩ = .ok ⟨0xc008000000000000⟩ := by
      decide +kernel
    obtain rfl : ⟨0xc008000000000000⟩ = y := Except.ok.inj (hminus.symm.trans hy)
    exact ⟨htag, hjit, hname hown⟩
  · exact (hroute .one _ _ hsame).2
  · have hsub : [(Step.foldTag 1, .value .one)].Sublist
        ((chain .native).transcript .one [.foldTag 99, .foldTag 1]) := by
      rw [ht]
      exact List.Sublist.cons _ (List.Sublist.refl _)
    have hall : [(Step.foldTag 1, .value .one)].filter succeeded =
        ((chain .native).transcript .one [.foldTag 99, .foldTag 1]).filter succeeded := by
      rw [ht]
      rfl
    exact ⟨hsub, hall, (hfewer .one _ _ hsub hall).1⟩

end TraceMath
