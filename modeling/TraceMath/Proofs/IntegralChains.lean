import TraceMath.Proofs.Binary64.Integral
import TraceMath.Proofs.Names
import TraceMath.Proofs.Routes

/-!
# Chains of roundings to an integer

The three opcodes that round to an integer give the integer exactly, on every route to them. An
integer is not rounded again, so a chain of them is settled by its first step.

* `exists_fold_eq_roundToIntegral`: each opcode is the one rounding, on the side that the sign says.
* `runChain_of_fixed`: steps that keep the number answer with it, one after another.
-/

namespace TraceMath

open Binary64 (IsInteger)

/-! ## One step -/

theorem Outcome.eq_value_of_value? {ε α : Type} {o : Outcome ε α} {a : α}
    (h : o.value? = some a) : o = .value a := by
  cases o with
  | value b =>
    obtain rfl : b = a := Option.some.inj h
    rfl
  | refused e => cases h
  | aborted f => cases h

/-- A step answers with the value of its opcode. -/
theorem Step.run_of_operation {b : Build} {op : Opcode} {x y : Binary64} {step : Step}
    (hstep : step.operation = .opcode op) (hy : TraceMath.fold b op x = .ok y) :
    step.run b x = .value y := by
  apply Outcome.eq_value_of_value?
  rw [Step.value?_run, hstep, Operation.value?, hy, Except.toOption]

/-- The routes to the opcodes that round to an integer. -/
theorem Opcode.operation_of_rounds {op : Opcode} (h : op.roundsToInteger = true) (route : Route) :
    (Step.fold op.name route).operation = .opcode op ∧
      (Step.foldTag op.tag).operation = .opcode op ∧
      (Step.apply op.helperName).operation = .opcode op ∧
      (Step.exported op.helperName .none).operation = .opcode op ∧
      (Step.exported Helper.foldName (.tag op.tag)).operation = .opcode op := by
  have hown : op.roundsToInteger = true → Operation.ofHelper op.helperName = .opcode op := by
    cases op <;> decide
  simp [Step.operation, Operation.ofOpcode, hown h]

/-- **An opcode that rounds to an integer** rounds the magnitude, away from zero or not. -/
theorem exists_fold_eq_roundToIntegral {op : Opcode} (h : op.roundsToInteger = true)
    (x : Binary64) : ∃ awayFromZero, ∀ b, fold b op x = .ok (x.roundToIntegral awayFromZero) := by
  cases op with
  | floor => exact ⟨_, fun _ => rfl⟩
  | ceil => exact ⟨_, fun _ => rfl⟩
  | trunc => exact ⟨_, fun _ => rfl⟩
  | _ => cases h

theorem quiet_roundToIntegral (x : Binary64) (awayFromZero : Bool) :
    (x.roundToIntegral awayFromZero).quiet = x.roundToIntegral awayFromZero := by
  by_cases hx : x.IsNaN
  · rw [Binary64.roundToIntegral_of_isNaN hx]
    rfl
  · exact if_neg (mt (Binary64.isNaN_roundToIntegral_iff awayFromZero).mp hx)

/-! ## Chains -/

/-- A quiet number that every step answers with stays to the end. -/
theorem runChain_of_fixed {b : Build} {y : Binary64} {steps : List Step} (hy : y.quiet = y)
    (h : ∀ step ∈ steps, step.run b y = .value y) :
    runChain b y steps = List.replicate steps.length (.value y) ∧ (chain b).final y steps = y :=
  Machine.run_of_fixed (chain b) fun step hstep => by
    simp only [chain, h step hstep, Outcome.next, hy]

/-- **The first rounding of a chain decides.** Every step answers with its integer. -/
theorem runChain_of_rounds {b : Build} {op : Opcode} {x : Binary64} {step : Step}
    {rest : List Step} (hop : op.roundsToInteger = true) (hstep : step.operation = .opcode op)
    (hrest : ∀ s ∈ rest, ∃ op' : Opcode, op'.roundsToInteger = true ∧ s.operation = .opcode op') :
    ∃ y, fold b op x = .ok y ∧
      runChain b x (step :: rest) = List.replicate (rest.length + 1) (.value y) ∧
      (chain b).final x (step :: rest) = y := by
  obtain ⟨first, hfold⟩ := exists_fold_eq_roundToIntegral hop x
  have hquiet := quiet_roundToIntegral x first
  have hrun := Step.run_of_operation hstep (hfold b)
  have hnext : (step.run b x).next x = x.roundToIntegral first := by
    rw [hrun]
    exact hquiet
  -- An integer is not rounded again, so no later step leaves it.
  have hfixed : ∀ s ∈ rest, s.run b (x.roundToIntegral first) =
      .value (x.roundToIntegral first) := by
    intro s hs
    obtain ⟨op', hop', hs⟩ := hrest s hs
    obtain ⟨second, hfold'⟩ := exists_fold_eq_roundToIntegral hop' (x.roundToIntegral first)
    rw [Binary64.roundToIntegral_again] at hfold'
    exact Step.run_of_operation hs (hfold' b)
  obtain ⟨hanswers, hfinal⟩ := runChain_of_fixed hquiet hfixed
  refine ⟨_, hfold b, ?_, ?_⟩
  · simp [hrun, Outcome.next, hquiet, hanswers, List.replicate_succ]
  · rw [Machine.final_cons]
    exact (congrArg (fun z => (chain b).final z rest) hnext).trans hfinal

/-! ## Values and chains -/

/-- **Roundings to an integer are exact.** The floor, the ceiling and the truncation of a finite
number are the integers of its value, with the number's sign bit, also in a zero. Infinities and
numbers from `2 ^ 52` on come back as they are, and a NaN gives a NaN. So the ceiling is the floor
on the other side of zero, and truncation is the floor or the ceiling, by the sign bit. A chain of
these three opcodes, on whatever routes, answers at every step with the first integer. -/
theorem roundings_to_integers_are_exact :
    (∀ x : Binary64,
      (x.IsFinite → IsInteger x ⌊x.toRat⌋ x.floor ∧ IsInteger x ⌈x.toRat⌉ x.ceil ∧
        IsInteger x (if x.toRat < 0 then ⌈x.toRat⌉ else ⌊x.toRat⌋) x.trunc ∧
        (-1 < x.toRat → x.toRat < 0 → x.ceil = .zero true ∧ x.trunc = .zero true)) ∧
      (x.IsInfinite ∨ x.IsFinite ∧ 2 ^ 52 ≤ |x.toRat| →
        x.floor = x ∧ x.ceil = x ∧ x.trunc = x) ∧
      (x.IsNaN → x.floor.IsNaN ∧ x.ceil.IsNaN ∧ x.trunc.IsNaN ∧ (-(-x).floor).IsNaN) ∧
      (¬x.IsNaN → x.ceil = -(-x).floor) ∧
      x.trunc = if x.negative then x.ceil else x.floor) ∧
    (Binary64.zero true).floor = .zero true ∧
    (∀ b x, fold b .floor x = .ok x.floor ∧ fold b .ceil x = .ok x.ceil ∧
      fold b .trunc x = .ok x.trunc) ∧
    (∀ op : Opcode, op.roundsToInteger = true → ∀ route,
      (Step.fold op.name route).operation = .opcode op ∧
      (Step.foldTag op.tag).operation = .opcode op ∧
      (Step.apply ("tracejit_vm_" ++ op.name)).operation = .opcode op ∧
      (Step.exported ("tracejit_vm_" ++ op.name) .none).operation = .opcode op ∧
      (Step.exported "tracejit_vm_foldfpm" (.tag op.tag)).operation = .opcode op) ∧
    ∀ (b : Build) (x : Binary64) (op : Opcode) (step : Step) (rest : List Step),
      op.roundsToInteger = true → step.operation = .opcode op →
      (∀ s ∈ rest, ∃ op' : Opcode, op'.roundsToInteger = true ∧ s.operation = .opcode op') →
      ∃ y, fold b op x = .ok y ∧
        runChain b x (step :: rest) = List.replicate (rest.length + 1) (.value y) ∧
        (chain b).final x (step :: rest) = y := by
  refine ⟨fun x => ⟨fun hx => ?_, fun hx => ?_, fun hx => ?_, Binary64.ceil_eq_neg_floor_neg,
    x.trunc_eq⟩, ?_, fun _ _ => ⟨rfl, rfl, rfl⟩, fun op => Opcode.operation_of_rounds,
    fun _ _ _ _ _ => runChain_of_rounds⟩
  · exact ⟨Binary64.isInteger_floor hx, Binary64.isInteger_ceil hx, Binary64.isInteger_trunc hx,
      Binary64.eq_zero_of_between hx⟩
  · have same (awayFromZero : Bool) : x.roundToIntegral awayFromZero = x := by
      rcases hx with hx | ⟨hx, hlarge⟩
      · exact Binary64.roundToIntegral_of_isInfinite hx awayFromZero
      · exact Binary64.roundToIntegral_of_le (by omega) (x.integralMagnitude_le_iff.mpr hlarge) _
    exact ⟨same _, same _, same _⟩
  · have nan {y : Binary64} (hy : y.IsNaN) (awayFromZero : Bool) :
        (y.roundToIntegral awayFromZero).IsNaN :=
      (Binary64.isNaN_roundToIntegral_iff awayFromZero).mpr hy
    exact ⟨nan hx _, nan hx _, nan hx _,
      Binary64.isNaN_neg.mpr (nan (Binary64.isNaN_neg.mpr hx) _)⟩
  · decide +kernel

/-- Minus one half in a chain over four routes, the ceiling first; a number from `2 ^ 52` on, a NaN,
and the floor of a number that is between two integers. -/
theorem roundings_to_integers_are_exact_minus_half :
    let x : Binary64 := ⟨0xbfe0000000000000⟩
    (x.IsFinite ∧ IsInteger x ⌊x.toRat⌋ x.floor ∧ -1 < x.toRat ∧ x.toRat < 0 ∧
      x.ceil = .zero true ∧ x.trunc = .zero true) ∧
    ((Binary64.infinity true).IsInfinite ∧ (Binary64.infinity true).floor = .infinity true) ∧
    (Binary64.nan.IsNaN ∧ (-(-Binary64.nan).floor).IsNaN) ∧
    (¬x.IsNaN ∧ x.ceil = -(-x).floor) ∧
    (Opcode.ceil.roundsToInteger = true ∧
      (Step.exported "tracejit_vm_ceil" .none).operation = .opcode .ceil ∧
      (∀ s ∈ [Step.fold "floor" .direct, .foldTag 2, .apply "tracejit_vm_floor"],
        ∃ op' : Opcode, op'.roundsToInteger = true ∧ s.operation = .opcode op') ∧
      runChain .native x [.exported "tracejit_vm_ceil" .none, .fold "floor" .direct, .foldTag 2,
        .apply "tracejit_vm_floor"] = List.replicate 4 (.value (.zero true))) := by
  intro x
  have hx : x.IsFinite := by decide
  have hinf : (Binary64.infinity true).IsInfinite := by decide
  have hnumber : ¬x.IsNaN := by decide
  have hvalue : x.toRat = -1 / 2 := by
    have hunits : x.signedUnits * 2 = -1 * Magnitude.unitsPerOne := by decide +kernel
    have hunits' : (x.signedUnits : ℚ) * 2 = -1 * Magnitude.unitsPerOne := by exact_mod_cast hunits
    rw [Binary64.toRat, div_eq_div_iff Magnitude.unitsPerOne_pos.ne' two_ne_zero, hunits']
  have hlow : -1 < x.toRat := by
    rw [hvalue]
    norm_num
  have hhigh : x.toRat < 0 := by
    rw [hvalue]
    norm_num
  obtain ⟨hroundings, -, -, hroutes, hchain⟩ := roundings_to_integers_are_exact
  obtain ⟨hfinite, -, -, hceil, -⟩ := hroundings x
  obtain ⟨hfloor, -, -, hbetween⟩ := hfinite hx
  obtain ⟨hzero, htrunc⟩ := hbetween hlow hhigh
  obtain ⟨-, hlarge, -⟩ := hroundings (.infinity true)
  obtain ⟨-, -, hnan, -⟩ := hroundings .nan
  obtain ⟨-, -, -, hfirst, -⟩ := hroutes .ceil rfl .direct
  have hrest : ∀ s ∈ [Step.fold "floor" .direct, .foldTag 2, .apply "tracejit_vm_floor"],
      ∃ op' : Opcode, op'.roundsToInteger = true ∧ s.operation = .opcode op' := by
    intro s hs
    simp only [List.mem_cons, List.not_mem_nil, or_false] at hs
    rcases hs with rfl | rfl | rfl
    · exact ⟨.floor, rfl, (hroutes .floor rfl .direct).1⟩
    · exact ⟨.trunc, rfl, (hroutes .trunc rfl .direct).2.1⟩
    · exact ⟨.floor, rfl, (hroutes .floor rfl .direct).2.2.1⟩
  obtain ⟨y, hy, hrun, -⟩ := hchain .native x .ceil _ _ rfl hfirst hrest
  obtain rfl : x.ceil = y := Except.ok.inj hy
  rw [hzero] at hrun
  exact ⟨⟨hx, hfloor, hlow, hhigh, hzero, htrunc⟩, ⟨hinf, (hlarge (.inl hinf)).1⟩,
    ⟨Binary64.isNaN_nan, (hnan Binary64.isNaN_nan).2.2.2⟩, ⟨hnumber, hceil hnumber⟩,
    ⟨rfl, hfirst, hrest, hrun⟩⟩

end TraceMath
