import TraceMath.Cli.Run
import TraceMath.Elementary.Library
import TraceMath.Proofs.CodeModule.Linking

/-!
# No request of a user ends the process

A helper ends the process on a divisor of zero and on `other`. An engine refuses these two requests
before it calls a helper, whichever way it calls, and refuses nothing else.

* `Engine.Serves`: how requests end, said without the engine. `Engine.serves_direct` and
  `Engine.serves_jit` are the two engines.
* `Cli.carryOut_of_refused` and `Cli.carryOut_of_accepted`: a command exits with 1 and the report of
  its refusal, or prints and exits with 0. The engine shows in the log alone.
-/

namespace TraceMath

/-! ## Engines -/

namespace Engine

/-- Requests end with the value that the helper has for them, or with the refusal of the two that
no helper returns from. -/
structure Serves (b : Build) (engine : Engine) : Prop where
  remainder (x y : Int32) :
    engine.remainder x y = if y = 0 then .refused .zeroDivisor else .value (floorRem x y)
  power (x : Binary64) (k : Int32) : engine.power x k = .value (x.powInt k)
  fold (op : Opcode) (x : Binary64) :
    engine.fold op x =
      if op = .other then .refused (.unsupportedOpcode op) else .ofChecked (TraceMath.fold b op x)

/-- Behind the guard the divisor is not zero, so the checked remainder returns. -/
theorem serves_direct (b : Build) : (direct b).Serves b where
  remainder x y := by
    rw [Engine.remainder]
    split
    · rfl
    · next hy => rw [checkedRem_eq_ok x hy]; rfl
  power _ _ := rfl
  fold _ _ := rfl

theorem serves_jit {b : Build} {j : Jit} (h : Jit.link b = .ok j) : (jit j).Serves b where
  remainder x y := by
    rw [Engine.remainder]
    split
    · rfl
    · next hy => simp [Jit.remainder_of_link h, checkedRem_eq_ok x hy]
  power x k := by simp [Engine.power, Jit.power_of_link h]
  fold op x := by
    rw [Engine.fold]
    split
    · rfl
    · next hop =>
      obtain ⟨y, hy⟩ := exists_fold_eq_ok b hop x
      simp [Jit.fold_of_link h hop, hy]

/-- An engine of every kind can be had, and serves. -/
theorem exists_select (b : Build) (useJit : Bool) :
    ∃ engine, select b useJit = .ok engine ∧ engine.Serves b := by
  cases useJit with
  | false => exact ⟨.direct b, rfl, serves_direct b⟩
  | true =>
    obtain ⟨j, hj, -⟩ := Jit.exists_link b
    exact ⟨.jit j, by simp [select, hj], serves_jit hj⟩

end Engine

/-- The squaring is entered with a positive exponent only; a power of zero needs none. -/
theorem powInt_cases (x : Binary64) (k : Int32) :
    (k = 0 ∧ x.powInt k = .one) ∨
      ∃ pos : 0 < (absWord k).toNat,
        x.powInt k = Power.positive (· * ·) x (absWord k).toNat pos ∨
        x.powInt k = .one / Power.positive (· * ·) x (absWord k).toNat pos := by
  by_cases hk : k = 0
  · subst hk
    exact .inl ⟨rfl, rfl⟩
  · refine .inr ⟨toNat_absWord_pos hk, ?_⟩
    rw [Binary64.powInt, Power.integer, dif_neg hk]
    by_cases hpos : 0 < k
    · exact .inl (if_pos hpos)
    · exact .inr (if_neg hpos)

/-! ## Command lines -/

namespace Cli

/-- Why a command is refused, if it is. -/
def Command.refusal? : Command → Option EvaluationError
  | remainder _ b => if b = 0 then some .zeroDivisor else none
  | fold op _ => if op = .other then some (.unsupportedOpcode op) else none
  | _ => none

/-- The command is a request to an engine. -/
def Command.evaluates : Command → Bool
  | remainder .. | power .. | fold .. => true
  | capabilities | symbols => false

/-- What the engine of a command logs. -/
def Command.engineLog (b : Build) (jit : Bool) (c : Command) : List LogRecord :=
  if jit && c.evaluates then Jit.linkLog b else []

/-- What is shown of the log of a command line. -/
def Invocation.log (b : Build) (i : Invocation) : List LogRecord :=
  (i.command.record i.jit :: i.command.engineLog b i.jit).filter i.verbosity.shows

/-- The records of a linked engine are not shown before the debug level. -/
theorem debug_le_of_mem_linkLog {b : Build} {r : LogRecord} (h : r ∈ Jit.linkLog b) :
    Level.debug.rank ≤ r.level.rank := by
  simp only [Jit.linkLog, List.cons_append, List.mem_cons, List.mem_append, List.mem_map] at h
  obtain rfl | ⟨_, -, rfl⟩ | ⟨_, -, rfl⟩ := h
  exacts [le_rfl, Nat.le_succ _, Nat.le_succ _]

/-- Short of three uses of the option that shows more, a command that ends well shows no record. -/
theorem Invocation.log_eq_nil (b : Build) {i : Invocation}
    (h : i.verbosity.verbose < i.verbosity.quiet + 3) : i.log b = [] := by
  refine List.filter_eq_nil_iff.mpr fun r hr => ?_
  have hrank : Level.debug.rank ≤ r.level.rank := by
    rcases List.mem_cons.mp hr with rfl | hr
    · exact le_rfl
    · unfold Command.engineLog at hr
      split at hr
      · exact debug_le_of_mem_linkLog hr
      · cases hr
  have hdebug : Level.debug.rank = 4 := rfl
  simp only [Verbosity.shows, decide_eq_true_eq]
  omega

/-- The options are not given. -/
@[simp] theorem Invocation.log_of_default (b : Build) (jit : Bool) (c : Command) :
    Invocation.log b { jit, command := c } = [] :=
  log_eq_nil b (Nat.zero_lt_succ _)

/-- A request with one answer from every engine that serves is answered so in both modes. -/
theorem evaluate_eq {α : Type} {b : Build} {chars : α → List Char}
    {request : Engine → Outcome EvaluationError α} {o : Outcome EvaluationError α}
    (h : ∀ engine, engine.Serves b → request engine = o) (jit : Bool) :
    evaluate b jit chars request =
      (ProcessResult.ofOutcome chars o).after (if jit then Jit.linkLog b else []) := by
  obtain ⟨engine, he, hs⟩ := Engine.exists_select b jit
  simp only [evaluate, he, h engine hs]

theorem carryOut_of_refused (b : Build) {c : Command} {e : EvaluationError}
    (h : c.refusal? = some e) (jit : Bool) :
    c.carryOut b jit = ⟨1, "", unlines (report e.diagnostic), c.engineLog b jit⟩ := by
  cases c with
  | remainder x y =>
    obtain ⟨hy, rfl⟩ : y = 0 ∧ EvaluationError.zeroDivisor = e := by
      simpa [Command.refusal?] using h
    rw [Command.carryOut, evaluate_eq fun engine hs => (hs.remainder x y).trans (if_pos hy)]
    simp [ProcessResult.ofOutcome, ProcessResult.after, Command.engineLog, Command.evaluates]
  | fold op x =>
    obtain ⟨hop, rfl⟩ : op = .other ∧ EvaluationError.unsupportedOpcode op = e := by
      simpa [Command.refusal?] using h
    rw [Command.carryOut, evaluate_eq fun engine hs => (hs.fold op x).trans (if_pos hop)]
    simp [ProcessResult.ofOutcome, ProcessResult.after, Command.engineLog, Command.evaluates]
  | power x k => cases h
  | capabilities => cases h
  | symbols => cases h

/-- A command with a value prints it, and the engine shows in the log alone. -/
theorem carryOut_of_value {α : Type} {b : Build} {c : Command} {chars : α → List Char}
    {request : Engine → Outcome EvaluationError α} {a : α}
    (hc : ∀ jit, c.carryOut b jit = evaluate b jit chars request) (hevaluates : c.evaluates = true)
    (h : ∀ engine, engine.Serves b → request engine = .value a) (jit : Bool) :
    c.carryOut b jit = ⟨0, String.ofList (chars a ++ ['\n']), "", c.engineLog b jit⟩ := by
  rw [hc, evaluate_eq h]
  simp [ProcessResult.ofOutcome, ProcessResult.printed, ProcessResult.success, ProcessResult.after,
    Command.engineLog, hevaluates]

/-- The text does not depend on the engine. -/
theorem carryOut_of_accepted (b : Build) {c : Command} (h : c.refusal? = none) :
    ∃ text, ∀ jit, c.carryOut b jit = ⟨0, text, "", c.engineLog b jit⟩ := by
  cases c with
  | remainder x y =>
    have hy : ¬y = 0 := by simpa [Command.refusal?] using h
    exact ⟨_, carryOut_of_value (fun _ => rfl) rfl fun engine hs =>
      (hs.remainder x y).trans (if_neg hy)⟩
  | power x k => exact ⟨_, carryOut_of_value (fun _ => rfl) rfl fun engine hs => hs.power x k⟩
  | fold op x =>
    have hop : ¬op = .other := by simpa [Command.refusal?] using h
    obtain ⟨y, hy⟩ := exists_fold_eq_ok b hop x
    refine ⟨_, carryOut_of_value (a := y) (fun _ => rfl) rfl fun engine hs => ?_⟩
    rw [hs.fold, if_neg hop, hy, Outcome.ofChecked]
  | capabilities =>
    exact ⟨unlines (capabilityLines b.capabilities), fun jit => by cases jit <;> rfl⟩
  | symbols => exact ⟨unlines (symbolLines b), fun jit => by cases jit <;> rfl⟩

theorem execute_of_carryOut {b : Build} {i : Invocation} {exit : Nat} {stdout stderr : String}
    (h : i.command.carryOut b i.jit = ⟨exit, stdout, stderr, i.command.engineLog b i.jit⟩) :
    execute b i = ⟨exit, stdout, stderr, i.log b⟩ := by
  rw [execute, h]
  rfl

theorem run_of_readArguments (b : Build) {args : List String} {i : Invocation}
    (h : readArguments args = .ok i) : run b args = execute b i := by
  simp only [run, h]

end Cli

/-- **No request of a user ends the process.** Linking succeeds, and every request has the same end
directly and through generated code: a remainder is refused for the divisor zero alone, an opcode
only if it is `other`, a power never, and no refusal comes from generated code. The squaring starts
with a positive exponent. So every command line that can be read prints a result and exits with 0,
or exits with 1 and the report of one of these two refusals, and the mode shows in the log alone. -/
theorem requests_never_abort (b : Build) :
    ∃ j, Jit.link b = .ok j ∧
      (∀ useJit, Engine.select b useJit = .ok (if useJit then .jit j else .direct b)) ∧
      (∀ x y, (Engine.direct b).remainder x y = (Engine.jit j).remainder x y ∧
        (Engine.jit j).remainder x y =
          if y = 0 then .refused .zeroDivisor else .value (floorRem x y)) ∧
      (∀ x k, (Engine.direct b).power x k = (Engine.jit j).power x k ∧
        (Engine.jit j).power x k = .value (x.powInt k)) ∧
      (∀ op x, (Engine.direct b).fold op x = (Engine.jit j).fold op x ∧
        (op = .other → (Engine.jit j).fold op x = .refused (.unsupportedOpcode .other)) ∧
        (op ≠ .other → ∃ y, fold b op x = .ok y ∧ (Engine.jit j).fold op x = .value y)) ∧
      (∀ (x : Binary64) (k : Int32), (k = 0 ∧ x.powInt k = .one) ∨
        ∃ pos : 0 < (absWord k).toNat,
          x.powInt k = Power.positive (· * ·) x (absWord k).toNat pos ∨
          x.powInt k = .one / Power.positive (· * ·) x (absWord k).toNat pos) ∧
      ∀ args i, Cli.readArguments args = .ok i →
        Cli.run b args = { Cli.execute b { i with jit := !i.jit } with log := i.log b } ∧
        (∀ e, i.command.refusal? = some e →
          Cli.run b args = ⟨1, "", Cli.unlines (Cli.report e.diagnostic), i.log b⟩) ∧
        (i.command.refusal? = none → ∃ text, Cli.run b args = ⟨0, text, "", i.log b⟩) := by
  obtain ⟨j, hj, -⟩ := Jit.exists_link b
  have hd := Engine.serves_direct b
  have hs := Engine.serves_jit hj
  refine ⟨j, hj, fun useJit => ?_, fun x y => ⟨?_, hs.remainder x y⟩,
    fun x k => ⟨?_, hs.power x k⟩, fun op x => ⟨?_, fun hop => ?_, fun hop => ?_⟩, powInt_cases,
    fun args i hi => ?_⟩
  · cases useJit with
    | false => rfl
    | true => simp only [Engine.select, hj, if_true]
  · rw [hd.remainder, hs.remainder]
  · rw [hd.power, hs.power]
  · rw [hd.fold, hs.fold]
  · rw [hs.fold, if_pos hop, hop]
  · obtain ⟨y, hy⟩ := exists_fold_eq_ok b hop x
    refine ⟨y, hy, ?_⟩
    rw [hs.fold, if_neg hop, hy]
    rfl
  · rw [Cli.run_of_readArguments b hi]
    cases hr : i.command.refusal? with
    | some e =>
      have hrun := Cli.execute_of_carryOut (Cli.carryOut_of_refused b hr i.jit)
      refine ⟨?_, fun e' h => ?_, nofun⟩
      · rw [hrun, Cli.execute_of_carryOut (Cli.carryOut_of_refused b hr (!i.jit))]
      · cases h
        exact hrun
    | none =>
      obtain ⟨text, ht⟩ := Cli.carryOut_of_accepted b hr
      have hrun := Cli.execute_of_carryOut (ht i.jit)
      refine ⟨?_, nofun, fun _ => ⟨text, hrun⟩⟩
      rw [hrun, Cli.execute_of_carryOut (ht !i.jit)]

/-- A remainder by zero in generated code, one that is printed, an operation that is evaluated, and
`other`. -/
theorem requests_never_abort_native :
    Cli.readArguments ["--jit", "modi", "-7", "0"] =
        .ok { jit := true, command := .remainder (-7) 0 } ∧
      Cli.run .native ["--jit", "modi", "-7", "0"] =
        ⟨1, "", Cli.unlines (Cli.report EvaluationError.zeroDivisor.diagnostic), []⟩ ∧
      Cli.readArguments ["modi", "--", "-7", "3"] =
        .ok { jit := false, command := .remainder (-7) 3 } ∧
      (∃ text, Cli.run .native ["modi", "--", "-7", "3"] = ⟨0, text, "", []⟩) ∧
      ∃ j, Jit.link .native = .ok j ∧ Opcode.sqrt ≠ .other ∧
        (∃ y, fold .native .sqrt .one = .ok y ∧ (Engine.jit j).fold .sqrt .one = .value y) ∧
        (Engine.jit j).fold .other .one = .refused (.unsupportedOpcode .other) := by
  obtain ⟨j, hj, -, -, -, hfold, -, hcli⟩ := requests_never_abort .native
  have hzero : Cli.readArguments ["--jit", "modi", "-7", "0"] =
      .ok { jit := true, command := .remainder (-7) 0 } := by
    with_unfolding_all rfl
  have hthree : Cli.readArguments ["modi", "--", "-7", "3"] =
      .ok { jit := false, command := .remainder (-7) 3 } := by
    with_unfolding_all rfl
  have hsqrt : Opcode.sqrt ≠ .other := by decide
  have hrefused := (hcli _ _ hzero).2.1 _ rfl
  have hprinted := (hcli _ _ hthree).2.2 rfl
  rw [Cli.Invocation.log_of_default] at hrefused hprinted
  exact ⟨hzero, hrefused, hthree, hprinted, j, hj, hsqrt, (hfold .sqrt .one).2.2 hsqrt,
    (hfold .other .one).2.1 rfl⟩

end TraceMath
