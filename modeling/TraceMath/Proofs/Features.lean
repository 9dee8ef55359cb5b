import TraceMath.Elementary.Library
import TraceMath.Engine
import TraceMath.Proofs.CodeModule.Linking
import TraceMath.Proofs.Engine
import TraceMath.Proofs.Faults

/-!
# What the features of a build change

Two builds for one target over one library differ in their features alone. Every request to a
function, an exported helper, generated code or an engine is compared in both.

* `Request.Evaluates`: the request asks for an opcode at a number, on whatever route. All these
  requests have one answer (`Request.answer_of_evaluates`).
* `Request.answer_congr`: a request has one answer in two builds that provide alike the opcodes that
  it asks for, be it a value, a refusal or a fault.
* `Request.answer_of_choice`: where an opcode has two formulas, its own capability decides which of
  them answers.
-/

namespace TraceMath

/-! ## Requests -/

/-- What the functions, generated code and the engines can all be asked for. -/
inductive Ask where
  | remainder (x y : Int32)
  | power (x : Binary64) (k : Int32)
  | fold (op : Opcode) (x : Binary64)
deriving DecidableEq

/-- A request to any part of a build that takes one. -/
inductive Request where
  | direct (a : Ask)
  /-- The function of an undecoded tag. -/
  | tag (tag : UInt32) (x : Binary64)
  /-- The exported helper with the given name. -/
  | exported (name : String) (args : Arguments)
  | jit (a : Ask)
  /-- The helper of one number with the given name, through generated code. -/
  | apply (name : String) (x : Binary64)
  | engine (useJit : Bool) (a : Ask)
deriving DecidableEq

/-- Why a request is refused. -/
inductive RequestError where
  | call (e : CallError)
  | evaluation (e : EvaluationError)
deriving DecidableEq, Repr

/-- The answer of the function itself. -/
def Ask.direct {ε : Type} (b : Build) : Ask → Outcome ε Value
  | remainder x y => .ofChecked ((checkedRem x y).map .int)
  | power x k => .value (.float (x.powInt k))
  | fold op x => .ofChecked ((TraceMath.fold b op x).map .float)

def Ask.jit (j : Jit) : Ask → Outcome CallError Value
  | remainder x y => (j.remainder x y).map .int
  | power x k => (j.power x k).map .float
  | fold op x => (j.fold op x).map .float

def Ask.engine (engine : Engine) : Ask → Outcome EvaluationError Value
  | remainder x y => (engine.remainder x y).map .int
  | power x k => (engine.power x k).map .float
  | fold op x => (engine.fold op x).map .float

namespace Request

/-- The answer of a build. -/
def answer (b : Build) : Request → Outcome RequestError Value
  | direct a => a.direct b
  | tag t x => .ofChecked ((foldTag b t x).map .float)
  | exported name args => (Helper.call b name args).mapRefusal .call
  | jit a => (Jit.request b a.jit).mapRefusal .call
  | apply name x => (Jit.request b fun j => (j.apply name x).map .float).mapRefusal .call
  | engine useJit a =>
    match Engine.select b useJit with
    | .ok selected => (a.engine selected).mapRefusal .evaluation
    | .error e => .refused (.evaluation e)

/-- The request is for the value of an opcode at a number. -/
inductive Evaluates (op : Opcode) (x : Binary64) : Request → Prop
  | direct : Evaluates op x (.direct (.fold op x))
  | tag : Evaluates op x (.tag op.tag x)
  | exported : Evaluates op x (.exported Helper.foldName (.floatTag x op.tag))
  | own (h : op ∈ Opcode.exported) : Evaluates op x (.exported op.helperName (.float x))
  | jit : Evaluates op x (.jit (.fold op x))
  | apply (h : op ∈ Opcode.exported) : Evaluates op x (.apply op.helperName x)
  | engine (useJit : Bool) : Evaluates op x (.engine useJit (.fold op x))

/-! ## One build -/

/-- **Every route gives the value of the function itself.** -/
theorem answer_of_evaluates {op : Opcode} (hop : op ≠ .other) {x : Binary64} {r : Request}
    (h : r.Evaluates op x) (b : Build) :
    ∃ y, fold b op x = .ok y ∧ r.answer b = .value (.float y) := by
  obtain ⟨y, hy⟩ := exists_fold_eq_ok b hop x
  obtain ⟨j, hj, -⟩ := Jit.exists_link b
  refine ⟨y, hy, ?_⟩
  cases h with
  | direct => simp [answer, Ask.direct, hy]
  | tag => simp [answer, hy]
  | exported => simp [answer, hy]
  | own hown => simp [answer, Helper.call_exported hown hy]
  | jit => simp [answer, Ask.jit, Jit.request_of_link hj, Jit.fold_of_link hj hop, hy]
  | apply hown =>
    simp [answer, Jit.request_of_link hj, Jit.apply_of_link hj, Helper.function_exported b hown, hy]
  | engine useJit =>
    obtain ⟨e, he, hs⟩ := Engine.exists_select b useJit
    simp [answer, he, Ask.engine, hs.fold, hop, hy]

end Request

/-! ## Capabilities by opcode -/

/-- The library's function for an opcode is usable. Only two opcodes have a capability. -/
def Capabilities.provides (c : Capabilities) : Opcode → Bool
  | .log2 => c.nativeLog2
  | .exp2 => c.nativeExp2
  | _ => true

/-- The feature that does without the library's function for an opcode. -/
def Features.replaces (f : Features) : Opcode → Bool
  | .log2 => f.fallbackLog2
  | .exp2 => f.fallbackExp2
  | _ => false

/-- A capability looks at the feature of its own opcode only. -/
theorem Capabilities.provides_select (t : Target) {f g : Features} {op : Opcode}
    (h : f.replaces op = g.replaces op) :
    (select t f).provides op = (select t g).provides op := by
  cases op with
  | log2 => exact congrArg (fun feature => !(t.android || feature)) h
  | exp2 => exact congrArg (fun feature => !feature) h
  | _ => rfl

/-- The opcode has two formulas, and its capability decides between them. -/
def Opcode.IsChoice (op : Opcode) (own substitute : MathLibrary → Binary64 → Binary64) : Prop :=
  ∀ (b : Build) x, fold b op x =
    .ok (if b.capabilities.provides op then own b.library x else substitute b.library x)

theorem Opcode.isChoice_log2 : log2.IsChoice MathLibrary.log2 MathLibrary.log2ByLog :=
  fun _ _ => rfl

theorem Opcode.isChoice_exp2 : exp2.IsChoice MathLibrary.exp2 MathLibrary.exp2ByExp :=
  fun _ _ => rfl

/-! ## Two builds -/

/-- The builds are for one target and over one library. They may differ in where `log2` and `exp2`
come from. -/
structure Build.Alike (b b' : Build) : Prop where
  library : b.library = b'.library
  wrappers : b.capabilities.hyperbolicWrappers = b'.capabilities.hyperbolicWrappers

namespace Build.Alike

variable {b b' : Build}

theorem symm (h : b.Alike b') : b'.Alike b := ⟨h.library.symm, h.wrappers.symm⟩

theorem fold_congr (h : b.Alike b') {op : Opcode}
    (hop : b.capabilities.provides op = b'.capabilities.provides op) (x : Binary64) :
    fold b op x = fold b' op x := by
  cases op with
  | log2 => rw [Opcode.isChoice_log2, Opcode.isChoice_log2, hop, h.library]
  | exp2 => rw [Opcode.isChoice_exp2, Opcode.isChoice_exp2, hop, h.library]
  | _ => simp only [fold, h.library]

theorem foldTag_congr (h : b.Alike b') {tag : UInt32}
    (htag : ∀ op : Opcode, op.tag = tag → b.capabilities.provides op = b'.capabilities.provides op)
    (x : Binary64) : foldTag b tag x = foldTag b' tag x := by
  rw [foldTag, foldTag]
  cases hw : Opcode.ofWord tag with
  | error e => rfl
  | ok op => exact h.fold_congr (htag op ((Opcode.ofWord_eq_ok_iff tag op).mp hw)) x

theorem wrappers_eq (h : b.Alike b') : Helper.wrappers b = Helper.wrappers b' := by
  rw [Helper.wrappers, Helper.wrappers, h.wrappers, h.library]

/-- Three rows of the table may differ, and these in their code alone. -/
theorem mem_table (h : b.Alike b') {helper : Helper} (hm : helper ∈ Helper.table b)
    (hfold : helper.name ≠ Helper.foldName) (hlog : helper.name ≠ Opcode.log2.helperName)
    (hexp : helper.name ≠ Opcode.exp2.helperName) : helper ∈ Helper.table b' := by
  simp only [Helper.table, List.cons_append, List.nil_append, List.mem_cons, h.wrappers_eq] at hm ⊢
  -- The row is the same in both builds, or its name rules it out.
  rcases hm with hm | hm | rfl | hm | hm | hm | rfl | rfl | hm <;> tauto

theorem find?_eq (h : b.Alike b') {name : String} (hfold : name ≠ Helper.foldName)
    (hlog : name ≠ Opcode.log2.helperName) (hexp : name ≠ Opcode.exp2.helperName) :
    Helper.find? b name = Helper.find? b' name := by
  apply Option.ext
  intro helper
  rw [Helper.find?_eq_some_iff, Helper.find?_eq_some_iff]
  constructor
  · rintro ⟨hm, rfl⟩
    exact ⟨h.mem_table hm hfold hlog hexp, rfl⟩
  · rintro ⟨hm, rfl⟩
    exact ⟨h.symm.mem_table hm hfold hlog hexp, rfl⟩

/-- A name and a signature lead to one function in both builds, unless the function is that of an
opcode which they provide differently, or that of undecoded tags. -/
theorem function_eq (h : b.Alike b') {name : String} {s : Signature}
    (hfold : name = Helper.foldName → s ≠ .floatTagToFloat)
    (hown : ∀ op ∈ Opcode.exported, name = op.helperName → s = .floatToFloat →
      b.capabilities.provides op = b'.capabilities.provides op) :
    Helper.function b name s = Helper.function b' name s := by
  have own {op : Opcode} (hop : op ∈ Opcode.exported) (hn : name = op.helperName) :
      Helper.function b name s = Helper.function b' name s := by
    by_cases hs : s = .floatToFloat
    · subst hn hs
      rw [Helper.function_exported b hop, Helper.function_exported b' hop]
      exact congrArg _ (funext (h.fold_congr (hown op hop rfl rfl)))
    · rw [hn, Helper.function_exported_of_ne b hop hs, Helper.function_exported_of_ne b' hop hs]
  by_cases hn : name = Helper.foldName
  · rw [hn, Helper.function_fold_of_ne b (hfold hn), Helper.function_fold_of_ne b' (hfold hn)]
  by_cases hl : name = Opcode.log2.helperName
  · exact own (by decide) hl
  by_cases he : name = Opcode.exp2.helperName
  · exact own (by decide) he
  rw [Helper.function, h.find?_eq hn hl he, Helper.function]

/-- The names and signatures of the table. -/
theorem signatures_eq (h : b.Alike b') :
    (Helper.table b).map (fun helper => (helper.name, helper.signature)) =
      (Helper.table b').map fun helper => (helper.name, helper.signature) := by
  simp only [Helper.table, List.map_append, List.map_cons, List.map_nil, Helper.signature,
    Helper.unary, Routine.signature, h.wrappers_eq]

end Build.Alike

namespace Request

variable {b b' : Build} {r : Request}

/-- A call through the table. The arguments say which opcode, if any, is asked for. -/
theorem call_congr (h : b.Alike b') {name : String} {args : Arguments}
    (hr : ∀ op x, Evaluates op x (.exported name args) →
      b.capabilities.provides op = b'.capabilities.provides op) :
    Helper.call b name args = Helper.call b' name args := by
  -- Two of the helpers depend on a capability: the folder by its tag, an opcode's own by its name.
  by_cases hn : name = Helper.foldName ∧ args.signature = .floatTagToFloat
  · obtain ⟨rfl, hs⟩ := hn
    cases args with
    | floatTag x tag =>
      have htag : foldTag b tag x = foldTag b' tag x :=
        h.foldTag_congr (fun op (hop : op.tag = tag) => hr op x (hop ▸ .exported)) x
      simp [htag]
    | _ => cases hs
  · have hfunction :
        Helper.function b name args.signature = Helper.function b' name args.signature :=
      h.function_eq (fun hname hs => hn ⟨hname, hs⟩) fun op hop hname hs => by
        subst hname
        cases args with
        | float x => exact hr op x (.own hop)
        | _ => cases hs
    rw [Helper.call, hfunction, Helper.call]

/-- **A request is answered alike in builds that agree on what it asks for.** -/
theorem answer_congr (h : b.Alike b')
    (hr : ∀ op x, r.Evaluates op x → b.capabilities.provides op = b'.capabilities.provides op) :
    r.answer b = r.answer b' := by
  have hfold {op : Opcode} {x : Binary64} (he : r.Evaluates op x) : fold b op x = fold b' op x :=
    h.fold_congr (hr op x he) x
  obtain ⟨j, hj, -⟩ := Jit.exists_link b
  obtain ⟨j', hj', -⟩ := Jit.exists_link b'
  -- Both builds link, so on every route the question is whether the function called is the same.
  cases r with
  | direct a =>
    cases a with
    | fold op x => simp only [answer, Ask.direct, hfold .direct]
    | _ => rfl
  | tag t x =>
    have htag : foldTag b t x = foldTag b' t x :=
      h.foldTag_congr (fun op (hop : op.tag = t) => hr op x (hop ▸ .tag)) x
    simp only [answer, htag]
  | exported name args => simp only [answer, call_congr h hr]
  | jit a =>
    simp only [answer, Jit.request_of_link hj, Jit.request_of_link hj']
    cases a with
    | remainder x y => simp only [Ask.jit, Jit.remainder_of_link hj, Jit.remainder_of_link hj']
    | power x k => simp only [Ask.jit, Jit.power_of_link hj, Jit.power_of_link hj']
    | fold op x =>
      by_cases hop : op = .other
      · subst hop
        rfl
      · simp only [Ask.jit, Jit.fold_of_link hj hop, Jit.fold_of_link hj' hop, hfold .jit]
  | apply name x =>
    have hfunction : Helper.function b name .floatToFloat = Helper.function b' name .floatToFloat :=
      h.function_eq nofun fun op hop hname _ => hr op x (hname ▸ .apply hop)
    simp only [answer, Jit.request_of_link hj, Jit.request_of_link hj', Jit.apply_of_link hj,
      Jit.apply_of_link hj', hfunction]
  | engine useJit a =>
    obtain ⟨e, he, hs⟩ := Engine.exists_select b useJit
    obtain ⟨e', he', hs'⟩ := Engine.exists_select b' useJit
    simp only [answer, he, he']
    cases a with
    | remainder x y => simp only [Ask.engine, hs.remainder, hs'.remainder]
    | power x k => simp only [Ask.engine, hs.power, hs'.power]
    | fold op x => simp only [Ask.engine, hs.fold, hs'.fold, hfold (.engine useJit)]

/-- Either both builds give a value, or they give the same answer. -/
theorem answer_value_or_eq (h : b.Alike b') (r : Request) :
    (∃ v v', r.answer b = .value v ∧ r.answer b' = .value v') ∨ r.answer b = r.answer b' := by
  by_cases hr : ∀ op x, r.Evaluates op x →
      b.capabilities.provides op = b'.capabilities.provides op
  · exact .inr (answer_congr h hr)
  · -- The builds differ in an opcode that the request asks for, and it has a value in either.
    push Not at hr
    obtain ⟨op, x, he, hne⟩ := hr
    have hop : op ≠ .other := by
      rintro rfl
      exact hne rfl
    obtain ⟨y, -, hy⟩ := answer_of_evaluates hop he b
    obtain ⟨y', -, hy'⟩ := answer_of_evaluates hop he b'
    exact .inl ⟨_, _, hy, hy'⟩

end Request

/-- Generated code can call the same names. -/
theorem Jit.names_eq {b b' : Build} (h : b.Alike b') {j j' : Jit} (hj : Jit.link b = .ok j)
    (hj' : Jit.link b' = .ok j') : j.names = j'.names := by
  have ht : (Helper.table b).map (·.name) = (Helper.table b').map (·.name) := by
    simpa only [List.map_map, Function.comp_def] using congrArg (List.map Prod.fst) h.signatures_eq
  rw [names, names, (linked_of_link hj).helpers, (linked_of_link hj').helpers, ht]

/-! ## Two choices of features -/

section Features

variable (t : Target) (lib : MathLibrary)

theorem Build.alike_ofFeatures (f g : Features) : (ofFeatures t lib f).Alike (ofFeatures t lib g) :=
  ⟨rfl, rfl⟩

/-- A request for an opcode with two formulas is answered by the one that the reported capability
tells, and depends on no other feature. -/
theorem Request.answer_of_choice {op : Opcode} {own substitute : MathLibrary → Binary64 → Binary64}
    (hop : op.IsChoice own substitute) {r : Request} {x : Binary64} (hr : r.Evaluates op x) :
    (∀ f, ((Build.ofFeatures t lib f).capabilities.provides op = true →
        r.answer (.ofFeatures t lib f) = .value (.float (own lib x))) ∧
      ((Build.ofFeatures t lib f).capabilities.provides op = false →
        r.answer (.ofFeatures t lib f) = .value (.float (substitute lib x)))) ∧
    ∀ f g, f.replaces op = g.replaces op →
      r.answer (.ofFeatures t lib f) = r.answer (.ofFeatures t lib g) := by
  have hother : op ≠ .other := by
    rintro rfl
    cases hop (.ofFeatures t lib ⟨false, false⟩) x
  have hvalue (f : Features) : r.answer (.ofFeatures t lib f) =
      .value (.float (if (Build.ofFeatures t lib f).capabilities.provides op then own lib x
        else substitute lib x)) := by
    obtain ⟨y, hy, ha⟩ := answer_of_evaluates hother hr (.ofFeatures t lib f)
    rw [hop] at hy
    cases hy
    exact ha
  refine ⟨fun f => ⟨fun hc => ?_, fun hc => ?_⟩, fun f g h => ?_⟩
  · rw [hvalue, if_pos hc]
  · rw [hvalue, hc, if_neg Bool.false_ne_true]
  · have hc : (Build.ofFeatures t lib f).capabilities.provides op =
        (Build.ofFeatures t lib g).capabilities.provides op :=
      Capabilities.provides_select t h
    rw [hvalue, hvalue, hc]

end Features

/-- **A feature interferes with nothing but what it names.** The answer to a request for neither
`log2` nor `exp2` is the same whatever features are chosen. A request for one of these two, on any
route, is answered by the library's function if the build reports that it has it, and else by the
other formula; so it depends on its own feature alone. The helpers of the table keep their names and
signatures, generated code can call the same names, and every refusal and every fault is the
same. -/
theorem features_interfere_with_nothing_else (t : Target) (lib : MathLibrary) :
    (∀ r f g, (∀ x, ¬Request.Evaluates .log2 x r) → (∀ x, ¬Request.Evaluates .exp2 x r) →
      r.answer (.ofFeatures t lib f) = r.answer (.ofFeatures t lib g)) ∧
    (∀ r x, Request.Evaluates .log2 x r →
      (∀ f, ((Build.ofFeatures t lib f).capabilities.nativeLog2 = true →
          r.answer (.ofFeatures t lib f) = .value (.float (lib.log2 x))) ∧
        ((Build.ofFeatures t lib f).capabilities.nativeLog2 = false →
          r.answer (.ofFeatures t lib f) = .value (.float (lib.log x * invLn2)))) ∧
      ∀ f g, f.fallbackLog2 = g.fallbackLog2 →
        r.answer (.ofFeatures t lib f) = r.answer (.ofFeatures t lib g)) ∧
    (∀ r x, Request.Evaluates .exp2 x r →
      (∀ f, ((Build.ofFeatures t lib f).capabilities.nativeExp2 = true →
          r.answer (.ofFeatures t lib f) = .value (.float (lib.exp2 x))) ∧
        ((Build.ofFeatures t lib f).capabilities.nativeExp2 = false →
          r.answer (.ofFeatures t lib f) = .value (.float (lib.exp (x * ln2))))) ∧
      ∀ f g, f.fallbackExp2 = g.fallbackExp2 →
        r.answer (.ofFeatures t lib f) = r.answer (.ofFeatures t lib g)) ∧
    (∀ f g, (Helper.table (.ofFeatures t lib f)).map (fun h => (h.name, h.signature)) =
      (Helper.table (.ofFeatures t lib g)).map fun h => (h.name, h.signature)) ∧
    (∀ f g, ∃ j j', Jit.link (.ofFeatures t lib f) = .ok j ∧
      Jit.link (.ofFeatures t lib g) = .ok j' ∧ j.names = j'.names) ∧
    (∀ (r : Request) f g e, r.answer (.ofFeatures t lib f) = .refused e →
      r.answer (.ofFeatures t lib g) = .refused e) ∧
    (∀ (r : Request) f g fault, r.answer (.ofFeatures t lib f) = .aborted fault →
      r.answer (.ofFeatures t lib g) = .aborted fault) := by
  have alike := Build.alike_ofFeatures t lib
  refine ⟨fun r f g hlog hexp => Request.answer_congr (alike f g) fun op x hr => ?_,
    fun r x hr => Request.answer_of_choice t lib Opcode.isChoice_log2 hr,
    fun r x hr => Request.answer_of_choice t lib Opcode.isChoice_exp2 hr,
    fun f g => (alike f g).signatures_eq, fun f g => ?_, fun r f g e h => ?_,
    fun r f g fault h => ?_⟩
  · -- A capability belongs to one of the two opcodes.
    cases op with
    | log2 => exact absurd hr (hlog x)
    | exp2 => exact absurd hr (hexp x)
    | _ => rfl
  · obtain ⟨j, hj, -⟩ := Jit.exists_link (.ofFeatures t lib f)
    obtain ⟨j', hj', -⟩ := Jit.exists_link (.ofFeatures t lib g)
    exact ⟨j, j', hj, hj', Jit.names_eq (alike f g) hj hj'⟩
  · obtain ⟨v, v', hv, -⟩ | heq := Request.answer_value_or_eq (alike f g) r
    · rw [hv] at h
      cases h
    · rwa [← heq]
  · obtain ⟨v, v', hv, -⟩ | heq := Request.answer_value_or_eq (alike f g) r
    · rw [hv] at h
      cases h
    · rwa [← heq]

/-- With no feature and with both: a root in generated code, the tag of `log2`, the exported `exp2`,
a refusal and a fault. -/
theorem features_interfere_with_nothing_else_on_x86 :
    ((∀ x, ¬Request.Evaluates .log2 x (.jit (.fold .sqrt .one))) ∧
      (∀ x, ¬Request.Evaluates .exp2 x (.jit (.fold .sqrt .one))) ∧
      Request.answer (.ofFeatures ⟨false, true⟩ .correctlyRounded ⟨false, false⟩)
          (.jit (.fold .sqrt .one)) =
        Request.answer (.ofFeatures ⟨false, true⟩ .correctlyRounded ⟨true, true⟩)
          (.jit (.fold .sqrt .one))) ∧
    (Request.Evaluates .log2 .one (.tag 7 .one) ∧
      Request.answer (.ofFeatures ⟨false, true⟩ .correctlyRounded ⟨true, false⟩) (.tag 7 .one) =
        .value (.float (MathLibrary.correctlyRounded.log .one * invLn2))) ∧
    (Request.Evaluates .exp2 .one (.exported "tracejit_vm_exp2" (.float .one)) ∧
      Request.answer (.ofFeatures ⟨false, true⟩ .correctlyRounded ⟨true, false⟩)
          (.exported "tracejit_vm_exp2" (.float .one)) =
        .value (.float (MathLibrary.correctlyRounded.exp2 .one))) ∧
    (Request.answer (.ofFeatures ⟨false, true⟩ .correctlyRounded ⟨false, false⟩)
          (.engine false (.remainder 1 0)) = .refused (.evaluation .zeroDivisor) ∧
      Request.answer (.ofFeatures ⟨false, true⟩ .correctlyRounded ⟨true, true⟩)
          (.engine false (.remainder 1 0)) = .refused (.evaluation .zeroDivisor)) ∧
    (Request.answer (.ofFeatures ⟨false, true⟩ .correctlyRounded ⟨false, false⟩) (.tag 12 .one) =
        .aborted (.unsupportedTag 12) ∧
      Request.answer (.ofFeatures ⟨false, true⟩ .correctlyRounded ⟨true, true⟩) (.tag 12 .one) =
        .aborted (.unsupportedTag 12)) := by
  obtain ⟨hother, hlog, hexp, -, -, hrefused, haborted⟩ :=
    features_interfere_with_nothing_else ⟨false, true⟩ .correctlyRounded
  have hnolog : ∀ x, ¬Request.Evaluates .log2 x (.jit (.fold .sqrt .one)) := fun x h => by cases h
  have hnoexp : ∀ x, ¬Request.Evaluates .exp2 x (.jit (.fold .sqrt .one)) := fun x h => by cases h
  have htag : Request.Evaluates .log2 .one (.tag 7 .one) := .tag
  have hexported : Opcode.exp2 ∈ Opcode.exported := by decide
  have hown : Request.Evaluates .exp2 .one (.exported "tracejit_vm_exp2" (.float .one)) :=
    .own hexported
  have hzero : Request.answer (.ofFeatures ⟨false, true⟩ .correctlyRounded ⟨false, false⟩)
      (.engine false (.remainder 1 0)) = .refused (.evaluation .zeroDivisor) := rfl
  have hlast : Request.answer (.ofFeatures ⟨false, true⟩ .correctlyRounded ⟨false, false⟩)
      (.tag 12 .one) = .aborted (.unsupportedTag 12) := rfl
  exact ⟨⟨hnolog, hnoexp, hother _ _ _ hnolog hnoexp⟩,
    ⟨htag, ((hlog _ _ htag).1 ⟨true, false⟩).2 rfl⟩,
    ⟨hown, ((hexp _ _ hown).1 ⟨true, false⟩).1 rfl⟩,
    ⟨hzero, hrefused _ _ _ _ hzero⟩, ⟨hlast, haborted _ _ _ _ hlast⟩⟩

end TraceMath
