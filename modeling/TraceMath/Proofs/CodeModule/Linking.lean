import TraceMath.CodeModule.Jit
import TraceMath.Proofs.CodeModule.Declarations

/-!
# Linking, and look-up through generated code

Linking goes through the table of helpers and declares two names for each, the helper's and its
trampoline's.

* `Linked`: what holds behind a part of the table. One more helper keeps it (`Linked.add`), so it
  holds behind all of them, and linking succeeds in every build (`exists_link`).
* `Linked.resolve`: a trampoline leads through its function, the declaration that this function
  calls and the symbols to the code of its own helper.
* `function_of_link`: generated code finds under a name what the table has under it. So the calls
  are those of the table, and `apply_cases` says which of three ways a call by name ends in.
-/

namespace TraceMath

/-- The declaration with an id is found by it. -/
theorem CodeModule.WellFormed.find?_id {m : CodeModule} (h : m.WellFormed) {d : Declaration}
    (hd : d ∈ m.declarations) : m.declarations.find? (·.id == d.id) = some d := by
  have hn : (m.declarations.map (·.id)).Nodup := by
    refine List.Nodup.of_map (·.index) ?_
    rw [List.map_map]
    exact h.ids ▸ List.nodup_range
  exact (find?_key_eq_some_iff hn d.id d).mpr ⟨hd, rfl⟩

namespace Jit

/-- The names that linking declares for a list of helpers. -/
def linkNames (hs : List Helper) : List String :=
  hs.flatMap fun h => [h.name, trampolineName h.name]

@[simp] theorem linkNames_append (hs rest : List Helper) :
    linkNames (hs ++ rest) = linkNames hs ++ linkNames rest :=
  List.flatMap_append

@[simp] theorem linkNames_singleton (h : Helper) :
    linkNames [h] = [h.name, trampolineName h.name] := by
  rw [linkNames, List.flatMap_singleton]

/-! ## What linking keeps -/

/-- The trampolines of `done` are compiled, with `symbols` registered. Each is bound to the name of
its helper through the function that it stands for and the declaration which that function calls. -/
structure Linked (symbols done : List Helper) (j : Jit) : Prop where
  symbols : j.symbols = symbols
  wellFormed : j.code.WellFormed
  names : j.code.names = linkNames done
  /-- A function is compiled once. -/
  ids_nodup : (j.functions.map (·.id)).Nodup
  /-- What is compiled was declared. -/
  id_lt : ∀ f ∈ j.functions, f.id.index < j.code.declarations.length
  trampolines : (j.trampolines.map fun t => (t.helper, t.signature)) =
    done.map fun h => (h.name, h.signature)
  bound : ∀ t ∈ j.trampolines, ∃ d ∈ j.code.declarations,
    d.name = t.helper ∧ ⟨t.id, d.id⟩ ∈ j.functions

theorem linked_register (symbols : List Helper) : Linked symbols [] (register symbols) where
  symbols := rfl
  wellFormed := CodeModule.wellFormed_empty
  names := rfl
  ids_nodup := List.nodup_nil
  id_lt := nofun
  trampolines := rfl
  bound := nofun

section

variable {symbols done : List Helper} {j : Jit}

/-- One more helper and its trampoline. They get the next two ids, and nothing that was declared or
compiled before is touched. -/
def add (j : Jit) (h : Helper) : Jit where
  symbols := j.symbols
  code := (j.code.add h.name h.signature.functionType).add (trampolineName h.name)
    h.signature.functionType
  functions := j.functions ++ [⟨⟨j.code.declarations.length + 1⟩, ⟨j.code.declarations.length⟩⟩]
  trampolines := j.trampolines ++ [⟨h.name, h.signature, ⟨j.code.declarations.length + 1⟩⟩]

/-- Both declarations take the branch of a new name. -/
theorem compile_of_new {h : Helper} (hhelper : h.name ∉ j.code.names)
    (hown : trampolineName h.name ∉ (j.code.add h.name h.signature.functionType).names) :
    compile j h = .ok (j.add h) := by
  rw [← CodeModule.declaration?_eq_none_iff] at hhelper hown
  simp [compile, CodeModule.importHelper, CodeModule.declare_of_new hhelper,
    CodeModule.declare_of_new hown, add]

theorem Linked.names_new (hj : Linked symbols done j) {h : Helper}
    (hnew : (linkNames (done ++ [h])).Nodup) :
    h.name ∉ j.code.names ∧
      trampolineName h.name ∉ (j.code.add h.name h.signature.functionType).names := by
  rw [linkNames_append, linkNames_singleton, ← hj.names, List.nodup_append] at hnew
  obtain ⟨-, hpair, hfresh⟩ := hnew
  have hne : trampolineName h.name ≠ h.name := by simpa [eq_comm] using hpair
  refine ⟨fun hm => hfresh _ hm _ (by simp) rfl, fun hm => ?_⟩
  rw [CodeModule.names_add, List.mem_append, List.mem_singleton] at hm
  exact hm.elim (fun hm => hfresh _ hm _ (by simp) rfl) hne

theorem Linked.add (hj : Linked symbols done j) {h : Helper} (hhelper : h.name ∉ j.code.names)
    (hown : trampolineName h.name ∉ (j.code.add h.name h.signature.functionType).names) :
    Linked symbols (done ++ [h]) (j.add h) where
  symbols := hj.symbols
  wellFormed := (hj.wellFormed.add hhelper _).add hown _
  names := by simp [Jit.add, hj.names]
  ids_nodup := by
    -- The new function has the last id of the module, the old ones have ids below it.
    rw [Jit.add, List.map_append, List.map_singleton, List.nodup_append]
    refine ⟨hj.ids_nodup, List.nodup_singleton _, ?_⟩
    rintro a ha c hc rfl
    obtain ⟨f, hf, rfl⟩ := List.mem_map.mp ha
    have hlt := hj.id_lt f hf
    simp only [List.mem_singleton.mp hc] at hlt
    omega
  id_lt f hf := by
    simp only [Jit.add, CodeModule.declarations_add, List.length_append, List.length_singleton]
    rcases List.mem_append.mp hf with hf | hf
    · have hlt := hj.id_lt f hf
      omega
    · simp [List.mem_singleton.mp hf]
  trampolines := by simp [Jit.add, hj.trampolines]
  bound t ht := by
    rcases List.mem_append.mp ht with ht | ht
    · obtain ⟨d, hd, hname, hf⟩ := hj.bound t ht
      exact ⟨d, by simp [Jit.add, hd], hname, List.mem_append_left _ hf⟩
    · rw [List.mem_singleton.mp ht]
      exact ⟨⟨h.name, h.signature.functionType, ⟨j.code.declarations.length⟩⟩,
        by simp [Jit.add], rfl, by simp [Jit.add]⟩

/-- Helpers with distinct names are compiled one after another. -/
theorem foldlM_compile (hj : Linked symbols done j) {hs : List Helper}
    (hnew : (linkNames (done ++ hs)).Nodup) :
    ∃ j', hs.foldlM compile j = .ok j' ∧ Linked symbols (done ++ hs) j' := by
  induction hs generalizing j done with
  | nil => exact ⟨j, rfl, by rwa [List.append_nil]⟩
  | cons h rest ih =>
    rw [List.append_cons] at hnew ⊢
    have hhead : (linkNames (done ++ [h])).Nodup :=
      (List.nodup_append.mp (linkNames_append (done ++ [h]) rest ▸ hnew)).1
    obtain ⟨hhelper, hown⟩ := hj.names_new hhead
    obtain ⟨j', hj', hall⟩ := ih (hj.add hhelper hown) hnew
    refine ⟨j', ?_, hall⟩
    rw [List.foldlM_cons, compile_of_new hhelper hown]
    exact hj'

/-! ## From a trampoline to the code -/

/-- **A trampoline runs its own helper**: the symbols decide what that is. -/
theorem Linked.resolve (hj : Linked symbols done j) {t : Trampoline} (ht : t ∈ j.trampolines) :
    j.resolve t.id = (symbols.find? (·.name == t.helper)).map (·.routine) := by
  obtain ⟨d, hd, hname, hf⟩ := hj.bound t ht
  have hfunction : j.functions.find? (·.id == t.id) = some ⟨t.id, d.id⟩ :=
    (find?_key_eq_some_iff hj.ids_nodup t.id _).mpr ⟨hf, rfl⟩
  simp only [Jit.resolve, hfunction, hj.wellFormed.find?_id hd, hname, hj.symbols,
    Option.pure_def, Option.bind_eq_bind, Option.bind_some]
  exact Option.map_eq_bind.symm

theorem Linked.helpers (hj : Linked symbols done j) :
    j.trampolines.map (·.helper) = done.map (·.name) := by
  have h := congrArg (List.map Prod.fst) hj.trampolines
  simpa only [List.map_map, Function.comp_def] using h

/-- A helper that was linked is found by its name. -/
theorem Linked.exists_trampoline (hj : Linked symbols done j)
    (hnodup : (done.map (·.name)).Nodup) {h : Helper} (hh : h ∈ done) :
    ∃ t ∈ j.trampolines, j.trampolines.find? (·.helper == h.name) = some t ∧
      t.helper = h.name ∧ t.signature = h.signature := by
  have hmem : (h.name, h.signature) ∈ j.trampolines.map fun t => (t.helper, t.signature) :=
    hj.trampolines ▸ List.mem_map_of_mem hh
  obtain ⟨t, ht, he⟩ := List.mem_map.mp hmem
  obtain ⟨hname, hsig⟩ := Prod.mk.inj he
  exact ⟨t, ht, (find?_key_eq_some_iff (hj.helpers ▸ hnodup) _ _).mpr ⟨ht, hname⟩, hname, hsig⟩

end

/-! ## Linking succeeds -/

theorem linkNames_table_nodup (b : Build) : (linkNames (Helper.table b)).Nodup := by
  unfold linkNames Helper.table Helper.wrappers Helper.unary
  cases b.capabilities.hyperbolicWrappers <;>
    simp only [List.cons_append, List.nil_append, List.flatMap_cons, List.flatMap_nil, ite_true,
      Bool.false_eq_true, ite_false] <;>
    decide

/-- **Linking succeeds** in every build, and goes through the whole table. -/
theorem exists_link (b : Build) :
    ∃ j, link b = .ok j ∧ Linked (Helper.table b) (Helper.table b) j :=
  foldlM_compile (linked_register _) (linkNames_table_nodup b)

section Linked

variable {b : Build} {j : Jit}

theorem linked_of_link (h : link b = .ok j) : Linked (Helper.table b) (Helper.table b) j := by
  obtain ⟨j', hj', hl⟩ := exists_link b
  rw [h] at hj'
  cases hj'
  exact hl

/-- **Two look-ups, one answer**: a name and a signature lead to the same function through generated
code and through the table. -/
theorem function_of_link (h : link b = .ok j) (name : String) (s : Signature) :
    j.function name s = Helper.function b name s := by
  have hl := linked_of_link h
  -- The trampolines have the names of the table, so a name has one exactly if it has a helper.
  cases hf : Helper.find? b name with
  | none =>
    have hnone : j.trampolines.find? (·.helper == name) = none := by
      rw [find?_key_eq_none_iff, hl.helpers]
      exact (find?_key_eq_none_iff name).mp hf
    rw [Helper.function_of_absent hf, function, hnone]
  | some helper =>
    obtain ⟨hmem, rfl⟩ := (Helper.find?_eq_some_iff b name helper).mp hf
    obtain ⟨t, ht, hfound, hname, hsig⟩ := hl.exists_trampoline (Helper.names_nodup b) hmem
    have hroutine : j.resolve t.id = some helper.routine := by
      rw [hl.resolve ht, hname]
      exact congrArg (Option.map (·.routine)) hf
    simp only [function, hfound, hsig, hroutine, Option.bind_some]
    by_cases hs : helper.signature = s
    · obtain ⟨f, ha⟩ := Routine.exists_as? hs
      rw [Helper.function_of_as? hf ha, if_neg (not_not.mpr hs), ha]
    · rw [Helper.function_of_mismatch hf hs, if_pos hs]

/-! ## The calls -/

theorem remainder_of_link (h : link b = .ok j) (x y : Int32) :
    j.remainder x y = .ofChecked (checkedRem x y) := by
  simp [remainder, function_of_link h]

theorem power_of_link (h : link b = .ok j) (x : Binary64) (k : Int32) :
    j.power x k = .value (x.powInt k) := by
  simp [power, function_of_link h]

theorem fold_of_link (h : link b = .ok j) {op : Opcode} (hop : op ≠ .other) (x : Binary64) :
    j.fold op x = .ofChecked (TraceMath.fold b op x) := by
  simp [fold, hop, function_of_link h]

/-- A call of a helper of one number: the table decides whether it is made. -/
theorem apply_of_link (h : link b = .ok j) (name : String) (x : Binary64) :
    j.apply name x =
      (Helper.function b name .floatToFloat).bind fun f => .ofChecked (f x) := by
  rw [apply, function_of_link h]

/-- Linking does not refuse a request. -/
theorem request_of_link {α : Type} (h : link b = .ok j) (call : Jit → Outcome CallError α) :
    request b call = call j := by
  simp only [request, h]

/-! ## A call by name -/

section ByName

variable {name : String} {helper : Helper}

theorem apply_of_absent (h : link b = .ok j) (hf : Helper.find? b name = none) (x : Binary64) :
    j.apply name x = .refused (.unknownHelper name) := by
  rw [apply_of_link h, Helper.function_of_absent hf, Outcome.bind]

/-- A helper of one number is called, and its code returns. -/
theorem apply_of_unary (h : link b = .ok j) (hf : Helper.find? b name = some helper)
    (hs : helper.signature = .floatToFloat) (x : Binary64) :
    ∃ y, j.apply name x = .value y ∧ helper.routine.call (.float x) = some (.ok (.float y)) := by
  obtain ⟨f, ha⟩ := Routine.exists_as? hs
  have hfunction := Helper.function_of_as? hf ha
  obtain ⟨y, hy⟩ := Helper.exists_eq_ok_of_function hfunction x
  refine ⟨y, ?_, ?_⟩
  · rw [apply_of_link h, hfunction, Outcome.bind, hy, Outcome.ofChecked]
  · rw [Routine.call_float, ha, Option.map_some, hy]
    rfl

/-- A helper of any other signature is not called. -/
theorem apply_of_other_signature (h : link b = .ok j) (hf : Helper.find? b name = some helper)
    (hs : helper.signature ≠ .floatToFloat) (x : Binary64) :
    j.apply name x = .refused (.signatureMismatch name .floatToFloat helper.signature) := by
  rw [apply_of_link h, Helper.function_of_mismatch hf hs, Outcome.bind]

/-- An opcode's own helper is called like any other. -/
theorem apply_exported (h : link b = .ok j) {op : Opcode} (hop : op ∈ Opcode.exported)
    {x y : Binary64} (hy : TraceMath.fold b op x = .ok y) : j.apply op.helperName x = .value y := by
  simp [apply_of_link h, Helper.function_exported b hop, hy]

/-- What a call can end with: one case for an absent name, one for a helper of one number, one for
any other helper. -/
theorem apply_cases (h : link b = .ok j) (name : String) (x : Binary64) :
    (Helper.find? b name = none ∧ j.apply name x = .refused (.unknownHelper name)) ∨
    (∃ helper y, Helper.find? b name = some helper ∧ helper.signature = .floatToFloat ∧
      j.apply name x = .value y ∧ helper.routine.call (.float x) = some (.ok (.float y))) ∨
    (∃ helper, Helper.find? b name = some helper ∧ helper.signature ≠ .floatToFloat ∧
      j.apply name x = .refused (.signatureMismatch name .floatToFloat helper.signature)) := by
  cases hf : Helper.find? b name with
  | none => exact .inl ⟨rfl, apply_of_absent h hf x⟩
  | some helper =>
    by_cases hs : helper.signature = .floatToFloat
    · obtain ⟨y, hy, hcall⟩ := apply_of_unary h hf hs x
      exact .inr (.inl ⟨helper, y, rfl, hs, hy, hcall⟩)
    · exact .inr (.inr ⟨helper, rfl, hs, apply_of_other_signature h hf hs x⟩)

theorem apply_eq_value_iff (h : link b = .ok j) (name : String) (x y : Binary64) :
    j.apply name x = .value y ↔
      ∃ helper, Helper.find? b name = some helper ∧ helper.signature = .floatToFloat ∧
        helper.routine.call (.float x) = some (.ok (.float y)) := by
  constructor
  · intro hy
    obtain ⟨-, ha⟩ | ⟨helper, y', hf, hs, ha, hcall⟩ | ⟨helper, -, -, ha⟩ :=
      apply_cases h name x <;> rw [ha] at hy <;> cases hy
    exact ⟨helper, hf, hs, hcall⟩
  · rintro ⟨helper, hf, hs, hcall⟩
    obtain ⟨y', ha, hcall'⟩ := apply_of_unary h hf hs x
    rw [hcall] at hcall'
    cases hcall'
    exact ha

/-- These are the only refusals of a call by name. -/
theorem apply_eq_refused_iff (h : link b = .ok j) (name : String) (x : Binary64) (e : CallError) :
    j.apply name x = .refused e ↔
      (Helper.find? b name = none ∧ e = .unknownHelper name) ∨
      ∃ helper, Helper.find? b name = some helper ∧ helper.signature ≠ .floatToFloat ∧
        e = .signatureMismatch name .floatToFloat helper.signature := by
  constructor
  · intro hr
    obtain ⟨hf, ha⟩ | ⟨helper, y, -, -, ha, -⟩ | ⟨helper, hf, hs, ha⟩ := apply_cases h name x <;>
      rw [ha] at hr <;> cases hr
    · exact .inl ⟨hf, rfl⟩
    · exact .inr ⟨helper, hf, hs, rfl⟩
  · rintro (⟨hf, rfl⟩ | ⟨helper, hf, hs, rfl⟩)
    · exact apply_of_absent h hf x
    · exact apply_of_other_signature h hf hs x

theorem apply_ne_aborted (h : link b = .ok j) (name : String) (x : Binary64) (f : Fault) :
    j.apply name x ≠ .aborted f := by
  intro hf
  obtain ⟨-, ha⟩ | ⟨helper, y, -, -, ha, -⟩ | ⟨helper, -, -, ha⟩ := apply_cases h name x <;>
    rw [ha] at hf <;> cases hf

end ByName

theorem names_perm_of_link (h : link b = .ok j) :
    j.names.Perm ((Helper.table b).map (·.name)) := by
  rw [← (linked_of_link h).helpers]
  exact List.mergeSort_perm _ _

theorem nodup_names_of_link (h : link b = .ok j) : j.names.Nodup :=
  (names_perm_of_link h).nodup_iff.mpr (Helper.names_nodup b)

end Linked

/-- **A name is matched exactly, and generated code matches it as the table does.** The table has
at most one helper of a name. A call by name gives the value of the helper's code if the helper
takes one number; it is refused with the name as it was given if the helper has another signature
or if there is none; and it never ends the process. The names that can be called are those of the
table, each once. -/
theorem apply_classified (b : Build) :
    (∀ name h, Helper.find? b name = some h ↔ h ∈ Helper.table b ∧ h.name = name) ∧
    (∀ name, (∃ h, Helper.find? b name = some h) ↔ ∃! h, h ∈ Helper.table b ∧ h.name = name) ∧
    ∃ j, link b = .ok j ∧
      (∀ name x, (∃ y, j.apply name x = .value y) ↔
        ∃ h, Helper.find? b name = some h ∧ h.signature = .floatToFloat) ∧
      (∀ name x y, j.apply name x = .value y ↔
        ∃ h, Helper.find? b name = some h ∧ h.signature = .floatToFloat ∧
          h.routine.call (.float x) = some (.ok (.float y))) ∧
      (∀ name x n e a, j.apply name x = .refused (.signatureMismatch n e a) ↔
        n = name ∧ e = .floatToFloat ∧
          ∃ h, Helper.find? b name = some h ∧ h.signature ≠ .floatToFloat ∧ h.signature = a) ∧
      (∀ name x n, j.apply name x = .refused (.unknownHelper n) ↔
        n = name ∧ Helper.find? b name = none) ∧
      (∀ name x f, j.apply name x ≠ .aborted f) ∧
      j.names.Perm ((Helper.table b).map (·.name)) ∧ j.names.Nodup := by
  obtain ⟨j, hj, -⟩ := exists_link b
  refine ⟨Helper.find?_eq_some_iff b, Helper.exists_find?_iff b, j, hj, fun name x => ?_,
    apply_eq_value_iff hj, fun name x n e a => ?_, fun name x n => ?_, apply_ne_aborted hj,
    names_perm_of_link hj, nodup_names_of_link hj⟩
  · constructor
    · rintro ⟨y, hy⟩
      obtain ⟨helper, hf, hs, -⟩ := (apply_eq_value_iff hj name x y).mp hy
      exact ⟨helper, hf, hs⟩
    · rintro ⟨helper, hf, hs⟩
      obtain ⟨y, hy, -⟩ := apply_of_unary hj hf hs x
      exact ⟨y, hy⟩
  · constructor
    · intro ha
      obtain ⟨-, he⟩ | ⟨helper, hf, hs, he⟩ := (apply_eq_refused_iff hj name x _).mp ha
      · cases he
      · cases he
        exact ⟨rfl, rfl, helper, hf, hs, rfl⟩
    · rintro ⟨rfl, rfl, helper, hf, hs, rfl⟩
      exact apply_of_other_signature hj hf hs x
  · constructor
    · intro ha
      obtain ⟨hf, he⟩ | ⟨helper, hf, hs, he⟩ := (apply_eq_refused_iff hj name x _).mp ha
      · cases he
        exact ⟨rfl, hf⟩
      · cases he
    · rintro ⟨rfl, hf⟩
      exact apply_of_absent hj hf x

end Jit

end TraceMath
