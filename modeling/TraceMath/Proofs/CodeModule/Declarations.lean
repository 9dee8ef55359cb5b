import Mathlib.Data.Finset.Card
import Mathlib.Data.Set.Function
import TraceMath.CodeModule.Basic
import TraceMath.Proofs.Lookup
import TraceMath.Proofs.Machine

/-!
# What a list of declarations leaves in a code module

A list of calls is the names and signatures that helpers are declared with, one after another.
What a call answers is fixed by the calls alone: by the first call with its name, and by the
names that come before that one.

* `Records m calls`: the module `m` holds exactly what `calls` declared. Every call keeps it
  (`Records.importHelper`), so it holds after any list of calls (`Records.importedBy`).
* `importAll_eq_map`: the answers are those of `answerOf`, which does not mention a module.
* `WellFormed`: names are distinct and ids are consecutive.
-/

namespace TraceMath

/-- Two signatures have the same function type if they are equal or are the two that take a
number and a 32-bit integer. -/
theorem Signature.functionType_eq_iff (s t : Signature) :
    s.functionType = t.functionType ↔
      s = t ∨ (s = .floatIntToFloat ∧ t = .floatTagToFloat) ∨
        (s = .floatTagToFloat ∧ t = .floatIntToFloat) := by
  cases s <;> cases t <;> decide

namespace CodeModule

/-! ## One declaration -/

/-- The declared names, in the order of their ids. -/
def names (m : CodeModule) : List String := m.declarations.map (·.name)

/-- The declaration of a name. -/
def declaration? (m : CodeModule) (name : String) : Option Declaration :=
  m.declarations.find? (·.name == name)

/-- The module with a new name declared under the next id. -/
def add (m : CodeModule) (name : String) (type : FunctionType) : CodeModule :=
  ⟨m.declarations ++ [⟨name, type, ⟨m.declarations.length⟩⟩]⟩

@[simp] theorem declarations_add (m : CodeModule) (name : String) (type : FunctionType) :
    (m.add name type).declarations =
      m.declarations ++ [⟨name, type, ⟨m.declarations.length⟩⟩] := rfl

theorem declare_of_declared {m : CodeModule} {name : String} {d : Declaration}
    (h : m.declaration? name = some d) (type : FunctionType) :
    m.declare name type =
      (m, if d.type = type then .ok d.id
        else .error (.incompatibleDeclaration ⟨name, d.type, type⟩)) := by
  unfold declaration? at h
  simp only [declare, h]

theorem declare_of_new {m : CodeModule} {name : String} (h : m.declaration? name = none)
    (type : FunctionType) :
    m.declare name type = (m.add name type, .ok ⟨m.declarations.length⟩) := by
  unfold declaration? at h
  simp only [declare, h, add]

theorem declaration?_add (m : CodeModule) (name : String) (type : FunctionType) (other : String) :
    (m.add name type).declaration? other =
      (m.declaration? other).or
        (if name = other then some ⟨name, type, ⟨m.declarations.length⟩⟩ else none) := by
  simp only [add, declaration?, List.find?_append, List.find?_singleton, beq_iff_eq]

theorem declaration?_eq_none_iff (m : CodeModule) (name : String) :
    m.declaration? name = none ↔ name ∉ m.names :=
  find?_key_eq_none_iff name

@[simp] theorem names_add (m : CodeModule) (name : String) (type : FunctionType) :
    (m.add name type).names = m.names ++ [name] := by
  simp only [names, add, List.map_append, List.map_singleton]

/-- A declaration is never taken back and keeps its place. -/
theorem declarations_prefix_declare (m : CodeModule) (name : String) (type : FunctionType) :
    m.declarations <+: (m.declare name type).1.declarations := by
  cases h : m.declaration? name with
  | some d => rw [declare_of_declared h]
  | none => rw [declare_of_new h]; exact List.prefix_append _ _

/-- The names of a module are distinct, and the ids are the places in the order of first
declarations. -/
structure WellFormed (m : CodeModule) : Prop where
  names_nodup : m.names.Nodup
  ids : m.declarations.map (·.id.index) = List.range m.declarations.length

theorem wellFormed_empty : empty.WellFormed := ⟨List.nodup_nil, rfl⟩

theorem WellFormed.add {m : CodeModule} (h : m.WellFormed) {name : String} (hn : name ∉ m.names)
    (type : FunctionType) : (m.add name type).WellFormed := by
  constructor
  · rw [names_add, List.nodup_append]
    refine ⟨h.names_nodup, List.nodup_singleton _, fun a ha b hb hab => hn ?_⟩
    obtain rfl : b = name := List.mem_singleton.mp hb
    exact hab ▸ ha
  · simp [h.ids, List.range_succ]

theorem WellFormed.declare {m : CodeModule} (h : m.WellFormed) (name : String)
    (type : FunctionType) : (m.declare name type).1.WellFormed := by
  cases hd : m.declaration? name with
  | some d =>
    rw [declare_of_declared hd]
    exact h
  | none =>
    rw [declare_of_new hd]
    exact h.add ((declaration?_eq_none_iff m name).mp hd) type

theorem WellFormed.declaration?_eq_some_iff {m : CodeModule} (h : m.WellFormed) (name : String)
    (d : Declaration) : m.declaration? name = some d ↔ d ∈ m.declarations ∧ d.name = name :=
  find?_key_eq_some_iff h.names_nodup name d

/-- The ids of a module are the numbers below the number of its declarations, each once. -/
theorem WellFormed.bijOn_index {m : CodeModule} (h : m.WellFormed) :
    Set.BijOn (·.id.index) {d | d ∈ m.declarations} (Set.Iio m.declarations.length) := by
  have hn : (m.declarations.map (·.id.index)).Nodup := h.ids ▸ List.nodup_range
  have hi (i : Nat) : i ∈ m.declarations.map (·.id.index) ↔ i < m.declarations.length := by
    rw [h.ids, List.mem_range]
  refine ⟨fun d hd => (hi _).mp (List.mem_map_of_mem hd), fun d hd e he hde =>
    List.inj_on_of_nodup_map hn hd he hde, fun i hlt => ?_⟩
  obtain ⟨d, hd, hdi⟩ := List.mem_map.mp ((hi i).mpr hlt)
  exact ⟨d, hd, hdi⟩

/-! ## The calls alone -/

section Calls

variable (calls : List (String × Signature))

/-- The function type of the first call with the given name. -/
def firstType? (name : String) : Option FunctionType :=
  (calls.find? (·.1 == name)).map (·.2.functionType)

/-- The function type of the first call with the name of `call`, which is `call` itself if no other
has the name. -/
def firstType (call : String × Signature) : FunctionType :=
  (firstType? calls call.1).getD call.2.functionType

/-- The number of distinct names. -/
def distinctNames : Nat := (calls.map Prod.fst).toFinset.card

/-- The number of distinct names that occur before the first call with the given name. -/
def distinctBefore (name : String) : Nat := distinctNames (calls.takeWhile (·.1 != name))

/-- What a call among `calls` answers: the id that its name got from the first call with that
name, if the function types agree. -/
def answerOf (call : String × Signature) : Except CallError FunctionId :=
  if firstType calls call = call.2.functionType then .ok ⟨distinctBefore calls call.1⟩
  else .error (.incompatibleDeclaration ⟨call.1, firstType calls call, call.2.functionType⟩)

variable {calls}

@[simp] theorem firstType?_append (more : List (String × Signature)) (name : String) :
    firstType? (calls ++ more) name = (firstType? calls name).or (firstType? more name) := by
  simp only [firstType?, List.find?_append, Option.map_or]

theorem firstType_of_eq_some {call : String × Signature} {type : FunctionType}
    (h : firstType? calls call.1 = some type) : firstType calls call = type := by
  rw [firstType, h, Option.getD_some]

@[simp] theorem firstType?_singleton (name : String) (s : Signature) (other : String) :
    firstType? [(name, s)] other = if name = other then some s.functionType else none := by
  by_cases h : name = other <;> simp [firstType?, h]

theorem firstType?_eq_none_iff (name : String) :
    firstType? calls name = none ↔ name ∉ calls.map Prod.fst := by
  simp only [firstType?, Option.map_eq_none_iff, List.find?_eq_none, beq_iff_eq, List.mem_map,
    not_exists, not_and]

theorem exists_firstType?_of_mem {name : String} (h : name ∈ calls.map Prod.fst) :
    ∃ type, firstType? calls name = some type :=
  Option.ne_none_iff_exists'.mp fun hn => (firstType?_eq_none_iff name).mp hn h

theorem mem_of_firstType?_eq_some {name : String} {type : FunctionType}
    (h : firstType? calls name = some type) : name ∈ calls.map Prod.fst := by
  by_contra hn
  rw [(firstType?_eq_none_iff name).mpr hn] at h
  cases h

theorem takeWhile_append_of_mem {name : String} (h : name ∈ calls.map Prod.fst)
    (more : List (String × Signature)) :
    (calls ++ more).takeWhile (·.1 != name) = calls.takeWhile (·.1 != name) := by
  induction calls with
  | nil => simp at h
  | cons call rest ih =>
    rw [List.cons_append, List.takeWhile_cons, List.takeWhile_cons]
    by_cases hc : call.1 = name
    · simp [hc]
    · rw [ih (by simpa [Ne.symm hc] using h)]

/-- Calls after the first one with a name do not change what stands before it. -/
theorem distinctBefore_append_of_mem {name : String} (h : name ∈ calls.map Prod.fst)
    (more : List (String × Signature)) :
    distinctBefore (calls ++ more) name = distinctBefore calls name := by
  rw [distinctBefore, takeWhile_append_of_mem h, distinctBefore]

theorem distinctBefore_append_of_not_mem {name : String} (h : name ∉ calls.map Prod.fst)
    (s : Signature) : distinctBefore (calls ++ [(name, s)]) name = distinctNames calls := by
  have hall : ∀ call ∈ calls, (call.1 != name) = true := fun call hc =>
    bne_iff_ne.mpr fun e => h (e ▸ List.mem_map_of_mem hc)
  rw [distinctBefore, List.takeWhile_append_of_pos hall]
  simp

theorem distinctNames_append_of_mem {name : String} (h : name ∈ calls.map Prod.fst)
    (s : Signature) : distinctNames (calls ++ [(name, s)]) = distinctNames calls := by
  have : (calls.map Prod.fst ++ [name]).toFinset = (calls.map Prod.fst).toFinset := by
    ext x
    simp only [List.mem_toFinset, List.mem_append, List.mem_singleton]
    exact ⟨fun hx => hx.elim id fun e => e ▸ h, Or.inl⟩
  rw [distinctNames, List.map_append, List.map_singleton, this, distinctNames]

theorem distinctNames_append_of_not_mem {name : String} (h : name ∉ calls.map Prod.fst)
    (s : Signature) : distinctNames (calls ++ [(name, s)]) = distinctNames calls + 1 := by
  have hd : Disjoint (calls.map Prod.fst).toFinset {name} := by
    rwa [Finset.disjoint_singleton_right, List.mem_toFinset]
  rw [distinctNames, List.map_append, List.toFinset_append, List.map_singleton,
    List.toFinset_cons, List.toFinset_nil, insert_empty_eq, Finset.card_union_of_disjoint hd,
    Finset.card_singleton, distinctNames]

/-- The answer of a call is not changed by calls that come later. -/
theorem answerOf_append_of_mem {call : String × Signature} (h : call.1 ∈ calls.map Prod.fst)
    (more : List (String × Signature)) : answerOf (calls ++ more) call = answerOf calls call := by
  obtain ⟨type, ht⟩ := exists_firstType?_of_mem h
  have hmore : firstType? (calls ++ more) call.1 = some type := by
    rw [firstType?_append, ht, Option.some_or]
  rw [answerOf, answerOf, firstType_of_eq_some ht, firstType_of_eq_some hmore,
    distinctBefore_append_of_mem h]

end Calls

/-! ## Calls and the module that they leave -/

@[simp] theorem importAll_cons (m : CodeModule) (call : String × Signature)
    (rest : List (String × Signature)) :
    m.importAll (call :: rest) =
      (m.importHelper call.1 call.2).2 :: (m.importHelper call.1 call.2).1.importAll rest := rfl

/-- The module after declaring helpers one after another. -/
def importedBy (m : CodeModule) (calls : List (String × Signature)) : CodeModule :=
  importing.final m calls

@[simp] theorem importedBy_cons (m : CodeModule) (call : String × Signature)
    (rest : List (String × Signature)) :
    m.importedBy (call :: rest) = (m.importHelper call.1 call.2).1.importedBy rest := rfl

/-- The module holds what the calls declared: every name that was called for, with the function
type and the id of its first call. -/
structure Records (m : CodeModule) (calls : List (String × Signature)) : Prop where
  declaration? (name : String) :
    m.declaration? name =
      (firstType? calls name).map fun type => ⟨name, type, ⟨distinctBefore calls name⟩⟩
  length : m.declarations.length = distinctNames calls

theorem records_empty : empty.Records [] := ⟨fun _ => rfl, rfl⟩

section Step

variable {m : CodeModule} {calls : List (String × Signature)}

theorem Records.mem_of_declared (h : m.Records calls) {name : String} {d : Declaration}
    (hd : m.declaration? name = some d) : name ∈ calls.map Prod.fst := by
  rw [h.declaration?] at hd
  obtain ⟨type, ht, -⟩ := Option.map_eq_some_iff.mp hd
  exact mem_of_firstType?_eq_some ht

theorem Records.not_mem_of_new (h : m.Records calls) {name : String}
    (hd : m.declaration? name = none) : name ∉ calls.map Prod.fst := by
  rwa [h.declaration?, Option.map_eq_none_iff, firstType?_eq_none_iff] at hd

/-- One more call with a name that was called for records nothing. -/
theorem Records.again (h : m.Records calls) {name : String} (hm : name ∈ calls.map Prod.fst)
    (s : Signature) : m.Records (calls ++ [(name, s)]) := by
  refine ⟨fun other => ?_, by rw [h.length, distinctNames_append_of_mem hm]⟩
  rw [h.declaration?, firstType?_append, firstType?_singleton]
  cases ht : firstType? calls other with
  | some type =>
    rw [Option.some_or, Option.map_some, Option.map_some,
      distinctBefore_append_of_mem (mem_of_firstType?_eq_some ht)]
  | none =>
    have hne : name ≠ other := fun e => (firstType?_eq_none_iff other).mp ht (e ▸ hm)
    rw [if_neg hne]
    rfl

/-- A call with a new name records it under the next id. -/
theorem Records.add (h : m.Records calls) {name : String} (hm : name ∉ calls.map Prod.fst)
    (s : Signature) : (m.add name s.functionType).Records (calls ++ [(name, s)]) := by
  refine ⟨fun other => ?_, ?_⟩
  · rw [declaration?_add, h.declaration?, firstType?_append, firstType?_singleton]
    cases ht : firstType? calls other with
    | some type =>
      simp only [Option.some_or, Option.map_some,
        distinctBefore_append_of_mem (mem_of_firstType?_eq_some ht)]
    | none =>
      by_cases hne : name = other
      · subst hne
        simp only [Option.map_none, Option.none_or, ↓reduceIte, Option.map_some, h.length,
          distinctBefore_append_of_not_mem hm]
      · simp only [Option.map_none, Option.none_or, if_neg hne]
  · rw [distinctNames_append_of_not_mem hm, ← h.length]
    simp

/-- What one call does to a module that records the calls before it. -/
theorem Records.importHelper (h : m.Records calls) (name : String) (s : Signature) :
    (m.importHelper name s).1.Records (calls ++ [(name, s)]) ∧
      (m.importHelper name s).2 = answerOf (calls ++ [(name, s)]) (name, s) := by
  cases hd : m.declaration? name with
  | some d =>
    have hm := h.mem_of_declared hd
    rw [CodeModule.importHelper, declare_of_declared hd]
    refine ⟨h.again hm s, ?_⟩
    have hr := h.declaration? name
    rw [hd] at hr
    obtain ⟨type, ht, rfl⟩ := Option.map_eq_some_iff.mp hr.symm
    rw [answerOf_append_of_mem hm, answerOf, firstType_of_eq_some ht]
  | none =>
    -- The call is the first with its name, so its own type is the type of the name.
    have hm := h.not_mem_of_new hd
    rw [CodeModule.importHelper, declare_of_new hd]
    refine ⟨h.add hm s, ?_⟩
    have ht : firstType? (calls ++ [(name, s)]) name = some s.functionType := by
      rw [firstType?_append, (firstType?_eq_none_iff name).mpr hm, Option.none_or,
        firstType?_singleton, if_pos rfl]
    rw [answerOf, firstType_of_eq_some ht, if_pos rfl, distinctBefore_append_of_not_mem hm,
      h.length]

/-- A run of calls keeps the record. -/
theorem Records.importedBy (h : m.Records calls) (rest : List (String × Signature)) :
    (m.importedBy rest).Records (calls ++ rest) := by
  induction rest generalizing m calls with
  | nil => rwa [List.append_nil]
  | cons call rest ih =>
    rw [List.append_cons]
    exact ih (h.importHelper call.1 call.2).1

/-- **The answers of a run of calls** are determined by the calls alone. -/
theorem Records.importAll_eq_map (h : m.Records calls) (rest : List (String × Signature)) :
    m.importAll rest = rest.map (answerOf (calls ++ rest)) := by
  induction rest generalizing m calls with
  | nil => rfl
  | cons call rest ih =>
    obtain ⟨hr, ha⟩ := h.importHelper call.1 call.2
    have hm : call.1 ∈ (calls ++ [call]).map Prod.fst := by simp
    rw [importAll_cons, ha, ih hr, List.append_cons calls call rest, List.map_cons,
      answerOf_append_of_mem hm]

theorem WellFormed.importedBy (h : m.WellFormed) (rest : List (String × Signature)) :
    (m.importedBy rest).WellFormed := by
  induction rest generalizing m with
  | nil => exact h
  | cons call rest ih => exact ih (h.declare call.1 call.2.functionType)

theorem declarations_prefix_importedBy (m : CodeModule) (rest : List (String × Signature)) :
    m.declarations <+: (m.importedBy rest).declarations := by
  induction rest generalizing m with
  | nil => exact List.prefix_rfl
  | cons call rest ih =>
    exact (declarations_prefix_declare m call.1 call.2.functionType).trans (ih _)

end Step

theorem importedBy_append (m : CodeModule) (calls more : List (String × Signature)) :
    m.importedBy (calls ++ more) = (m.importedBy calls).importedBy more :=
  importing.final_append m calls more

theorem importAll_append (m : CodeModule) (calls more : List (String × Signature)) :
    m.importAll (calls ++ more) = m.importAll calls ++ (m.importedBy calls).importAll more :=
  importing.answers_append m calls more

/-! ## From an empty module -/

section Fresh

variable (calls : List (String × Signature))

theorem records_importedBy : (empty.importedBy calls).Records calls :=
  records_empty.importedBy calls

theorem wellFormed_importedBy : (empty.importedBy calls).WellFormed :=
  wellFormed_empty.importedBy calls

/-- A declaration holds the function type of the first call with its name, and counts the names
before that call. -/
theorem firstType?_of_mem {d : Declaration} (hd : d ∈ (empty.importedBy calls).declarations) :
    firstType? calls d.name = some d.type ∧ distinctBefore calls d.name = d.id.index := by
  have hs := ((wellFormed_importedBy calls).declaration?_eq_some_iff d.name d).mpr ⟨hd, rfl⟩
  rw [(records_importedBy calls).declaration?] at hs
  obtain ⟨type, ht, he⟩ := Option.map_eq_some_iff.mp hs
  rw [← he]
  exact ⟨ht, rfl⟩

/-- The declared names are those that were called for, each once. -/
theorem bijOn_name :
    Set.BijOn Declaration.name {d | d ∈ (empty.importedBy calls).declarations}
      {name | name ∈ calls.map Prod.fst} := by
  refine ⟨fun d hd => mem_of_firstType?_eq_some (firstType?_of_mem calls hd).1,
    fun d hd e he hde =>
      List.inj_on_of_nodup_map (wellFormed_importedBy calls).names_nodup hd he hde,
    fun name hn => ?_⟩
  obtain ⟨type, ht⟩ := exists_firstType?_of_mem hn
  have hs := (records_importedBy calls).declaration? name
  rw [ht, Option.map_some, (wellFormed_importedBy calls).declaration?_eq_some_iff] at hs
  exact ⟨_, hs.1, hs.2⟩

end Fresh

/-! ## Signatures with one function type -/

/-- What a call declares: its name and the function type of its signature. -/
def declared (call : String × Signature) : String × FunctionType :=
  (call.1, call.2.functionType)

/-- Calls that declare the same are answered alike. -/
theorem importAll_congr {calls calls' : List (String × Signature)}
    (h : calls.map declared = calls'.map declared) (m : CodeModule) :
    m.importAll calls = m.importAll calls' := by
  induction calls generalizing calls' m with
  | nil =>
    obtain rfl : calls' = [] := List.map_eq_nil_iff.mp h.symm
    rfl
  | cons call rest ih =>
    obtain ⟨call', rest', rfl, hc, hr⟩ := List.map_eq_cons_iff.mp h.symm
    obtain ⟨hn, ht⟩ : call'.1 = call.1 ∧ call'.2.functionType = call.2.functionType :=
      Prod.mk.inj hc
    simp only [importAll_cons, importHelper, hn, ht, ih hr.symm]

/-- Exchanging one signature for another in a call changes no answer, in any list of calls. -/
def Interchangeable (s t : Signature) : Prop :=
  ∀ (before : List (String × Signature)) (name : String) (after : List (String × Signature)),
    empty.importAll (before ++ (name, s) :: after) = empty.importAll (before ++ (name, t) :: after)

/-- Signatures are interchangeable if their function types agree. A second call with the same
name tells any two others apart. -/
theorem interchangeable_iff (s t : Signature) :
    Interchangeable s t ↔ s.functionType = t.functionType := by
  constructor
  · intro h
    have := h [] "" [("", s)]
    revert this
    cases s <;> cases t <;> decide
  · intro h before name after
    refine importAll_congr ?_ _
    simp only [List.map_append, List.map_cons, declared, h]

/-! ## Any list of calls on an empty module -/

/-- **The first declaration of a name decides.** A call answers with an id if and only if its
function type is that of the first call with its name, and the id counts the distinct names before
that call; a refusal holds both types. The declared names correspond one to one to the ids below
their number, keep the function type of their first call whatever is called later, and two different
signatures can be exchanged only if they are the two that take a number and a 32-bit integer. -/
theorem first_declaration_decides (calls : List (String × Signature)) :
    empty.importAll calls = calls.map (fun call =>
      if firstType calls call = call.2.functionType then
        .ok ⟨distinctNames (calls.takeWhile (·.1 != call.1))⟩
      else .error (.incompatibleDeclaration
        ⟨call.1, firstType calls call, call.2.functionType⟩)) ∧
    Set.BijOn Declaration.name {d | d ∈ (empty.importedBy calls).declarations}
      {name | name ∈ calls.map Prod.fst} ∧
    Set.BijOn (·.id.index) {d | d ∈ (empty.importedBy calls).declarations}
      (Set.Iio (distinctNames calls)) ∧
    (∀ d ∈ (empty.importedBy calls).declarations,
      firstType? calls d.name = some d.type ∧ distinctBefore calls d.name = d.id.index ∧
      ∀ more, d ∈ (empty.importedBy (calls ++ more)).declarations) ∧
    ∀ s t, Interchangeable s t ↔
      s = t ∨ (s = .floatIntToFloat ∧ t = .floatTagToFloat) ∨
        (s = .floatTagToFloat ∧ t = .floatIntToFloat) := by
  refine ⟨records_empty.importAll_eq_map calls, bijOn_name calls, ?_, fun d hd => ?_,
    fun s t => (interchangeable_iff s t).trans (Signature.functionType_eq_iff s t)⟩
  · rw [← (records_importedBy calls).length]
    exact (wellFormed_importedBy calls).bijOn_index
  · obtain ⟨ht, hi⟩ := firstType?_of_mem calls hd
    refine ⟨ht, hi, fun more => ?_⟩
    rw [importedBy_append]
    exact (declarations_prefix_importedBy _ more).mem hd

/-- A new name, an alias of its function type, a conflict and a second name; the conflict takes no
id, and later calls move neither declaration. -/
theorem first_declaration_decides_mixed :
    empty.importAll [("pow", .floatIntToFloat), ("pow", .floatTagToFloat), ("pow", .floatToFloat),
        ("mod", .intIntToInt)] =
      [.ok ⟨0⟩, .ok ⟨0⟩, .error (.incompatibleDeclaration
        ⟨"pow", Signature.floatIntToFloat.functionType, Signature.floatToFloat.functionType⟩),
        .ok ⟨1⟩] ∧
    ⟨"mod", Signature.intIntToInt.functionType, ⟨1⟩⟩ ∈
      (empty.importedBy [("pow", .floatIntToFloat), ("pow", .floatTagToFloat),
        ("pow", .floatToFloat), ("mod", .intIntToInt)]).declarations ∧
    ∀ more, ⟨"mod", Signature.intIntToInt.functionType, ⟨1⟩⟩ ∈
      (empty.importedBy ([("pow", .floatIntToFloat), ("pow", .floatTagToFloat),
        ("pow", .floatToFloat), ("mod", .intIntToInt)] ++ more)).declarations := by
  obtain ⟨ha, -, -, hkept, -⟩ := first_declaration_decides [("pow", .floatIntToFloat),
    ("pow", .floatTagToFloat), ("pow", .floatToFloat), ("mod", .intIntToInt)]
  have hmem : ⟨"mod", Signature.intIntToInt.functionType, ⟨1⟩⟩ ∈
      (empty.importedBy [("pow", .floatIntToFloat), ("pow", .floatTagToFloat),
        ("pow", .floatToFloat), ("mod", .intIntToInt)]).declarations := by decide
  exact ⟨ha.trans (by decide), hmem, (hkept _ hmem).2.2⟩

end CodeModule

end TraceMath
