import Mathlib.Data.List.NodupEquivFin
import TraceMath.Proofs.CodeModule.Declarations

/-!
# Calls that leave no trace

Two lists of declaring calls are compared, of which one comes from the other by a change that no
answer may show.

* `importAll_of_sublist`: refused calls are left out.
* `importAll_of_aliases`: signatures are exchanged for others of the same function type.
* `importAll_repeat`: an accepted call is made again later.
* `answers_of_restriction`: only the calls with certain names are kept. The names that they declare
  are a sublist of all names that are declared (`names_importedBy_filter`), and a sublist is placed
  in its list by one order embedding. This embedding renumbers the ids.
-/

namespace TraceMath.CodeModule

/-- The call was answered with an id. -/
def accepted (entry : (String × Signature) × Except CallError FunctionId) : Bool := entry.2.isOk

/-! ## Refused calls -/

/-- Only a conflict is refused, and a conflict changes nothing. -/
theorem importHelper_of_refused {m : CodeModule} {name : String} {s : Signature}
    (h : (m.importHelper name s).2.isOk = false) : (m.importHelper name s).1 = m := by
  rw [importHelper] at h ⊢
  cases hd : m.declaration? name with
  | some d => rw [declare_of_declared hd]
  | none =>
    rw [declare_of_new hd] at h
    cases h

/-- **Refused calls can be left out.** `kept` is a transcript with some refused calls left out: the
calls that are kept are answered as before. -/
theorem importAll_of_sublist {m : CodeModule} {calls : List (String × Signature)}
    {kept : List ((String × Signature) × Except CallError FunctionId)}
    (hsub : kept.Sublist (importing.transcript m calls))
    (hall : kept.filter accepted = (importing.transcript m calls).filter accepted) :
    m.importAll (kept.map Prod.fst) = kept.map Prod.snd := by
  have ht := (Machine.transcript_of_sublist (fun _ _ => importHelper_of_refused) hsub hall).1
  rw [importAll, ← Machine.map_snd_transcript, ht]

/-! ## Aliased calls -/

/-- The calls have one name, and equal signatures or the two that take a number and a 32-bit
integer. -/
def Aliases (call call' : String × Signature) : Prop :=
  call.1 = call'.1 ∧
    (call.2 = call'.2 ∨ (call.2 = .floatIntToFloat ∧ call'.2 = .floatTagToFloat) ∨
      (call.2 = .floatTagToFloat ∧ call'.2 = .floatIntToFloat))

theorem Aliases.declared_eq {call call' : String × Signature} (h : Aliases call call') :
    declared call = declared call' :=
  Prod.ext h.1 ((Signature.functionType_eq_iff _ _).mpr h.2)

/-- **Aliased calls are answered alike.** -/
theorem importAll_of_aliases {calls calls' : List (String × Signature)}
    (h : List.Forall₂ Aliases calls calls') (m : CodeModule) :
    m.importAll calls = m.importAll calls' := by
  refine importAll_congr ?_ m
  induction h with
  | nil => rfl
  | cons hc _ ih => rw [List.map_cons, List.map_cons, hc.declared_eq, ih]

/-! ## Repeated calls -/

theorem Records.transcript_eq_map {m : CodeModule} {before : List (String × Signature)}
    (h : m.Records before) (calls : List (String × Signature)) :
    importing.transcript m calls =
      calls.map fun call => (call, answerOf (before ++ calls) call) := by
  rw [List.map_prod_left_eq_zip, ← h.importAll_eq_map]
  rfl

theorem mem_transcript_iff {m : CodeModule} {before calls : List (String × Signature)}
    (h : m.Records before) (call : String × Signature) (answer : Except CallError FunctionId) :
    (call, answer) ∈ importing.transcript m calls ↔
      call ∈ calls ∧ answerOf (before ++ calls) call = answer := by
  rw [h.transcript_eq_map, List.mem_map]
  constructor
  · rintro ⟨c, hc, he⟩
    obtain ⟨rfl, rfl⟩ := Prod.mk.inj he
    exact ⟨hc, rfl⟩
  · rintro ⟨hc, rfl⟩
    exact ⟨call, hc, rfl⟩

/-- A call that was accepted finds its declaration. -/
theorem Records.importHelper_of_accepted {m : CodeModule} {calls : List (String × Signature)}
    (h : m.Records calls) {call : String × Signature} (hm : call ∈ calls) {id : FunctionId}
    (ha : answerOf calls call = .ok id) : m.importHelper call.1 call.2 = (m, .ok id) := by
  obtain ⟨type, ht⟩ := exists_firstType?_of_mem (List.mem_map_of_mem hm)
  have hd := h.declaration? call.1
  rw [ht, Option.map_some] at hd
  rw [answerOf, firstType_of_eq_some ht] at ha
  split at ha
  · next htype => rw [CodeModule.importHelper, declare_of_declared hd, if_pos htype, ← ha]
  · cases ha

/-- **An accepted call can be repeated.** Anywhere behind it the call is answered with the same id,
and every other call as before. -/
theorem importAll_repeat {before : List (String × Signature)} {call : String × Signature}
    {id : FunctionId} (h : (call, .ok id) ∈ importing.transcript empty before)
    (after : List (String × Signature)) :
    empty.importAll (before ++ call :: after) =
      empty.importAll before ++ .ok id :: (empty.importedBy before).importAll after := by
  obtain ⟨hm, ha⟩ := (mem_transcript_iff records_empty call _).mp h
  have hagain := (records_importedBy before).importHelper_of_accepted hm ha
  rw [importAll_append, importAll_cons, hagain]

/-! ## The calls for certain names -/

theorem names_importHelper (m : CodeModule) (name : String) (s : Signature) :
    (m.importHelper name s).1.names = if name ∈ m.names then m.names else m.names ++ [name] := by
  rw [importHelper]
  split
  · next hm =>
    obtain ⟨d, hd⟩ : ∃ d, m.declaration? name = some d :=
      Option.ne_none_iff_exists'.mp fun hn => (declaration?_eq_none_iff m name).mp hn hm
    rw [declare_of_declared hd]
  · next hm => simp [declare_of_new ((declaration?_eq_none_iff m name).mpr hm)]

section Restriction

variable (keep : String → Bool)

/-- The names of one module are the kept ones of another. A call with a kept name is made in both
and preserves this, as does a call with any other name, which is made in the second alone. -/
theorem names_importedBy_filter_of_names {m m' : CodeModule} (h : m'.names = m.names.filter keep)
    (calls : List (String × Signature)) :
    (m'.importedBy (calls.filter fun call => keep call.1)).names =
      (m.importedBy calls).names.filter keep := by
  induction calls generalizing m m' with
  | nil => exact h
  | cons call rest ih =>
    by_cases hk : keep call.1 = true
    · rw [List.filter_cons_of_pos (by simpa using hk), importedBy_cons, importedBy_cons]
      refine ih ?_
      rw [names_importHelper, names_importHelper, h]
      by_cases hm : call.1 ∈ m.names
      · rw [if_pos hm, if_pos (List.mem_filter.mpr ⟨hm, hk⟩)]
      · rw [if_neg hm, if_neg fun hf => hm (List.mem_filter.mp hf).1, List.filter_append,
          List.filter_singleton, hk, cond_true]
    · rw [List.filter_cons_of_neg (by simpa using hk), importedBy_cons]
      refine ih ?_
      rw [names_importHelper, h]
      by_cases hm : call.1 ∈ m.names
      · rw [if_pos hm]
      · rw [if_neg hm, List.filter_append, List.filter_singleton, Bool.not_eq_true _ |>.mp hk,
          cond_false, List.append_nil]

theorem names_importedBy_filter (calls : List (String × Signature)) :
    (empty.importedBy (calls.filter fun call => keep call.1)).names =
      (empty.importedBy calls).names.filter keep :=
  names_importedBy_filter_of_names keep rfl calls

variable {keep}

theorem firstType?_filter {name : String} (hk : keep name = true)
    (calls : List (String × Signature)) :
    firstType? (calls.filter fun call => keep call.1) name = firstType? calls name := by
  rw [firstType?, firstType?, List.find?_filter]
  congr 2
  funext call
  by_cases hc : call.1 = name
  · simp [hc, hk]
  · simp [hc]

/-- A name stands among the declared ones at the place that its id tells. -/
theorem getElem?_names_distinctBefore {name : String} {calls : List (String × Signature)}
    (h : name ∈ calls.map Prod.fst) :
    (empty.importedBy calls).names[distinctBefore calls name]? = some name := by
  obtain ⟨d, hd, hn⟩ := (bijOn_name calls).surjOn h
  obtain rfl : d.name = name := hn
  obtain ⟨i, hi, rfl⟩ := List.getElem_of_mem hd
  have hid := List.getElem_of_eq (wellFormed_importedBy calls).ids (i := i) (by simpa using hi)
  rw [List.getElem_map, List.getElem_range] at hid
  rw [(firstType?_of_mem calls hd).2, hid, names, List.getElem?_map, List.getElem?_eq_getElem hi,
    Option.map_some]

/-- **Calls for certain names are answered as among all calls**, with the ids renumbered by one
order embedding. -/
theorem answers_of_restriction (keep : String → Bool) (calls : List (String × Signature)) :
    ∃ f : Nat ↪o Nat, ∀ call ∈ calls, keep call.1 = true →
      answerOf calls call =
        (answerOf (calls.filter fun call => keep call.1) call).map fun id => ⟨f id.index⟩ := by
  have hsub : (empty.importedBy (calls.filter fun call => keep call.1)).names.Sublist
      (empty.importedBy calls).names :=
    names_importedBy_filter keep calls ▸ List.filter_sublist
  -- An id is the place of its name, so the embedding of the places is that of the ids.
  obtain ⟨f, hf⟩ := List.sublist_iff_exists_orderEmbedding_getElem?_eq.mp hsub
  refine ⟨f, fun call hc hk => ?_⟩
  have hmem : call.1 ∈ calls.map Prod.fst := List.mem_map_of_mem hc
  have hkept : call.1 ∈ (calls.filter fun call => keep call.1).map Prod.fst :=
    List.mem_map_of_mem (List.mem_filter.mpr ⟨hc, hk⟩)
  have hplace : distinctBefore calls call.1 =
      f (distinctBefore (calls.filter fun call => keep call.1) call.1) := by
    have hall := getElem?_names_distinctBefore hmem
    have heq := (hf _).symm.trans (getElem?_names_distinctBefore hkept)
    refine (List.getElem?_inj ?_ (wellFormed_importedBy calls).names_nodup).mp
      (hall.trans heq.symm)
    exact (List.getElem?_eq_some_iff.mp hall).1
  have hfirst : firstType (calls.filter fun call => keep call.1) call = firstType calls call := by
    rw [firstType, firstType?_filter hk, firstType]
  rw [answerOf, answerOf, hfirst, hplace]
  split <;> rfl

end Restriction

/-! ## Four changes that no answer shows -/

/-- **Failed and aliased calls leave no trace.** Calls are made on an empty module. Leaving out
refused calls changes no other answer; exchanging the two signatures that take a number and a 32-bit
integer, in any calls, changes none; making an accepted call again later gives the same id and
changes no other answer. If only the calls for certain names are made, each is accepted or refused
as among all calls, and one order embedding takes the ids to those that all calls get. -/
theorem failed_and_aliased_calls_leave_no_trace (calls : List (String × Signature)) :
    (∀ kept : List ((String × Signature) × Except CallError FunctionId),
      kept.Sublist (importing.transcript empty calls) →
      kept.filter accepted = (importing.transcript empty calls).filter accepted →
      empty.importAll (kept.map Prod.fst) = kept.map Prod.snd) ∧
    (∀ calls', List.Forall₂ Aliases calls calls' → empty.importAll calls = empty.importAll calls') ∧
    (∀ before after call id, calls = before ++ after →
      (call, .ok id) ∈ importing.transcript empty before →
      ∃ later, empty.importAll calls = empty.importAll before ++ later ∧
        empty.importAll (before ++ call :: after) = empty.importAll before ++ .ok id :: later) ∧
    (∀ keep : String → Bool, ∃ f : Nat ↪o Nat,
      ((importing.transcript empty calls).filter fun entry => keep entry.1.1).map Prod.snd =
        (empty.importAll (calls.filter fun call => keep call.1)).map
          (Except.map fun id => ⟨f id.index⟩)) := by
  refine ⟨fun kept hsub hall => importAll_of_sublist hsub hall,
    fun calls' h => importAll_of_aliases h empty, ?_, fun keep => ?_⟩
  · rintro before after call id rfl h
    exact ⟨_, importAll_append empty before after, importAll_repeat h after⟩
  · obtain ⟨f, hf⟩ := answers_of_restriction keep calls
    refine ⟨f, ?_⟩
    rw [records_empty.transcript_eq_map, records_empty.importAll_eq_map, List.filter_map,
      List.map_map, List.map_map]
    refine List.map_congr_left fun call hc => ?_
    obtain ⟨hmem, hk⟩ := List.mem_filter.mp hc
    exact hf call hmem hk

/-- Calls for two names. The second call is in conflict with the first. -/
def callsInConflict : List (String × Signature) :=
  [("pow", .floatIntToFloat), ("pow", .floatToFloat), ("mod", .intIntToInt)]

/-- The conflict is left out, an alias is exchanged, and a power is declared again at the end. -/
theorem failed_and_aliased_calls_leave_no_trace_in_conflict :
    ([(("pow", .floatIntToFloat), .ok ⟨0⟩), (("mod", .intIntToInt), .ok ⟨1⟩)].Sublist
        (importing.transcript empty callsInConflict) ∧
      [(("pow", .floatIntToFloat), .ok ⟨0⟩), (("mod", .intIntToInt), .ok ⟨1⟩)].filter accepted =
        (importing.transcript empty callsInConflict).filter accepted ∧
      empty.importAll [("pow", .floatIntToFloat), ("mod", .intIntToInt)] = [.ok ⟨0⟩, .ok ⟨1⟩]) ∧
    (List.Forall₂ Aliases callsInConflict
        [("pow", .floatTagToFloat), ("pow", .floatToFloat), ("mod", .intIntToInt)] ∧
      empty.importAll callsInConflict = empty.importAll
        [("pow", .floatTagToFloat), ("pow", .floatToFloat), ("mod", .intIntToInt)]) ∧
    ((("pow", .floatIntToFloat), .ok ⟨0⟩) ∈ importing.transcript empty callsInConflict ∧
      ∃ later, empty.importAll (callsInConflict ++ [("pow", .floatIntToFloat)]) =
        empty.importAll callsInConflict ++ .ok ⟨0⟩ :: later) := by
  obtain ⟨hdrop, halias, hrepeat, -⟩ := failed_and_aliased_calls_leave_no_trace callsInConflict
  have hsub : [(("pow", .floatIntToFloat), .ok ⟨0⟩), (("mod", .intIntToInt), .ok ⟨1⟩)].Sublist
      (importing.transcript empty callsInConflict) := by decide
  have hall :
      [(("pow", .floatIntToFloat), .ok ⟨0⟩), (("mod", .intIntToInt), .ok ⟨1⟩)].filter accepted =
        (importing.transcript empty callsInConflict).filter accepted := by decide
  have haliased : List.Forall₂ Aliases callsInConflict
      [("pow", .floatTagToFloat), ("pow", .floatToFloat), ("mod", .intIntToInt)] :=
    .cons ⟨rfl, .inr (.inl ⟨rfl, rfl⟩)⟩ (.cons ⟨rfl, .inl rfl⟩ (.cons ⟨rfl, .inl rfl⟩ .nil))
  have hmem : (("pow", .floatIntToFloat), .ok ⟨0⟩) ∈
      importing.transcript empty callsInConflict := by decide
  obtain ⟨later, -, hagain⟩ :=
    hrepeat callsInConflict [] ("pow", .floatIntToFloat) ⟨0⟩ rfl hmem
  exact ⟨⟨hsub, hall, hdrop _ hsub hall⟩, ⟨haliased, halias _ haliased⟩, hmem, later, hagain⟩

end TraceMath.CodeModule
