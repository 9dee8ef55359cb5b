import TraceMath.Machine

/-!
# Runs of a machine

* `Machine.transcript` pairs the inputs of a run with their answers, and `Machine.final` is the
  state that the run leaves.
* `Machine.run_of_fixed`: in a state that no input leaves every input is answered alike.
* `Machine.transcript_of_sublist`: if an input that is refused leaves the state as it was, refused
  inputs can be left out. The other answers and the last state stay the same.
-/

namespace TraceMath.Machine

variable {σ ι α : Type} (M : Machine σ ι α)

/-- The state behind an input. -/
def next (s : σ) (i : ι) : σ := (M.step s i).1

/-- The answer to an input. -/
def answer (s : σ) (i : ι) : α := (M.step s i).2

/-- The inputs with their answers. -/
def transcript (s : σ) (inputs : List ι) : List (ι × α) := inputs.zip (M.answers s inputs)

/-- The state behind a list of inputs. -/
def final (s : σ) (inputs : List ι) : σ := inputs.foldl M.next s

@[simp] theorem answers_cons (s : σ) (i : ι) (rest : List ι) :
    M.answers s (i :: rest) = M.answer s i :: M.answers (M.next s i) rest := rfl

@[simp] theorem transcript_cons (s : σ) (i : ι) (rest : List ι) :
    M.transcript s (i :: rest) = (i, M.answer s i) :: M.transcript (M.next s i) rest := rfl

@[simp] theorem final_cons (s : σ) (i : ι) (rest : List ι) :
    M.final s (i :: rest) = M.final (M.next s i) rest := rfl

@[simp] theorem map_snd_transcript (s : σ) (inputs : List ι) :
    (M.transcript s inputs).map Prod.snd = M.answers s inputs := by
  induction inputs generalizing s with
  | nil => rfl
  | cons i rest ih => simp [ih]

theorem final_append (s : σ) (inputs more : List ι) :
    M.final s (inputs ++ more) = M.final (M.final s inputs) more :=
  List.foldl_append

theorem answers_append (s : σ) (inputs more : List ι) :
    M.answers s (inputs ++ more) = M.answers s inputs ++ M.answers (M.final s inputs) more := by
  induction inputs generalizing s with
  | nil => rfl
  | cons i rest ih => simp [ih]

/-- A state that no input leaves answers each input alike. -/
theorem run_of_fixed {s : σ} {a : α} {inputs : List ι} (h : ∀ i ∈ inputs, M.step s i = (s, a)) :
    M.answers s inputs = List.replicate inputs.length a ∧ M.final s inputs = s := by
  induction inputs with
  | nil => exact ⟨rfl, rfl⟩
  | cons i rest ih =>
    have hi := h i List.mem_cons_self
    have hnext : M.next s i = s := congrArg Prod.fst hi
    have hanswer : M.answer s i = a := congrArg Prod.snd hi
    obtain ⟨hrest, hfinal⟩ := ih fun j hj => h j (List.mem_cons_of_mem i hj)
    simp [hnext, hanswer, hrest, hfinal, List.replicate_succ]

variable {M} {accepted : ι × α → Bool}

/-- The head of a transcript can be missing from `kept` only if it was refused: `kept` has as many
accepted inputs as the whole. -/
theorem refused_of_dropped {entry : ι × α} {kept rest : List (ι × α)} (hsub : kept.Sublist rest)
    (hall : kept.filter accepted = (entry :: rest).filter accepted) : accepted entry = false := by
  cases hs : accepted entry with
  | false => rfl
  | true =>
    have hlen := (hsub.filter accepted).length_le
    rw [hall, List.filter_cons_of_pos hs, List.length_cons] at hlen
    omega

/-- **Refused inputs leave no trace.** `kept` is a transcript with some refused inputs left out. -/
theorem transcript_of_sublist
    (hrefused : ∀ s i, accepted (i, M.answer s i) = false → M.next s i = s) {s : σ}
    {inputs : List ι} {kept : List (ι × α)} (hsub : kept.Sublist (M.transcript s inputs))
    (hall : kept.filter accepted = (M.transcript s inputs).filter accepted) :
    M.transcript s (kept.map Prod.fst) = kept ∧
      M.final s (kept.map Prod.fst) = M.final s inputs := by
  induction inputs generalizing s kept with
  | nil =>
    obtain rfl : kept = [] := List.sublist_nil.mp hsub
    exact ⟨rfl, rfl⟩
  | cons i rest ih =>
    rw [transcript_cons] at hsub hall
    cases hsub with
    | cons _ hsub =>
      -- The input is left out, so it was refused and the rest starts in the same state.
      have hfail := refused_of_dropped hsub hall
      have hnext := hrefused s i hfail
      rw [List.filter_cons_of_neg (by simp [hfail]), hnext] at hall
      rw [hnext] at hsub
      obtain ⟨ht, hf⟩ := ih hsub hall
      rw [final_cons, hnext]
      exact ⟨ht, hf⟩
    | cons_cons _ hsub =>
      -- The input is kept. Accepted or not, the rests have the same accepted inputs.
      rename_i kept
      have hall' : kept.filter accepted = (M.transcript (M.next s i) rest).filter accepted := by
        by_cases hs : accepted (i, M.answer s i) = true
        · rw [List.filter_cons_of_pos hs, List.filter_cons_of_pos hs] at hall
          exact List.tail_eq_of_cons_eq hall
        · rwa [List.filter_cons_of_neg hs, List.filter_cons_of_neg hs] at hall
      obtain ⟨ht, hf⟩ := ih hsub hall'
      rw [List.map_cons, transcript_cons, ht]
      exact ⟨rfl, hf⟩

end TraceMath.Machine
