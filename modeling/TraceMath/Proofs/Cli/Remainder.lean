import TraceMath.Proofs.Cli.Operands
import TraceMath.Proofs.Engine
import TraceMath.Proofs.Remainder

/-!
# A remainder on the command line

The option for generated code may stand anywhere among numbers: the text in front of it is read when
the option is taken, the texts behind it are read as before, and a minus sign in front of a digit
never makes an option.

* `Form.Reads`: the values that a form reads from the texts of numbers, said without a reader.
* `Reader.readCommand_of_reads` and `Reader.readCommand_insertIdx_jit`: so does a reader, whatever
  it still has to read, also with the option at any place.
* `Decimal.ofList_intChars`: the text of an integer is its usual decimal one.

Together they lead from the words of the line to the text of the remainder.
-/

namespace TraceMath

/-! ## The text of an integer -/

namespace Decimal

theorem digitChar_eq {d : ℕ} (h : d < 10) : digitChar d = d.digitChar := by
  revert d
  decide

theorem natChars_eq_toDigits (n : ℕ) : natChars n = Nat.toDigits 10 n := by
  induction n using Nat.strongRecOn with
  | ind n ih =>
    rw [natChars, digits, Nat.toDigits_eq_if (by decide)]
    split
    · next h => rw [List.map_singleton, digitChar_eq h]
    · next h =>
      rw [List.map_append, List.map_singleton, digitChar_eq (Nat.mod_lt n (by decide)), ← natChars,
        ih (n / 10) (by omega)]

theorem ofList_intChars (n : ℤ) : String.ofList (intChars n) = toString n := by
  have hnat (m : ℕ) : String.ofList (natChars m) = m.repr := by
    rw [natChars_eq_toDigits, ← Nat.repr_eq_ofList_toDigits]
  rw [Int.toString_eq_repr, Int.repr_eq_if, intChars]
  by_cases h : n < 0
  · rw [if_pos h, if_neg (by omega), String.ofList_cons, hnat, show n.natAbs = (-n).toNat by omega]
    rfl
  · rw [if_neg h, if_pos (by omega), hnat, show n.natAbs = n.toNat by omega]

end Decimal

namespace Cli

open Decimal

theorem ofList_int32Chars (k : Int32) : String.ofList (int32Chars k) = toString k.toInt :=
  ofList_intChars k.toInt

/-! ## Numbers and an option -/

/-- The text is a value of the next operand, which may be negative; with it the form goes on. -/
inductive Form.Accepts {α : Type} : Form α → String → Form α → Prop
  | int32 {name : String} {next : Int32 → Form α} {text : String} {n : Int32}
      (hn : readInt32 text = .ok n) : Accepts (.int32 name next) text (next n)
  | binary64 {name : String} {next : Binary64 → Form α} {text : String} {x : Binary64}
      (hx : readBinary64 text = .ok x) : Accepts (.binary64 name next) text (next x)

/-- The form reads a value from the texts of numbers. Where a text is to follow, the form behind the
next operand takes a negative number, whatever value that operand has. -/
inductive Form.Reads {α : Type} : Form α → List String → α → Prop
  | done (a : α) : Reads (.done a) [] a
  | operand {f g : Form α} {cs : List Char} {texts : List String} {a : α} (hcs : IsNumber cs)
      (hf : f.Accepts (String.ofList cs) g) (hnext : texts ≠ [] → f.tail.allowsNegative = true)
      (h : g.Reads texts a) : Reads f (String.ofList cs :: texts) a

theorem Form.Accepts.allowsNegative {α : Type} {f g : Form α} {text : String}
    (h : f.Accepts text g) : f.allowsNegative = true := by
  cases h <;> rfl

theorem Form.Reads.allowsNegative {α : Type} {f : Form α} {texts : List String} {a : α}
    (h : f.Reads texts a) (hne : texts ≠ []) : f.allowsNegative = true := by
  cases h with
  | done => exact absurd rfl hne
  | operand _ hf => exact hf.allowsNegative

theorem Form.isDone_of_allowsNegative {α : Type} {f : Form α} (h : f.allowsNegative = true) :
    f.isDone = false := by
  cases f <;> first | rfl | cases h

namespace Reader

section

variable {α : Type} {r s : Reader α}

/-- Reading a text keeps the options. -/
theorem settle_options (h : r.settle = .ok s) :
    s.flags = r.flags ∧ s.operandsOnly = r.operandsOnly := by
  unfold settle invalid at h
  split at h <;> (try split at h) <;> cases h <;> exact ⟨rfl, rfl⟩

/-- Then nothing is left to be read, or the form has ended. -/
theorem settle_rest (h : r.settle = .ok s) : s.pending = none ∨ ∃ a, s.form = .done a := by
  unfold settle invalid at h
  split at h
  · next hp =>
    cases h
    exact .inl hp
  · next hf =>
    cases h
    exact .inr ⟨_, hf⟩
  all_goals
    split at h <;> cases h
    exact .inl rfl

/-- So a second reading changes nothing, whatever options are added. -/
theorem settle_again (h : r.settle = .ok s) (flags : List Flag) :
    settle { s with flags } = .ok { s with flags } := by
  rcases settle_rest h with hp | ⟨a, hf⟩
  · simp only [settle, hp]
  · simp only [settle, hf]
    split <;> first | rfl | contradiction

/-- The option for generated code lets the text in front of it be read. -/
theorem take_jit (hoptions : r.operandsOnly = false) (h : r.settle = .ok s) (hflags : s.flags = [])
    (unexpected : UsageError) :
    r.take "--jit" unexpected = .ok { s with flags := [.jit] } := by
  have htoken : Token.ofChars "--jit".toList = .long "jit" none := by
    with_unfolding_all rfl
  rw [take, hoptions, htoken]
  simp only [Bool.false_eq_true, if_false, takeLong, takeFlag, h, bind, Except.bind, hflags]
  rfl

end

/-! ## Reading numbers -/

section

variable {r s : Reader Command} {texts : List String} {c : Command}

/-- Reading the text of an operand. -/
theorem settle_pending {text : String} {f : Form Command} (hf : s.form.Accepts text f) :
    settle { s with pending := some text } = .ok { s with form := f, pending := none } := by
  obtain ⟨page, form, pending, flags, operandsOnly⟩ := s
  cases hf with
  | int32 hn => exact settle_int32 rfl rfl hn
  | binary64 hx => exact settle_binary64 rfl rfl hx

/-- One number: what is left to be read is its text. -/
theorem readCommand_number {cs : List Char} (hcs : IsNumber cs) (h : r.settle = .ok s)
    (hnegative : r.upcoming.allowsNegative = true) :
    readCommand r (String.ofList cs :: texts) =
      readCommand { s with pending := some (String.ofList cs) } texts :=
  readCommand_cons_of_take ((take_number hcs hnegative _).trans
    (takeOperand_of_settle h (Form.isDone_of_allowsNegative hnegative) _))

/-- **Numbers are read as the form says**, also by a reader that has a text to read first. -/
theorem readCommand_of_reads (hreads : s.form.Reads texts c) (h : r.settle = .ok s)
    (hnegative : texts ≠ [] → r.upcoming.allowsNegative = true)
    (hflags : s.checkConflict = .ok ()) :
    readCommand r texts =
      .ok { jit := decide (.jit ∈ r.flags), command := c, verbosity := .ofFlags r.flags } := by
  generalize hform : s.form = f at hreads
  induction hreads generalizing r s with
  | done c => exact readCommand_nil_of_finish (finish_of_settle h hform hflags)
  | operand hcs hf hnext _ ih =>
    subst hform
    rw [readCommand_number hcs h (hnegative (List.cons_ne_nil _ _)), ← (settle_options h).1]
    exact ih (settle_pending hf) hnext hflags rfl

/-- The option at the front of what is left of the line. -/
theorem readCommand_jit_cons (hreads : s.form.Reads texts c) (h : r.settle = .ok s)
    (hoptions : r.operandsOnly = false) (hflags : s.flags = []) :
    readCommand r ("--jit" :: texts) = .ok { jit := true, command := c } := by
  rw [readCommand_cons_of_take (take_jit hoptions h hflags _)]
  refine readCommand_of_reads (s := { s with flags := [.jit] }) hreads (settle_again h _)
    (fun hne => ?_) rfl
  have hnegative := hreads.allowsNegative hne
  rcases settle_rest h with hp | ⟨a, hf⟩
  · rw [upcoming, hp]
    exact hnegative
  · rw [hf] at hnegative
    cases hnegative

/-- **The option may stand anywhere among numbers.** -/
theorem readCommand_insertIdx_jit (hreads : s.form.Reads texts c) (h : r.settle = .ok s)
    (hnegative : texts ≠ [] → r.upcoming.allowsNegative = true)
    (hoptions : r.operandsOnly = false) (hflags : s.flags = []) {i : ℕ} (hi : i ≤ texts.length) :
    readCommand r (texts.insertIdx i "--jit") = .ok { jit := true, command := c } := by
  generalize hform : s.form = f at hreads
  induction hreads generalizing r s i with
  | done c =>
    obtain rfl : i = 0 := Nat.le_zero.mp hi
    exact readCommand_jit_cons (hform ▸ .done c) h hoptions hflags
  | operand hcs hf hnext hreads ih =>
    subst hform
    cases i with
    | zero => exact readCommand_jit_cons (.operand hcs hf hnext hreads) h hoptions hflags
    | succ i =>
      rw [List.insertIdx_succ_cons, readCommand_number hcs h (hnegative (List.cons_ne_nil _ _))]
      exact ih (settle_pending hf) hnext ((settle_options h).2.trans hoptions) hflags
        (Nat.le_of_succ_le_succ hi) rfl

end

end Reader

/-! ## The whole line -/

/-- A command by its name, and numbers. -/
theorem readArguments_of_reads {name : String} {e : Entry} {texts : List String} {c : Command}
    (hname : name ≠ helpName) (hfind : Entry.find? name = some e)
    (hreads : e.form.Reads texts c) :
    readArguments (name :: texts) = .ok { jit := false, command := c } := by
  have hread := Reader.readCommand_of_reads (r := { page := .ofEntry e, form := e.form }) hreads rfl
    hreads.allowsNegative rfl
  rw [readArguments]
  exact readFrom_command rfl hname hfind hread rfl

/-- The option in front of the name of the command. -/
theorem readFrom_jit (words : List String) :
    readFrom { page := .program, form := .done () } ("--jit" :: words) =
      readFrom { page := .program, form := .done (), flags := [.jit] } words := by
  have hname : "--jit" ≠ helpName := by decide
  have hfind : Entry.find? "--jit" = none := by decide
  have htake := Reader.take_jit (r := { page := .program, form := .done () }) rfl rfl rfl
    (.unknownCommand "--jit")
  rw [readFrom]
  simp only [hname, hfind, htake, Bool.false_and, Bool.not_false, Bool.true_and, decide_false,
    Bool.false_eq_true, if_false]
  rfl

theorem readArguments_insertIdx_jit {name : String} {e : Entry} {texts : List String} {c : Command}
    (hname : name ≠ helpName) (hfind : Entry.find? name = some e)
    (hreads : e.form.Reads texts c) {i : ℕ} (hi : i ≤ texts.length + 1) :
    readArguments ((name :: texts).insertIdx i "--jit") = .ok { jit := true, command := c } := by
  cases i with
  | zero =>
    have hread := Reader.readCommand_of_reads (r := { page := .ofEntry e, form := e.form }) hreads
      rfl hreads.allowsNegative rfl
    rw [List.insertIdx_zero, readArguments, readFrom_jit]
    exact readFrom_command rfl hname hfind hread rfl
  | succ i =>
    have hread := Reader.readCommand_insertIdx_jit (r := { page := .ofEntry e, form := e.form })
      hreads rfl hreads.allowsNegative rfl rfl (Nat.le_of_succ_le_succ hi)
    rw [List.insertIdx_succ_cons, readArguments]
    exact readFrom_command rfl hname hfind hread rfl

/-- The form of a remainder reads the texts of two words. -/
theorem reads_remainder (x y : Int32) :
    Form.Reads (.int32 "A" fun a => .int32 "B" fun b => .done (Command.remainder a b))
      [toString x.toInt, toString y.toInt] (Command.remainder x y) := by
  rw [← ofList_int32Chars, ← ofList_int32Chars]
  refine .operand (isNumber_int32Chars x) (.int32 (readInt32_int32Chars x)) (fun _ => rfl) ?_
  refine .operand (isNumber_int32Chars y) (.int32 (readInt32_int32Chars y)) ?_ (.done _)
  exact fun hne => absurd rfl hne

/-- The end of a process that is asked for the remainder of two integers. -/
def remainderEnd (x y : ℤ) : ProcessResult :=
  if y = 0 then ⟨1, "", unlines (report EvaluationError.zeroDivisor.diagnostic), []⟩
  else ⟨0, toString (x - y * ⌊(x / y : ℚ)⌋) ++ "\n", "", []⟩

/-- Both engines end it so. -/
theorem execute_remainder (b : Build) (jit : Bool) (x y : Int32) :
    execute b { jit, command := .remainder x y } = remainderEnd x.toInt y.toInt := by
  rw [remainderEnd]
  by_cases hy : y = 0
  · have hrefused : (Command.remainder x y).refusal? = some .zeroDivisor := if_pos hy
    rw [execute_of_carryOut (carryOut_of_refused b hrefused jit), Invocation.log_of_default, hy,
      Int32.toInt_zero, if_pos rfl]
  · rw [execute_of_carryOut (carryOut_of_value (fun _ => rfl) rfl
      (fun engine hs => (hs.remainder x y).trans (if_neg hy)) jit),
      Invocation.log_of_default, if_neg (FloorRem.toInt_ne_zero hy), ← toInt_floorRem x hy,
      ← ofList_int32Chars, String.ofList_append]

end Cli

/-- **A remainder on the command line**, from the decimal texts of any two words to that of the
remainder of their floored division. The option for generated code may stand at any place. A
negative operand is read as a number, and a divisor of zero is refused with its report. -/
theorem remainders_are_printed (b : Build) (x y : Int32) :
    (Cli.readArguments ["modi", toString x.toInt, toString y.toInt] =
        .ok { jit := false, command := .remainder x y } ∧
      Cli.run b ["modi", toString x.toInt, toString y.toInt] =
        Cli.remainderEnd x.toInt y.toInt) ∧
    ∀ i ≤ 3,
      Cli.readArguments (["modi", toString x.toInt, toString y.toInt].insertIdx i "--jit") =
        .ok { jit := true, command := .remainder x y } ∧
      Cli.run b (["modi", toString x.toInt, toString y.toInt].insertIdx i "--jit") =
        Cli.remainderEnd x.toInt y.toInt := by
  have hname : "modi" ≠ Cli.helpName := by decide
  obtain ⟨e, hfind, hform⟩ : ∃ e, Cli.Entry.find? "modi" = some e ∧
      e.form = .int32 "A" fun a => .int32 "B" fun b => .done (.remainder a b) := ⟨_, rfl, rfl⟩
  have hreads : e.form.Reads [toString x.toInt, toString y.toInt] (.remainder x y) :=
    hform ▸ Cli.reads_remainder x y
  have hplain := Cli.readArguments_of_reads hname hfind hreads
  refine ⟨⟨hplain, ?_⟩, fun i hi => ?_⟩
  · rw [Cli.run_of_readArguments b hplain, Cli.execute_remainder]
  · have hjit := Cli.readArguments_insertIdx_jit hname hfind hreads hi
    rw [Cli.run_of_readArguments b hjit, Cli.execute_remainder]
    exact ⟨hjit, rfl⟩

/-- The least word, with the option between the operands, and behind a divisor of zero. -/
theorem remainders_are_printed_least_word :
    Cli.run .native ["modi", "-2147483648", "--jit", "3"] = ⟨0, "1\n", "", []⟩ ∧
      Cli.run .native ["modi", "-2147483648", "0", "--jit"] =
        ⟨1, "", Cli.unlines (Cli.report EvaluationError.zeroDivisor.diagnostic), []⟩ := by
  have h := (remainders_are_printed .native (-2147483648) 3).2 2 (by decide)
  have h0 := (remainders_are_printed .native (-2147483648) 0).2 3 (by decide)
  have hthree : (3 : Int32) ≠ 0 := by decide
  have hend : Cli.remainderEnd (-2147483648 : Int32).toInt (3 : Int32).toInt =
      ⟨0, "1\n", "", []⟩ := by
    rw [Cli.remainderEnd, if_neg (by decide), ← toInt_floorRem _ hthree]
    decide
  exact ⟨h.2.trans hend, h0.2.trans (if_pos rfl)⟩

end TraceMath
