import TraceMath.Cli.Run
import TraceMath.Proofs.Decimal.Reading

/-!
# Numbers on a command line

A number that starts with a minus sign looks like an option. Where an operand may be negative it is
taken as one.

* `Cli.IsNumber`: the texts of numbers, whatever is read from them.
* `Cli.Reader.take_number`: such a text is an operand wherever a negative number may stand.
* `Decimal.readInt32_int32Chars`: the text of an integer is read as the integer.
-/

namespace TraceMath

namespace Decimal

/-! ## Integers -/

theorem readInt32_int32Chars (k : Int32) :
    readInt32 (String.ofList (Cli.int32Chars k)) = .ok k := by
  have hlow := k.le_toInt
  have hhigh := k.toInt_lt
  have hread : readInt64 (Cli.int32Chars k) = .ok k.toInt :=
    readInt64_intChars (by omega) (by omega)
  rw [readInt32, String.toList_ofList, hread]
  simp only []
  rw [if_pos ⟨by omega, by omega⟩, Int32.ofInt_toInt]

end Decimal

namespace Cli

open Decimal

/-! ## Shapes -/

/-- Digits and a point, from a digit on, behind a minus sign or without one. -/
inductive IsNumber : List Char → Prop
  | unsigned {d : ℕ} {cs : List Char} (hd : d < 10)
    (h : looksNumeric (digitChar d :: cs) = true) : IsNumber (digitChar d :: cs)
  | negative {d : ℕ} {cs : List Char} (hd : d < 10)
    (h : looksNumeric (digitChar d :: cs) = true) : IsNumber ('-' :: digitChar d :: cs)

theorem scan_digits {ds : List ℕ} (h : ∀ d ∈ ds, d < 10) (front point exponent : Bool)
    (rest : List Char) : looksNumeric.scan front point exponent (ds.map digitChar ++ rest) =
      looksNumeric.scan (front && ds.isEmpty) point exponent rest := by
  induction ds generalizing front with
  | nil => simp
  | cons d ds ih =>
    have hdigit : (digitChar d).isDigit = true :=
      (by decide : ∀ d < 10, (digitChar d).isDigit = true) d (h d List.mem_cons_self)
    rw [List.map_cons, List.cons_append, looksNumeric.scan, if_pos hdigit,
      ih fun z hz => h z (List.mem_cons_of_mem _ hz)]
    simp

/-- Digits look like a number, with a point between them or without one. -/
theorem looksNumeric_digits {d : ℕ} {whole fraction : List ℕ}
    (hlt : ∀ z ∈ (d :: whole) ++ fraction, z < 10) :
    looksNumeric ((d :: whole).map digitChar ++
      if fraction = [] then [] else '.' :: fraction.map digitChar) = true := by
  obtain ⟨hwhole, hfraction⟩ := List.forall_mem_append.mp hlt
  rw [looksNumeric, scan_digits hwhole]
  split
  · rfl
  · have hrun := scan_digits hfraction false true false []
    rw [List.append_nil] at hrun
    simp only [looksNumeric.scan]
    exact hrun

theorem isNumber_int32Chars (k : Int32) : IsNumber (int32Chars k) := by
  obtain ⟨d, ds, hd, hlt, hchars⟩ := exists_natChars_eq_cons k.toInt.natAbs
  have hall : ∀ z ∈ (d :: ds) ++ [], z < 10 := by simpa using ⟨hd, hlt⟩
  have hlooks : looksNumeric (digitChar d :: ds.map digitChar) = true := by
    simpa using looksNumeric_digits hall
  rw [int32Chars, intChars, hchars]
  split
  · exact .negative hd hlooks
  · exact .unsigned hd hlooks

end Cli

theorem PlainDecimal.isNumber_text (p : PlainDecimal) : Cli.IsNumber p.text := by
  obtain ⟨d, whole, hwhole⟩ := List.exists_cons_of_ne_nil p.whole_ne_nil
  have hlt := p.digits_lt
  have hlooks := Cli.looksNumeric_digits (hwhole ▸ hlt)
  have hd : d < 10 := hlt d (by simp [hwhole])
  rw [text, unsignedText, hwhole]
  split
  · exact .negative hd hlooks
  · exact .unsigned hd hlooks

namespace Cli

open Decimal

/-! ## Operands -/

theorem IsNumber.token {cs : List Char} (h : IsNumber cs) :
    Token.ofChars cs = .word ∨
      ∃ rest, Token.ofChars cs = .short rest ∧ looksNumeric rest = true := by
  cases h with
  | unsigned hd hlooks =>
    left
    rw [Token.ofChars]
    · exact digitChar_cons_ne hd rfl _ _
    · exact fun _ => digitChar_cons_ne hd rfl _ _
    · exact fun _ _ => digitChar_cons_ne hd rfl _ _
  | @negative d cs hd hlooks =>
    refine .inr ⟨_, ?_, hlooks⟩
    rw [Token.ofChars]
    · exact fun h _ => digitChar_ne hd rfl h
    · exact digitChar_ne hd rfl

namespace Reader

variable {α : Type} {r r' : Reader α} {text arg : String}

/-- **A number is an operand wherever a negative one may stand.** -/
theorem take_number {cs : List Char} (h : IsNumber cs)
    (hnegative : r.upcoming.allowsNegative = true) (unexpected : UsageError) :
    r.take (String.ofList cs) unexpected = r.takeOperand (String.ofList cs) unexpected := by
  rw [take, String.toList_ofList]
  split
  · rfl
  · obtain htoken | ⟨rest, htoken, hlooks⟩ := h.token
    · rw [htoken]
    · rw [htoken]
      simp only [hnegative, hlooks, Bool.and_self, if_true]

theorem settle_binary64 {name : String} {next : Binary64 → Form α} {x : Binary64}
    (hform : r.form = .binary64 name next) (hpending : r.pending = some text)
    (h : readBinary64 text = .ok x) :
    r.settle = .ok { r with form := next x, pending := none } := by
  simp only [settle, hform, hpending, h]

theorem settle_int32 {name : String} {next : Int32 → Form α} {n : Int32}
    (hform : r.form = .int32 name next) (hpending : r.pending = some text)
    (h : readInt32 text = .ok n) :
    r.settle = .ok { r with form := next n, pending := none } := by
  simp only [settle, hform, hpending, h]

/-- The next operand lets the text in front of it be read. -/
theorem takeOperand_of_settle (h : r.settle = .ok r') (hopen : r.upcoming.isDone = false)
    (unexpected : UsageError) :
    r.takeOperand arg unexpected = .ok { r' with pending := some arg } := by
  simp only [takeOperand, hopen, h]
  rfl

theorem finish_of_settle {a : α} (h : r.settle = .ok r') (hform : r'.form = .done a)
    (hflags : r'.checkConflict = .ok ()) : r.finish = .ok a := by
  simp only [finish, h, bind, Except.bind, hflags, hform]
  rfl

end Reader

theorem readCommand_cons_of_take {r r' : Reader Command} {arg : String} {rest : List String}
    (h : r.take arg (.unexpectedArgument arg) = .ok r') :
    readCommand r (arg :: rest) = readCommand r' rest := by
  rw [readCommand, h]
  rfl

theorem readCommand_nil_of_finish {r : Reader Command} {c : Command} (h : r.finish = .ok c) :
    readCommand r [] =
      .ok { jit := decide (.jit ∈ r.flags), command := c, verbosity := .ofFlags r.flags } := by
  rw [readCommand, h]
  rfl

/-- The name of a command ends the level of the program. -/
theorem readFrom_command {r : Reader Unit} {name : String} {e : Entry} {rest : List String}
    {i : Invocation} (hoptions : r.operandsOnly = false) (hname : name ≠ helpName)
    (hfind : Entry.find? name = some e)
    (hread : readCommand { page := .ofEntry e, form := e.form } rest = .ok i)
    (hflags : r.checkConflict = .ok ()) :
    readFrom r (name :: rest) = .ok { i with
      jit := i.jit || decide (.jit ∈ r.flags)
      verbosity := i.verbosity.within (.ofFlags r.flags) } := by
  rw [readFrom]
  simp only [hoptions, hname, Bool.false_and, Bool.not_false, Bool.true_and, decide_false,
    Bool.false_eq_true, if_false, hfind, hread, hflags]
  rfl

/-- The two operands of a power. -/
theorem readArguments_power {t k : List Char} {x : Binary64} {n : Int32} (ht : IsNumber t)
    (hk : IsNumber k) (hx : readBinary64 (String.ofList t) = .ok x)
    (hn : readInt32 (String.ofList k) = .ok n) :
    readArguments ["powi", String.ofList t, String.ofList k] =
      .ok { jit := false, command := .power x n } := by
  have hname : "powi" ≠ helpName := by decide
  obtain ⟨e, hfind, hform⟩ : ∃ e, Entry.find? "powi" = some e ∧
      e.form = .binary64 "X" fun x => .int32 "K" fun k => .done (.power x k) := ⟨_, rfl, rfl⟩
  have hread : readCommand { page := .ofEntry e, form := e.form }
      [String.ofList t, String.ofList k] = .ok { jit := false, command := .power x n } := by
    rw [hform, readCommand_cons_of_take
        ((Reader.take_number ht rfl _).trans (Reader.takeOperand_of_settle rfl rfl _)),
      readCommand_cons_of_take ((Reader.take_number hk rfl _).trans
        (Reader.takeOperand_of_settle (Reader.settle_binary64 rfl rfl hx) rfl _)),
      readCommand_nil_of_finish
        (Reader.finish_of_settle (Reader.settle_int32 rfl rfl hn) rfl rfl)]
    rfl
  rw [readArguments]
  exact readFrom_command rfl hname hfind hread rfl

end Cli

end TraceMath
