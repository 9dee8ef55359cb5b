import TraceMath.Proofs.Cli.Operands
import TraceMath.Proofs.Decimal.Shortest
import TraceMath.Proofs.Engine

/-!
# Numbers in and out

A power on the command line reads a number and writes one. What is written can be read again, and
the first power of a number that was written is written in the same way.

* `Cli.run_power`: the process from the texts of the operands to the text of the power.

So both texts are known for every plain decimal and every finite number.
-/

namespace TraceMath

theorem Power.positive_one {α : Type} (mul : α → α → α) (x : α) : positive mul x 1 one_pos = x := by
  rw [positive, dif_neg (by decide), dif_pos rfl]

/-- The first power is the number itself; no product is formed. -/
theorem Binary64.powInt_one (x : Binary64) : x.powInt 1 = x := by
  rw [powInt, Power.integer, dif_neg (by decide)]
  exact Power.positive_one (· * ·) x

namespace Cli

/-- The engine of the default mode has a power for every number, and logs nothing that is shown. -/
theorem run_power (b : Build) (p : PlainDecimal) (k : Int32) :
    run b ["powi", String.ofList p.text, String.ofList (int32Chars k)] =
      ⟨0, String.ofList ((p.number.powInt k).chars ++ ['\n']), "", []⟩ := by
  rw [run_of_readArguments b (readArguments_power p.isNumber_text (isNumber_int32Chars k)
      p.readBinary64_text (Decimal.readInt32_int32Chars k)),
    execute_of_carryOut (carryOut_of_value (fun _ => rfl) rfl
      (fun engine hs => hs.power p.number k) false),
    Invocation.log_of_default]

end Cli

/-- **Numbers are read and written exactly.** A plain decimal is read as the number nearest to its
value, ties to even, from half a unit above the largest finite number on as infinity, and with its
sign; the power is printed on a line of its own. The text of a finite number is a plain decimal, is
read as this number, and no plain decimal that is read as this number has fewer significant digits.
So the first power of the text of a finite number is the text. -/
theorem numbers_are_read_and_written_exactly (b : Build) :
    (∀ p : PlainDecimal, ∃ v : Binary64,
      Decimal.readBinary64 (String.ofList p.text) = .ok v ∧
      v.negative = p.negative ∧ Magnitude.IsNearest p.size v.magnitude ∧
      ∀ k : Int32, Cli.run b ["powi", String.ofList p.text, String.ofList (Cli.int32Chars k)] =
        ⟨0, String.ofList ((v.powInt k).chars ++ ['\n']), "", []⟩) ∧
    ∀ x : Binary64, x.IsFinite →
      (∃ p : PlainDecimal, x.chars = p.text ∧
        Decimal.readBinary64 (String.ofList x.chars) = .ok x ∧
        ∀ p' : PlainDecimal, Decimal.readBinary64 (String.ofList p'.text) = .ok x →
          p.significant ≤ p'.significant) ∧
      Cli.run b ["powi", String.ofList x.chars, "1"] =
        ⟨0, String.ofList (x.chars ++ ['\n']), "", []⟩ := by
  refine ⟨fun p => ⟨p.number, p.readBinary64_text, p.negative_number, p.cell_number.isNearest,
    Cli.run_power b p⟩, fun x hx => ?_⟩
  obtain ⟨p, hchars, hnumber, hleast⟩ := Binary64.exists_plain_chars hx
  refine ⟨⟨p, hchars, ?_, fun p' hp' => hleast p' ?_⟩, ?_⟩
  · rw [hchars, p.readBinary64_text]
    exact congrArg Except.ok hnumber
  · rw [p'.readBinary64_text] at hp'
    exact Except.ok.inj hp'
  · have hone : String.ofList (Cli.int32Chars 1) = "1" := by
      rw [Cli.int32Chars, Decimal.intChars, if_neg (by decide), Decimal.natChars, Decimal.digits]
      rfl
    have hrun := Cli.run_power b p 1
    rw [hone, hnumber, Binary64.powInt_one, ← hchars] at hrun
    exact hrun

/-- The number one, and the text `1.0` that is read as it. -/
theorem numbers_are_read_and_written_exactly_one :
    Binary64.one.IsFinite ∧ Decimal.readBinary64 "1.0" = .ok .one ∧
      (∃ p : PlainDecimal, Binary64.one.chars = p.text ∧ p.significant ≤ 1) ∧
      Cli.run .native ["powi", String.ofList Binary64.one.chars, "1"] =
        ⟨0, String.ofList (Binary64.one.chars ++ ['\n']), "", []⟩ := by
  have hone : Binary64.one.IsFinite := by decide
  let q : PlainDecimal := ⟨false, [1], [0], List.cons_ne_nil _ _, by decide⟩
  have hnumber : q.number = .one := by
    have hsize : q.size = 1 := by norm_num [PlainDecimal.size, Decimal.ofDigits, q]
    have hunits : Magnitude.units Binary64.one.magnitude = Magnitude.unitsPerOne := by
      decide +kernel
    have hcell := q.cell_number
    rw [hsize, one_mul, ← hunits] at hcell
    exact Binary64.ext_parts q.negative_number (hcell.unique (Magnitude.cell_units (by decide)))
  have hread : Decimal.readBinary64 (String.ofList q.text) = .ok .one :=
    q.readBinary64_text.trans (congrArg Except.ok hnumber)
  obtain ⟨⟨p, hchars, -, hleast⟩, hrun⟩ :=
    (numbers_are_read_and_written_exactly .native).2 .one hone
  exact ⟨hone, hread, ⟨p, hchars, hleast q hread⟩, hrun⟩

end TraceMath
