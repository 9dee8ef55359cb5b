import Mathlib.Algebra.Order.Field.Power
import Mathlib.Data.List.DropRight
import Mathlib.Data.Nat.Digits.Lemmas
import Mathlib.Data.Rat.Cast.Order
import TraceMath.Decimal.Integer
import TraceMath.Decimal.Literal
import TraceMath.Proofs.Binary64.Rounding

/-!
# Reading integers and plain decimals

A plain decimal is an optional minus sign and digits with at most one point, which stands between
digits. It has any number of digits, and so does its value.

* `Decimal.readInt64_intChars`: the text of an integer is read as the integer.
* `Decimal.exists_ofDecimal_eq`: a decimal is rounded to the magnitude of its cell, also where the
  exponent decides alone.
* `PlainDecimal.readBinary64_text`: a plain decimal is read in one way, and to the nearest number.
-/

namespace TraceMath

namespace Decimal

/-! ## Lists of digits -/

/-- The library counts from the last digit. -/
theorem ofDigits_eq (ds : List ℕ) : ofDigits ds = Nat.ofDigits 10 ds.reverse := by
  induction ds using List.reverseRecOn with
  | nil => rfl
  | append_singleton ds d ih =>
    rw [ofDigits_append_singleton, ih, List.reverse_concat, Nat.ofDigits_cons, Nat.add_comm]

theorem ofDigits_append (ds es : List ℕ) :
    ofDigits (ds ++ es) = ofDigits ds * 10 ^ es.length + ofDigits es := by
  rw [ofDigits_eq, ofDigits_eq, ofDigits_eq, List.reverse_append, Nat.ofDigits_append,
    List.length_reverse]
  ring

@[simp] theorem ofDigits_replicate_zero (n : ℕ) : ofDigits (List.replicate n 0) = 0 := by
  rw [ofDigits_eq, List.reverse_replicate, Nat.ofDigits_replicate_zero]

theorem ofDigits_lt {ds : List ℕ} (h : ∀ d ∈ ds, d < 10) : ofDigits ds < 10 ^ ds.length := by
  rw [ofDigits_eq, ← List.length_reverse]
  exact Nat.ofDigits_lt_base_pow_length (by decide) fun d hd => h d (List.mem_reverse.mp hd)

theorem digits_ne_nil (n : ℕ) : digits n ≠ [] := by
  rw [digits]
  split
  · exact List.cons_ne_nil _ _
  · exact List.append_ne_nil_of_right_ne_nil _ (List.cons_ne_nil _ _)

theorem lt_pow_digitCount (n : ℕ) : n < 10 ^ digitCount n := by
  have h := ofDigits_lt (digits_lt n)
  simpa using h

/-- A number has no digits in vain. -/
theorem pow_digitCount_le {n : ℕ} (hn : 0 < n) : 10 ^ digitCount n ≤ 10 * n := by
  induction n using Nat.strongRecOn with
  | ind n ih =>
    rw [digitCount]
    split
    · omega
    · have := ih (n / 10) (by omega) (by omega)
      rw [Nat.pow_succ]
      omega

/-! ## Rounding a decimal -/

/-- The value of a decimal without its sign. -/
def size (d : Decimal) : ℚ := d.coefficient * 10 ^ d.exponent

theorem size_lt (d : Decimal) : d.size < 10 ^ (digitCount d.coefficient + d.exponent) := by
  rw [size, zpow_add₀ (by norm_num), zpow_natCast]
  have : (d.coefficient : ℚ) < 10 ^ digitCount d.coefficient := by
    exact_mod_cast lt_pow_digitCount d.coefficient
  exact mul_lt_mul_of_pos_right this (by positivity)

theorem le_size_of_large {d : Decimal} (hcoefficient : d.coefficient ≠ 0)
    (h : 400 < d.exponent) : ((10 ^ 401 : ℕ) : ℚ) ≤ d.size := by
  have hone : (1 : ℚ) ≤ d.coefficient := by exact_mod_cast Nat.one_le_iff_ne_zero.mpr hcoefficient
  refine le_trans ?_ (le_mul_of_one_le_left (by positivity) hone)
  rw [Nat.cast_pow, Nat.cast_ofNat, ← zpow_natCast]
  exact zpow_le_zpow_right₀ (by norm_num) (by omega)

theorem size_lt_of_small {d : Decimal} (h : digitCount d.coefficient + d.exponent < -400) :
    d.size < ((10 ^ 401 : ℕ) : ℚ)⁻¹ := by
  refine d.size_lt.trans_le ?_
  rw [Nat.cast_pow, Nat.cast_ofNat, ← zpow_natCast, ← zpow_neg]
  exact zpow_le_zpow_right₀ (by norm_num) (by omega)

/-- A power of ten that is written as a quotient of whole ones. -/
theorem zpow_eq_div (e : ℤ) : (10 : ℚ) ^ e = 10 ^ e.toNat / 10 ^ (-e).toNat := by
  rw [← zpow_natCast, ← zpow_natCast, ← zpow_sub₀ (by norm_num)]
  congr 1
  omega

section Rounding

open Magnitude

variable {d : Decimal}

theorem cell_of_zero (h : d.coefficient = 0) : Cell 0 (d.size * unitsPerOne) := by
  rw [size, h, Nat.cast_zero, zero_mul, zero_mul]
  exact cell_zero_zero

/-- A large exponent is beyond the finite range. -/
theorem cell_of_large (hcoefficient : d.coefficient ≠ 0) (h : 400 < d.exponent) :
    Cell infinity (d.size * unitsPerOne) := by
  apply cell_infinity
  have hpow : (2 : ℕ) ^ 1024 ≤ 10 ^ 401 := by decide +kernel
  have hbound : ((2 ^ 1024 : ℕ) : ℚ) ≤ (10 ^ 401 : ℕ) := Nat.cast_le.mpr hpow
  rw [units_infinity, Nat.cast_mul]
  exact mul_le_mul_of_nonneg_right (hbound.trans (le_size_of_large hcoefficient h))
    unitsPerOne_pos.le

/-- A decimal with all digits far behind the point is less than half a unit. -/
theorem cell_of_small (h : digitCount d.coefficient + d.exponent < -400) :
    Cell 0 (d.size * unitsPerOne) := by
  apply cell_zero
  have hpow : 2 * unitsPerOne < 10 ^ 401 := by decide +kernel
  have hbound : (2 * unitsPerOne : ℚ) < (10 ^ 401 : ℕ) := by exact_mod_cast hpow
  have htwo : (0 : ℚ) < 2 * unitsPerOne := mul_pos two_pos unitsPerOne_pos
  calc 2 * (d.size * unitsPerOne)
      = d.size * (2 * unitsPerOne) := mul_left_comm _ _ _
    _ < ((10 ^ 401 : ℕ) : ℚ)⁻¹ * (2 * unitsPerOne) :=
      mul_lt_mul_of_pos_right (size_lt_of_small h) htwo
    _ < 1 := by rwa [inv_mul_lt_one₀ (htwo.trans hbound)]

/-- A decimal as a quotient of units. -/
theorem cell_of_ratio (d : Decimal) :
    Cell (ofRatio (d.coefficient * Nat.pow 10 d.exponent.toNat * unitsPerOne)
      (Nat.pow 10 (-d.exponent).toNat)) (d.size * unitsPerOne) := by
  have hden : 0 < 10 ^ (-d.exponent).toNat := Nat.pow_pos (by decide)
  rw [Nat.pow_eq, Nat.pow_eq]
  convert cell_ofRatio (K := ℚ) _ hden using 1
  rw [size, zpow_eq_div]
  push_cast
  ring

/-- **A decimal is rounded to the magnitude of its cell**, with its sign. The limits on the exponent
are far outside the finite range. -/
theorem exists_ofDecimal_eq (d : Decimal) :
    ∃ m, Binary64.ofDecimal d = .ofParts d.negative m ∧ Cell m (d.size * unitsPerOne) := by
  rw [Binary64.ofDecimal]
  split_ifs with hzero hlarge hsmall
  · exact ⟨0, rfl, cell_of_zero hzero⟩
  · exact ⟨infinity, rfl, cell_of_large hzero hlarge⟩
  · exact ⟨0, rfl, cell_of_small hsmall⟩
  · exact ⟨_, rfl, cell_of_ratio d⟩

theorem negative_ofDecimal (d : Decimal) : (Binary64.ofDecimal d).negative = d.negative := by
  obtain ⟨m, heq, hcell⟩ := exists_ofDecimal_eq d
  simp [heq, Nat.lt_of_le_of_lt hcell.le_infinity infinity_lt]

theorem cell_ofDecimal (d : Decimal) :
    Cell (Binary64.ofDecimal d).magnitude (d.size * unitsPerOne) := by
  obtain ⟨m, heq, hcell⟩ := exists_ofDecimal_eq d
  rwa [heq, Binary64.magnitude_ofParts _ (Nat.lt_of_le_of_lt hcell.le_infinity infinity_lt)]

end Rounding

/-! ## Texts of digits -/

theorem digitRun_map_append {ds : List ℕ} (h : ∀ d ∈ ds, d < 10) {rest : List Char}
    (hrest : digitRun rest = ([], rest)) : digitRun (ds.map digitChar ++ rest) = (ds, rest) := by
  induction ds with
  | nil => exact hrest
  | cons d ds ih =>
    have ih := ih fun d hd => h d (List.mem_cons_of_mem _ hd)
    simp [digitRun, h d List.mem_cons_self, ih]

theorem digitChar_ne {d : ℕ} (hd : d < 10) {c : Char} (hc : digit? c = none) : digitChar d ≠ c := by
  rintro rfl
  simp [hd] at hc

theorem digitChar_cons_ne {d : ℕ} (hd : d < 10) {c : Char} (hc : digit? c = none)
    (cs cs' : List Char) : digitChar d :: cs ≠ c :: cs' :=
  fun h => digitChar_ne hd hc (List.cons.inj h).1

theorem takeSign_digitChar_cons {d : ℕ} (hd : d < 10) (cs : List Char) :
    takeSign (digitChar d :: cs) = (false, digitChar d :: cs) := by
  rw [takeSign]
  · exact digitChar_cons_ne hd rfl cs
  · exact digitChar_cons_ne hd rfl cs

/-- A text that starts with a digit is none of the names of special values. -/
theorem lower_ne_of_digit {d : ℕ} (hd : d < 10) (cs : List Char) {name : String}
    (h : ∀ d < 10, name.toList.head? ≠ some (digitChar d).toLower) :
    String.ofList ((digitChar d :: cs).map Char.toLower) ≠ name := by
  rintro rfl
  exact h d hd (by simp)

/-! ## Integers -/

/-- The limit of the word is not met by a number below it, as no part of a number is larger. -/
theorem readMagnitude_map {limit : ℕ} {overflow : IntegerError} {ds : List ℕ} {n : ℕ}
    (hlt : ∀ d ∈ ds, d < 10) (hlimit : n * 10 ^ ds.length + ofDigits ds ≤ limit) :
    readMagnitude limit overflow n (ds.map digitChar) = .ok (n * 10 ^ ds.length + ofDigits ds) := by
  induction ds generalizing n with
  | nil => simp [readMagnitude, ofDigits]
  | cons d ds ih =>
    have hd := hlt d List.mem_cons_self
    have hcons : ofDigits (d :: ds) = d * 10 ^ ds.length + ofDigits ds := by
      simpa [ofDigits] using ofDigits_append [d] ds
    have hstep : n * 10 ^ (d :: ds).length + ofDigits (d :: ds) =
        (10 * n + d) * 10 ^ ds.length + ofDigits ds := by
      rw [hcons, List.length_cons, Nat.pow_succ]
      ring
    rw [hstep] at hlimit ⊢
    have hpow : 0 < 10 ^ ds.length := Nat.pow_pos (by decide)
    have hle : ¬limit < 10 * n + d := by nlinarith
    rw [List.map_cons, readMagnitude, digit?_digitChar hd]
    simp only [if_neg hle]
    exact ih (fun z hz => hlt z (List.mem_cons_of_mem _ hz)) hlimit

theorem readMagnitude_natChars {limit n : ℕ} (overflow : IntegerError) (h : n ≤ limit) :
    readMagnitude limit overflow 0 (natChars n) = .ok n := by
  have hvalue : 0 * 10 ^ (digits n).length + ofDigits (digits n) = n := by simp
  rw [natChars, readMagnitude_map (digits_lt n) (hvalue.trans_le h), hvalue]

theorem exists_natChars_eq_cons (n : ℕ) : ∃ (d : ℕ) (ds : List ℕ), d < 10 ∧ (∀ z ∈ ds, z < 10) ∧
    natChars n = digitChar d :: ds.map digitChar := by
  obtain ⟨d, ds, h⟩ := List.exists_cons_of_ne_nil (digits_ne_nil n)
  have hlt := digits_lt n
  rw [h] at hlt
  exact ⟨d, ds, hlt d List.mem_cons_self, fun z hz => hlt z (List.mem_cons_of_mem _ hz),
    by rw [natChars, h, List.map_cons]⟩

/-- A number within 64 bits is read as it is written. -/
theorem readInt64_intChars {n : ℤ} (hlow : -0x8000000000000000 ≤ n)
    (hhigh : n ≤ 0x7fffffffffffffff) : readInt64 (intChars n) = .ok n := by
  obtain ⟨d, ds, hd, -, hchars⟩ := exists_natChars_eq_cons n.natAbs
  rw [intChars]
  split
  · next hneg =>
    have hread := readMagnitude_natChars .tooSmall (show n.natAbs ≤ 0x8000000000000000 by omega)
    have hvalue : -(n.natAbs : ℤ) = n := by omega
    rw [hchars] at hread ⊢
    simp only [readInt64, hread]
    exact congrArg Except.ok hvalue
  · next hpos =>
    have hread := readMagnitude_natChars .tooLarge (show n.natAbs ≤ 0x7fffffffffffffff by omega)
    have hvalue : (n.natAbs : ℤ) = n := by omega
    have hplus := digitChar_cons_ne hd (c := '+') rfl (ds.map digitChar)
    have hminus := digitChar_cons_ne hd (c := '-') rfl (ds.map digitChar)
    rw [hchars] at hread ⊢
    -- Without a sign the last branch of the reader is taken: no other one matches a digit.
    rw [readInt64, hread]
    · exact congrArg Except.ok hvalue
    · exact List.cons_ne_nil _ _
    · exact hplus []
    · exact hminus []
    · exact hminus
    · exact hplus

end Decimal

/-! ## Plain decimals -/

/-- A number that is written with digits, and with a point between two of them or with none. -/
structure PlainDecimal where
  negative : Bool
  /-- The digits in front of the point. -/
  whole : List ℕ
  /-- The digits behind the point. Without any there is no point. -/
  fraction : List ℕ
  whole_ne_nil : whole ≠ []
  digits_lt : ∀ d ∈ whole ++ fraction, d < 10

namespace PlainDecimal

open Decimal

/-- The digits and the point. -/
def unsignedText (p : PlainDecimal) : List Char :=
  p.whole.map digitChar ++ if p.fraction = [] then [] else '.' :: p.fraction.map digitChar

def text (p : PlainDecimal) : List Char :=
  if p.negative then '-' :: p.unsignedText else p.unsignedText

/-- The value without the sign. -/
def size (p : PlainDecimal) : ℚ := ofDigits (p.whole ++ p.fraction) / 10 ^ p.fraction.length

/-- Digits without the zeros at both ends. -/
def strip (ds : List ℕ) : List ℕ := (ds.dropWhile (· = 0)).rdropWhile (· = 0)

/-- The number of significant digits: leading and trailing zeros do not count. -/
def significant (p : PlainDecimal) : ℕ := (strip (p.whole ++ p.fraction)).length

variable (p : PlainDecimal)

theorem whole_lt : ∀ d ∈ p.whole, d < 10 := fun d hd =>
  p.digits_lt d (List.mem_append_left _ hd)

theorem fraction_lt : ∀ d ∈ p.fraction, d < 10 := fun d hd =>
  p.digits_lt d (List.mem_append_right _ hd)

theorem exists_unsignedText_eq_cons :
    ∃ d cs, d < 10 ∧ p.unsignedText = digitChar d :: cs := by
  obtain ⟨d, ds, h⟩ := List.exists_cons_of_ne_nil p.whole_ne_nil
  exact ⟨d, _, p.whole_lt d (by simp [h]), by rw [unsignedText, h, List.map_cons, List.cons_append]⟩

/-- The decimal that is read. -/
def decimal : Decimal := ⟨p.negative, ofDigits (p.whole ++ p.fraction), -p.fraction.length⟩

theorem size_decimal : p.decimal.size = p.size := by
  rw [Decimal.size, size, decimal, zpow_neg, zpow_natCast, div_eq_mul_inv]

theorem takeSign_text : takeSign p.text = (p.negative, p.unsignedText) := by
  rw [text]
  cases p.negative with
  | true => rfl
  | false =>
    obtain ⟨d, cs, hd, h⟩ := p.exists_unsignedText_eq_cons
    rw [h]
    exact takeSign_digitChar_cons hd cs

theorem readUnsigned?_unsignedText (s : Bool) :
    readUnsigned? s p.unsignedText = some { p.decimal with negative := s } := by
  by_cases hf : p.fraction = []
  · have hrun : digitRun (p.whole.map digitChar ++ []) = (p.whole, []) :=
      digitRun_map_append p.whole_lt rfl
    simp only [readUnsigned?, unsignedText, hf, if_pos, hrun]
    simp [p.whole_ne_nil, readExponent?, decimal, hf]
  · have hrun : digitRun (p.whole.map digitChar ++ '.' :: p.fraction.map digitChar) =
        (p.whole, '.' :: p.fraction.map digitChar) := digitRun_map_append p.whole_lt rfl
    have hrun' : digitRun (p.fraction.map digitChar ++ []) = (p.fraction, []) :=
      digitRun_map_append p.fraction_lt rfl
    rw [List.append_nil] at hrun'
    simp only [readUnsigned?, unsignedText, hf, if_false, hrun, hrun']
    simp [p.whole_ne_nil, readExponent?, decimal]

theorem readBinary64_text : readBinary64 (String.ofList p.text) = .ok (.ofDecimal p.decimal) := by
  obtain ⟨d, cs, hd, h⟩ := p.exists_unsignedText_eq_cons
  have hne : p.text ≠ [] := by
    rw [text, h]
    split <;> exact List.cons_ne_nil _ _
  have hname {name : String} (hn : ∀ d < 10, name.toList.head? ≠ some (digitChar d).toLower) :
      String.ofList (p.unsignedText.map Char.toLower) ≠ name := h ▸ lower_ne_of_digit hd cs hn
  have hinf : String.ofList (p.unsignedText.map Char.toLower) ≠ "inf" := hname (by decide)
  have hinfinity : String.ofList (p.unsignedText.map Char.toLower) ≠ "infinity" :=
    hname (by decide)
  have hnan : String.ofList (p.unsignedText.map Char.toLower) ≠ "nan" := hname (by decide)
  simp only [readBinary64, String.toList_ofList, takeSign_text, hne, hinf, hinfinity, hnan, or_self,
    if_false, readUnsigned?_unsignedText]
  rfl

/-- The number that is read. -/
def number : Binary64 := .ofDecimal p.decimal

theorem negative_number : p.number.negative = p.negative := Decimal.negative_ofDecimal _

theorem cell_number : Magnitude.Cell p.number.magnitude (p.size * Magnitude.unitsPerOne) := by
  rw [← size_decimal]
  exact Decimal.cell_ofDecimal _

/-! ### Significant digits -/

theorem strip_replicate_append (n : ℕ) (ds : List ℕ) :
    strip (List.replicate n 0 ++ ds) = strip ds := by
  rw [strip, List.dropWhile_append_of_pos (by simp +contextual [List.mem_replicate]), strip]

theorem rdropWhile_append_replicate (n : ℕ) (ds : List ℕ) :
    (ds ++ List.replicate n 0).rdropWhile (· = 0) = ds.rdropWhile (· = 0) := by
  rw [List.rdropWhile, List.reverse_append, List.reverse_replicate,
    List.dropWhile_append_of_pos (by simp +contextual [List.mem_replicate]), List.rdropWhile]

theorem strip_append_replicate (n : ℕ) (ds : List ℕ) :
    strip (ds ++ List.replicate n 0) = strip ds := by
  rw [strip, strip, List.dropWhile_append]
  split
  · next h =>
    rw [List.isEmpty_iff.mp h, List.dropWhile_replicate]
    simp
  · exact rdropWhile_append_replicate n _

theorem length_strip_le (ds : List ℕ) : (strip ds).length ≤ ds.length :=
  ((List.rdropWhile_prefix _ _).length_le).trans (List.dropWhile_suffix _).length_le

theorem exists_eq_strip (ds : List ℕ) :
    ∃ a b, ds = List.replicate a 0 ++ (strip ds ++ List.replicate b 0) := by
  have hfront : ds.takeWhile (· = 0) = List.replicate (ds.takeWhile (· = 0)).length 0 :=
    List.eq_replicate_iff.mpr ⟨rfl, fun d hd => by simpa using List.mem_takeWhile_imp hd⟩
  have hback : (ds.dropWhile (· = 0)).rtakeWhile (· = 0) =
      List.replicate ((ds.dropWhile (· = 0)).rtakeWhile (· = 0)).length 0 :=
    List.eq_replicate_iff.mpr ⟨rfl, fun d hd => by simpa using List.mem_rtakeWhile_imp hd⟩
  refine ⟨(ds.takeWhile (· = 0)).length, ((ds.dropWhile (· = 0)).rtakeWhile (· = 0)).length, ?_⟩
  rw [← hfront, ← hback, strip, List.rdropWhile_append_rtakeWhile, List.takeWhile_append_dropWhile]

/-- A decimal is a number with the significant digits, times a power of ten. -/
theorem exists_size_eq : ∃ (c : ℕ) (j : ℤ), c < 10 ^ p.significant ∧ p.size = c * 10 ^ j := by
  obtain ⟨a, b, h⟩ := exists_eq_strip (p.whole ++ p.fraction)
  refine ⟨ofDigits (strip (p.whole ++ p.fraction)), b - p.fraction.length, ?_, ?_⟩
  · refine ofDigits_lt fun d hd => p.digits_lt d ?_
    rw [h]
    simp [hd]
  · rw [size, h, ofDigits_append, ofDigits_append, ofDigits_replicate_zero,
      ofDigits_replicate_zero, ← h, List.length_replicate, zpow_sub₀ (by norm_num), zpow_natCast,
      zpow_natCast]
    push_cast
    ring

end PlainDecimal

end TraceMath
