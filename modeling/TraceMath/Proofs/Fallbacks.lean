import TraceMath.Elementary.Library
import TraceMath.Proofs.Binary64.Order

/-!
# The replacements of `log2` and `exp2`

Without a usable `log2` or `exp2` the functions are made of `log` and `exp` and a constant factor.
The library is an arbitrary one; what is used of its `log` and `exp` are their special values and
their order, `IsNaturalLogarithm` and `IsExponential`. The products are the binary64 ones.

* `IsPositive.mul_le_mul`: a product with a positive constant keeps the order, although it may round
  different numbers to one. It keeps the sign bit, zeros, infinities and NaNs.
* `isFinite_mul_invLn2`: for `log2` the factor is on the side of the result, and larger than one. No
  logarithm is near the end of the range, so the product does not overflow.
* `isFinite_mul_ln2`: for `exp2` it is on the side of the argument, and less than one. Nothing
  overflows; a small argument may become zero, with its sign bit, where the power is one.
-/

namespace TraceMath

namespace Binary64

/-! ## Products with a positive number -/

/-- A finite number above zero. -/
structure IsPositive (c : Binary64) : Prop where
  negative : c.negative = false
  finite : c.IsFinite
  ne_zero : ¬c.IsZero

namespace IsPositive

variable {c x y : Binary64} (hc : IsPositive c)

include hc

theorem hasProduct (hx : ¬x.IsNaN) : HasProduct x c := by
  have hfinite := hc.finite
  have hzero := hc.ne_zero
  constructor <;> omega

theorem isNaN_mul_iff : (x * c).IsNaN ↔ x.IsNaN := by
  rw [Binary64.isNaN_mul_iff]
  exact ⟨fun h => by_contra fun hx => h (hc.hasProduct hx), fun hx h => h.left hx⟩

theorem negative_mul (hx : ¬x.IsNaN) : (x * c).negative = x.negative := by
  rw [Binary64.negative_mul (hc.hasProduct hx), hc.negative, Bool.bne_false]

theorem magnitude_mul (hx : ¬x.IsNaN) :
    (x * c).magnitude = Magnitude.product x.magnitude c.magnitude :=
  Binary64.magnitude_mul (hc.hasProduct hx)

theorem infinity_mul (s : Bool) : infinity s * c = infinity s := by
  have hnumber : ¬(infinity s).IsNaN := by simp
  apply ext_parts (hc.negative_mul hnumber)
  simp [hc.magnitude_mul hnumber]

theorem zero_mul (s : Bool) : zero s * c = zero s := by
  have hnumber : ¬(zero s).IsNaN := by simp
  apply ext_parts (hc.negative_mul hnumber)
  simp [hc.magnitude_mul hnumber, Magnitude.zero_product hc.finite]

/-- **A product with a positive constant keeps the order.** -/
theorem mul_le_mul (h : x ≤ y) : x * c ≤ y * c := by
  obtain ⟨hx, hy, -⟩ := le_def.mp h
  have hmono {m n : ℕ} (hmn : m ≤ n) (hn : n ≤ Magnitude.infinity) :
      Magnitude.product m c.magnitude ≤ Magnitude.product n c.magnitude :=
    Magnitude.product_le_product hmn le_rfl hn hc.finite.le
  have hzero := Magnitude.zero_product hc.finite
  have hx' := mt hc.isNaN_mul_iff.mp hx
  have hy' := mt hc.isNaN_mul_iff.mp hy
  rw [le_iff_parts hx hy] at h
  rw [le_iff_parts hx' hy', hc.negative_mul hx, hc.negative_mul hy, IsZero, IsZero,
    hc.magnitude_mul hx, hc.magnitude_mul hy]
  revert h
  -- With equal signs the magnitudes are compared, with different ones only zeros matter.
  cases x.negative <;> cases y.negative
  case false.false => exact fun h => hmono h (Nat.le_of_not_lt hy)
  case false.true =>
    rintro ⟨hx0, hy0⟩
    rw [hx0, hy0]
    exact ⟨hzero, hzero⟩
  case true.false => exact id
  case true.true => exact fun h => hmono h (Nat.le_of_not_lt hx)

end IsPositive

/-- The arguments of a logarithm. -/
theorem logarithm_cases (x : Binary64) :
    (x.IsNaN ∨ x.negative = true ∧ ¬x.IsZero) ∨ x.IsZero ∨ x = infinity false ∨
      x.negative = false ∧ x.IsFinite ∧ ¬x.IsZero := by
  have hclass := x.isNaN_or_isInfinite_or_isFinite
  rw [eq_infinity_iff]
  cases hs : x.negative <;> tauto

theorem isPositive_invLn2 : IsPositive invLn2 := by constructor <;> decide

theorem isPositive_ln2 : IsPositive ln2 := by constructor <;> decide

/-- The number 746. -/
def logarithmBound : Binary64 := ⟨0x4087500000000000⟩

/-- **Logarithms to base two are finite** where natural logarithms are: they are less than 746. -/
theorem isFinite_mul_invLn2 {x : Binary64} (hx : x.IsFinite) (h : |x.toRat| < 746) :
    (x * invLn2).IsFinite := by
  have hunits : Magnitude.units logarithmBound.magnitude = 746 * Magnitude.unitsPerOne := by
    decide +kernel
  have hbound : x.magnitude < logarithmBound.magnitude := by
    rw [← Magnitude.units_strictMono.lt_iff_lt, hunits]
    exact (abs_toRat_lt_iff x 746).mp h
  have hfinite : Magnitude.product logarithmBound.magnitude invLn2.magnitude <
      Magnitude.infinity := by decide +kernel
  rw [IsFinite, isPositive_invLn2.magnitude_mul (by omega)]
  refine lt_of_le_of_lt (Magnitude.product_le_product hbound.le le_rfl ?_ ?_) hfinite <;> decide

/-- The factor is less than one. -/
theorem isFinite_mul_ln2 {x : Binary64} (hx : x.IsFinite) : (x * ln2).IsFinite := by
  have hle : ln2.magnitude ≤ Magnitude.one := by decide
  rw [IsFinite, isPositive_ln2.magnitude_mul (by omega), Magnitude.product_comm]
  exact lt_of_le_of_lt (Magnitude.product_le_right hle hx.le) hx

end Binary64

open Binary64 (isPositive_invLn2 isPositive_ln2)

/-! ## The functions of the library -/

/-- The special values of `log`, its range and its order. -/
structure IsNaturalLogarithm (log : Binary64 → Binary64) : Prop where
  zero : ∀ {x : Binary64}, x.IsZero → log x = .infinity true
  one : log .one = .zero false
  infinity : log (.infinity false) = .infinity false
  nan : ∀ {x : Binary64}, x.IsNaN → (log x).IsNaN
  negative : ∀ {x : Binary64}, x.negative = true → ¬x.IsZero → (log x).IsNaN
  finite : ∀ {x : Binary64}, x.negative = false → x.IsFinite → ¬x.IsZero →
    (log x).IsFinite ∧ |(log x).toRat| < 746
  monotone : ∀ {x y : Binary64}, x.negative = false → y.negative = false → x ≤ y → log x ≤ log y

/-- The special values of `exp` and its order. Only numbers are comparable, so `exp` of a number is
one. -/
structure IsExponential (exp : Binary64 → Binary64) : Prop where
  zero : ∀ {x : Binary64}, x.IsZero → exp x = .one
  negativeInfinity : exp (.infinity true) = .zero false
  infinity : exp (.infinity false) = .infinity false
  nan : ∀ {x : Binary64}, x.IsNaN → (exp x).IsNaN
  monotone : ∀ {x y : Binary64}, x ≤ y → exp x ≤ exp y

namespace MathLibrary

variable {lib : MathLibrary} {x y : Binary64}

/-! ## `log2` -/

section Log2

variable (h : IsNaturalLogarithm lib.log)

include h

theorem log2ByLog_of_isZero (hx : x.IsZero) : lib.log2ByLog x = .infinity true := by
  rw [log2ByLog, h.zero hx, isPositive_invLn2.infinity_mul]

theorem log2ByLog_infinity : lib.log2ByLog (.infinity false) = .infinity false := by
  rw [log2ByLog, h.infinity, isPositive_invLn2.infinity_mul]

theorem log2ByLog_one : lib.log2ByLog .one = .zero false := by
  rw [log2ByLog, h.one, isPositive_invLn2.zero_mul]

theorem isNaN_log2ByLog_of_isNaN (hx : x.IsNaN) : (lib.log2ByLog x).IsNaN :=
  isPositive_invLn2.isNaN_mul_iff.mpr (h.nan hx)

theorem isNaN_log2ByLog_of_negative (hs : x.negative = true) (hx : ¬x.IsZero) :
    (lib.log2ByLog x).IsNaN :=
  isPositive_invLn2.isNaN_mul_iff.mpr (h.negative hs hx)

theorem isFinite_log2ByLog (hs : x.negative = false) (hx : x.IsFinite) (h0 : ¬x.IsZero) :
    (lib.log2ByLog x).IsFinite := by
  obtain ⟨hfinite, hbound⟩ := h.finite hs hx h0
  exact Binary64.isFinite_mul_invLn2 hfinite hbound

/-- **The class of a logarithm to base two** is that of a logarithm. -/
theorem log2ByLog_classes (x : Binary64) :
    ((lib.log2ByLog x).IsNaN ↔ x.IsNaN ∨ x.negative = true ∧ ¬x.IsZero) ∧
      (lib.log2ByLog x = .infinity true ↔ x.IsZero) ∧
      (lib.log2ByLog x = .infinity false ↔ x = .infinity false) ∧
      ((lib.log2ByLog x).IsFinite ↔ x.negative = false ∧ x.IsFinite ∧ ¬x.IsZero) := by
  have hpos : 0 < Magnitude.infinity := by decide
  simp only [Binary64.eq_infinity_iff]
  rcases x.logarithm_cases with hx | hx | hx | hx
  · have hnan : (lib.log2ByLog x).IsNaN :=
      hx.elim (isNaN_log2ByLog_of_isNaN h) fun hx => isNaN_log2ByLog_of_negative h hx.1 hx.2
    grind
  · have hinf := Binary64.eq_infinity_iff.mp (log2ByLog_of_isZero h hx)
    grind
  · have hinf := Binary64.eq_infinity_iff.mp (log2ByLog_infinity h)
    have hclass := Binary64.eq_infinity_iff.mp hx
    rw [← hx] at hinf
    grind
  · have hfinite := isFinite_log2ByLog h hx.1 hx.2.1 hx.2.2
    grind

theorem log2ByLog_le_log2ByLog (hx : x.negative = false) (hy : y.negative = false) (hxy : x ≤ y) :
    lib.log2ByLog x ≤ lib.log2ByLog y :=
  isPositive_invLn2.mul_le_mul (h.monotone hx hy hxy)

end Log2

/-! ## `exp2` -/

section Exp2

variable (h : IsExponential lib.exp)

include h

theorem exp2ByExp_of_isZero (hx : x.IsZero) : lib.exp2ByExp x = .one := by
  have hzero : (x * ln2).IsZero := by
    rw [Binary64.IsZero, isPositive_ln2.magnitude_mul (by omega), hx,
      Magnitude.zero_product isPositive_ln2.finite]
  rw [exp2ByExp, h.zero hzero]

theorem exp2ByExp_negativeInfinity : lib.exp2ByExp (.infinity true) = .zero false := by
  rw [exp2ByExp, isPositive_ln2.infinity_mul, h.negativeInfinity]

theorem exp2ByExp_infinity : lib.exp2ByExp (.infinity false) = .infinity false := by
  rw [exp2ByExp, isPositive_ln2.infinity_mul, h.infinity]

theorem exp2ByExp_le_exp2ByExp (hxy : x ≤ y) : lib.exp2ByExp x ≤ lib.exp2ByExp y :=
  h.monotone (isPositive_ln2.mul_le_mul hxy)

theorem isNaN_exp2ByExp_iff : (lib.exp2ByExp x).IsNaN ↔ x.IsNaN := by
  constructor
  · intro hnan
    by_contra hx
    -- A number is comparable to itself, and so is its power.
    have hself : x ≤ x := Binary64.le_def.mpr ⟨hx, hx, le_rfl⟩
    exact (exp2ByExp_le_exp2ByExp h hself).1 hnan
  · intro hx
    exact h.nan (isPositive_ln2.isNaN_mul_iff.mpr hx)

end Exp2

end MathLibrary

/-- **The replacements of `log2` and `exp2`** over any library whose `log` and `exp` have their
special values and their order. The logarithm to base two has the class of the logarithm, and its
order on the numbers without a sign bit. The power of two scales its argument without an overflow
and without a change of the sign bit, and has the special values and the order of the power. -/
theorem fallbacks_keep_special_values_and_order (lib : MathLibrary) :
    (IsNaturalLogarithm lib.log →
      (∀ x : Binary64,
        ((lib.log2ByLog x).IsNaN ↔ x.IsNaN ∨ x.negative = true ∧ ¬x.IsZero) ∧
        (lib.log2ByLog x = .infinity true ↔ x.IsZero) ∧
        (lib.log2ByLog x = .infinity false ↔ x = .infinity false) ∧
        ((lib.log2ByLog x).IsFinite ↔ x.negative = false ∧ x.IsFinite ∧ ¬x.IsZero)) ∧
      lib.log2ByLog .one = .zero false ∧
      ∀ x y : Binary64, x.negative = false → y.negative = false → x ≤ y →
        lib.log2ByLog x ≤ lib.log2ByLog y) ∧
    (IsExponential lib.exp →
      (∀ x : Binary64,
        ((lib.exp2ByExp x).IsNaN ↔ x.IsNaN) ∧
        (x.IsFinite → (x * ln2).IsFinite) ∧
        (¬x.IsNaN → (x * ln2).negative = x.negative) ∧
        (x.IsZero → lib.exp2ByExp x = .one)) ∧
      lib.exp2ByExp (.infinity true) = .zero false ∧
      lib.exp2ByExp (.infinity false) = .infinity false ∧
      ∀ x y : Binary64, x ≤ y → lib.exp2ByExp x ≤ lib.exp2ByExp y) ∧
    ∀ c : Capabilities,
      (c.nativeLog2 = false → Build.log2 ⟨c, lib⟩ = lib.log2ByLog) ∧
      (c.nativeExp2 = false → Build.exp2 ⟨c, lib⟩ = lib.exp2ByExp) := by
  refine ⟨fun h => ⟨?_, ?_, ?_⟩, fun h => ⟨fun x => ⟨?_, ?_, ?_, ?_⟩, ?_, ?_, ?_⟩,
    fun c => ⟨?_, ?_⟩⟩
  · exact MathLibrary.log2ByLog_classes h
  · exact MathLibrary.log2ByLog_one h
  · exact fun x y hx hy hxy => MathLibrary.log2ByLog_le_log2ByLog h hx hy hxy
  · exact MathLibrary.isNaN_exp2ByExp_iff h
  · exact Binary64.isFinite_mul_ln2
  · exact isPositive_ln2.negative_mul
  · exact MathLibrary.exp2ByExp_of_isZero h
  · exact MathLibrary.exp2ByExp_negativeInfinity h
  · exact MathLibrary.exp2ByExp_infinity h
  · exact fun x y hxy => MathLibrary.exp2ByExp_le_exp2ByExp h hxy
  · intro hc
    funext x
    simp [Build.log2, hc]
  · intro hc
    funext x
    simp [Build.exp2, hc]

/-! ## A library of steps -/

/-- The number two. -/
def Binary64.two : Binary64 := ⟨0x4000000000000000⟩

/-- The logarithm of one below two, and that of two from there on. -/
def stepLog (x : Binary64) : Binary64 :=
  if x.IsNaN ∨ x.signedUnits < 0 then .nan
  else if x.signedUnits = 0 then .infinity true
  else if x.signedUnits < Binary64.two.signedUnits then .zero false
  else if x.signedUnits < (Binary64.infinity false).signedUnits then ln2
  else .infinity false

/-- The powers of minus infinity, of zero and of the logarithm of two, each up to the next. -/
def stepExp (x : Binary64) : Binary64 :=
  if x.IsNaN then .nan
  else if x.signedUnits < 0 then .zero false
  else if x.signedUnits < ln2.signedUnits then .one
  else if x.signedUnits < (Binary64.infinity false).signedUnits then .two
  else .infinity false

theorem isNaturalLogarithm_stepLog : IsNaturalLogarithm stepLog where
  zero {x} hx := by
    have hunits := x.signedUnits_eq_zero_iff.mpr hx
    rw [stepLog, if_neg (by omega), if_pos hunits]
  one := by decide +kernel
  infinity := by decide +kernel
  nan {x} hx := by
    rw [stepLog, if_pos (.inl hx)]
    exact Binary64.isNaN_nan
  negative {x} hs hx := by
    have hpos := Magnitude.units_pos hx
    have hunits : x.signedUnits < 0 := by simp [Binary64.signedUnits, Binary64.units, hs, hpos]
    rw [stepLog, if_pos (.inr hunits)]
    exact Binary64.isNaN_nan
  finite {x} hs hx h0 := by
    have hpos := Magnitude.units_pos h0
    have hlt := Magnitude.units_strictMono hx
    have hunits : x.signedUnits = x.units := by simp [Binary64.signedUnits, hs]
    have hinf : (Binary64.infinity false).signedUnits = Magnitude.units Magnitude.infinity := by
      decide +kernel
    rw [Binary64.units] at hunits
    rw [stepLog, if_neg (by omega), if_neg (by omega)]
    split
    · exact ⟨by decide, (Binary64.abs_toRat_lt_iff _ 746).mpr (by decide +kernel)⟩
    · rw [if_pos (by omega)]
      exact ⟨by decide, (Binary64.abs_toRat_lt_iff _ 746).mpr (by decide +kernel)⟩
  monotone {x y} hx hy hxy := by
    obtain ⟨hxn, hyn, hle⟩ := Binary64.le_def.mp hxy
    have hpos : 0 ≤ x.signedUnits := by simp [Binary64.signedUnits, hx]
    unfold stepLog
    -- The steps are in the order of the units; what is left compares two of their values.
    split_ifs <;> first | omega | decide +kernel

theorem isExponential_stepExp : IsExponential stepExp where
  zero {x} hx := by
    have hunits := x.signedUnits_eq_zero_iff.mpr hx
    rw [stepExp, hunits, if_neg (by omega), if_neg (by omega), if_pos (by decide +kernel)]
  negativeInfinity := by decide +kernel
  infinity := by decide +kernel
  nan {x} hx := by
    rw [stepExp, if_pos hx]
    exact Binary64.isNaN_nan
  monotone {x y} hxy := by
    obtain ⟨hxn, hyn, hle⟩ := Binary64.le_def.mp hxy
    unfold stepExp
    split_ifs <;> first | omega | decide +kernel

/-- The steps have the values of the logarithm at one and two, and of the power at the scaled zero
and one. -/
theorem fallbacks_keep_special_values_and_order_one_two :
    let lib : MathLibrary := { MathLibrary.correctlyRounded with log := stepLog, exp := stepExp }
    (IsNaturalLogarithm lib.log ∧ lib.log2ByLog .two = .one ∧
      ((lib.log2ByLog .two).IsFinite ↔
        Binary64.two.negative = false ∧ Binary64.two.IsFinite ∧ ¬Binary64.two.IsZero) ∧
      lib.log2ByLog .one = .zero false ∧
      Binary64.one.negative = false ∧ Binary64.two.negative = false ∧ Binary64.one ≤ .two ∧
      lib.log2ByLog .one ≤ lib.log2ByLog .two) ∧
    (IsExponential lib.exp ∧ lib.exp2ByExp .one = .two ∧
      Binary64.one.IsFinite ∧ (Binary64.one * ln2).IsFinite ∧
      ¬(Binary64.zero true).IsNaN ∧ (Binary64.zero true * ln2).negative = true ∧
      (Binary64.zero true).IsZero ∧ lib.exp2ByExp (.zero true) = .one ∧
      Binary64.zero true ≤ .one ∧ lib.exp2ByExp (.zero true) ≤ lib.exp2ByExp .one) ∧
    (Build.fallback.capabilities.nativeLog2 = false ∧
      Build.log2 ⟨Build.fallback.capabilities, lib⟩ = lib.log2ByLog) := by
  intro lib
  obtain ⟨hlog, hexp, hbuild⟩ := fallbacks_keep_special_values_and_order lib
  obtain ⟨hclasses, hone, hlogMono⟩ := hlog isNaturalLogarithm_stepLog
  obtain ⟨hpowers, -, -, hexpMono⟩ := hexp isExponential_stepExp
  obtain ⟨-, -, -, hfinite⟩ := hclasses .two
  obtain ⟨-, hscaled, -, -⟩ := hpowers .one
  obtain ⟨-, -, hsign, hzero⟩ := hpowers (.zero true)
  have hnumber : ¬(Binary64.zero true).IsNaN := by decide
  have hzeroTrue : (Binary64.zero true).IsZero := by decide
  have hle : Binary64.one ≤ .two := by decide +kernel
  have hle' : Binary64.zero true ≤ .one := by decide +kernel
  refine ⟨⟨isNaturalLogarithm_stepLog, ?_, hfinite, hone, by decide, by decide, hle,
      hlogMono .one .two (by decide) (by decide) hle⟩,
    ⟨isExponential_stepExp, ?_, by decide, hscaled (by decide), hnumber, hsign hnumber, hzeroTrue,
      hzero hzeroTrue, hle', hexpMono _ _ hle'⟩,
    ⟨rfl, (hbuild Build.fallback.capabilities).1 rfl⟩⟩
  · decide +kernel
  · decide +kernel

end TraceMath
