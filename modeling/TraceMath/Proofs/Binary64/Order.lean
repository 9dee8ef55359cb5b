import TraceMath.Proofs.Binary64.Values

/-!
# The order of numbers

Rounding keeps the order, so products and reciprocals keep it or turn it round, infinities and zeros
included.

* `Magnitude.Cell.le_of_le`: of two numbers the smaller one is not rounded to the larger magnitude.
* `Magnitude.product` and `Magnitude.reciprocal`: what becomes of the magnitudes.
* `Binary64.HasProduct`: the operands that have a product. The others, a NaN or zero and infinity,
  give the NaN (`isNaN_mul_iff`). Of a product and a reciprocal, sign and magnitude can be followed
  apart (`negative_mul` and `magnitude_mul`, `negative_one_div` and `magnitude_one_div`).
* `x ≤ y`: the comparison of numbers. No NaN is comparable, and both zeros are equal.
-/

namespace TraceMath

namespace Magnitude

/-! ## Rounding keeps the order -/

section Order

variable {K : Type*} [Field K] [LinearOrder K] [IsStrictOrderedRing K]

/-- If the magnitudes were the other way round, both numbers would be the midpoint between them. -/
theorem Cell.le_of_le {m n : ℕ} {u v : K} (hm : Cell m u) (hn : Cell n v) (huv : u ≤ v) :
    m ≤ n := by
  by_contra hlt
  replace hlt : n < m := Nat.lt_of_not_le hlt
  have hfinite : n ≠ infinity := Nat.ne_of_lt (Nat.lt_of_lt_of_le hlt hm.le_infinity)
  have hbelow := (hm.below.midpoint_le hlt).1
  have habove := ((hn.above.resolve_left hfinite).le_midpoint hlt).1
  obtain rfl : u = v := by linarith
  exact hlt.ne (hn.unique hm)

end Order

theorem ofRatio_le_ofRatio {num den num' den' : ℕ} (hden : 0 < den) (hden' : 0 < den')
    (h : (num / den : ℚ) ≤ num' / den') : ofRatio num den ≤ ofRatio num' den' :=
  (cell_ofRatio num hden).le_of_le (cell_ofRatio num' hden') h

/-! ## Products of magnitudes -/

/-- The magnitude of the number one. -/
def one : ℕ := 1023 * binade

@[simp] theorem units_one : units one = unitsPerOne := by decide +kernel

@[simp] theorem value_one : value ℚ one = 1 := by
  rw [value, units_one, div_self unitsPerOne_pos.ne']

@[simp] theorem one_lt_infinity : one < infinity := by decide

/-- The magnitude of a product, where there is one (`Binary64.HasProduct`). -/
def product (m n : ℕ) : ℕ :=
  if m = infinity ∨ n = infinity then infinity else ofRatio (units m * units n) unitsPerOne

variable {m n m' n' : ℕ}

@[simp] theorem product_le_infinity (m n : ℕ) : product m n ≤ infinity := by
  unfold product
  split
  · exact le_rfl
  · exact ofRatio_le_infinity _ _

@[simp] theorem product_lt (m n : ℕ) : product m n < signBit :=
  Nat.lt_of_le_of_lt (product_le_infinity m n) infinity_lt

theorem product_comm (m n : ℕ) : product m n = product n m := by
  simp only [product, Nat.mul_comm, or_comm]

@[simp] theorem product_infinity (n : ℕ) : product infinity n = infinity := if_pos (.inl rfl)

theorem unitsPerOne_pos_nat : 0 < unitsPerOne := Nat.cast_pos.mp (unitsPerOne_pos (K := ℚ))

/-- A product of finite magnitudes is rounded once. -/
theorem cell_product (hm : m < infinity) (hn : n < infinity) :
    Cell (product m n) (value ℚ m * value ℚ n * unitsPerOne) := by
  have hpos := unitsPerOne_pos (K := ℚ)
  have hu : value ℚ m * value ℚ n * unitsPerOne = (units m * units n : ℕ) / unitsPerOne := by
    unfold value
    push_cast
    field_simp
  rw [product, if_neg (by omega), hu]
  exact cell_ofRatio _ unitsPerOne_pos_nat

@[simp] theorem value_zero : value ℚ 0 = 0 := by rw [value, units_zero, Nat.cast_zero, zero_div]

theorem zero_product (hn : n < infinity) : product 0 n = 0 := by
  have hcell := cell_product (show 0 < infinity by decide) hn
  rw [value_zero, zero_mul, zero_mul] at hcell
  exact hcell.unique cell_zero_zero

theorem one_product (hn : n ≤ infinity) : product one n = n := by
  rcases hn.eq_or_lt with rfl | hlt
  · rw [product_comm, product_infinity]
  · have hcell := cell_product one_lt_infinity hlt
    rw [value_one, one_mul, value, div_mul_cancel₀ _ unitsPerOne_pos.ne'] at hcell
    exact hcell.unique (cell_units hn)

/-- Products keep the order. -/
theorem product_le_product (hm : m ≤ m') (hn : n ≤ n') (hm' : m' ≤ infinity)
    (hn' : n' ≤ infinity) : product m n ≤ product m' n' := by
  by_cases h : m' = infinity ∨ n' = infinity
  · rw [product.eq_1 m', if_pos h]
    exact product_le_infinity m n
  · rw [product, product, if_neg h, if_neg (by omega)]
    have hunits : units m * units n ≤ units m' * units n' :=
      Nat.mul_le_mul (units_le_units_iff.mpr hm) (units_le_units_iff.mpr hn)
    apply ofRatio_le_ofRatio unitsPerOne_pos_nat unitsPerOne_pos_nat
    exact div_le_div_of_nonneg_right (Nat.cast_le.mpr hunits) unitsPerOne_pos.le

/-- A factor that is at most one does not make the product larger than the other factor. -/
theorem product_le_right (hm : m ≤ one) (hn : n ≤ infinity) : product m n ≤ n := by
  have h := product_le_product hm le_rfl one_lt_infinity.le hn
  rwa [one_product hn] at h

/-- A factor that is at least one does not make the product smaller than the other factor. -/
theorem le_product_right (hm : one ≤ m) (hm' : m ≤ infinity) (hn : n ≤ infinity) :
    n ≤ product m n := by
  have h := product_le_product hm (le_refl n) hm' hn
  rwa [one_product hn] at h

/-! ## Reciprocals of magnitudes -/

/-- The magnitude of one over a number. -/
def reciprocal (m : ℕ) : ℕ :=
  if m = infinity then 0 else if m = 0 then infinity
    else ofRatio (unitsPerOne * unitsPerOne) (units m)

@[simp] theorem reciprocal_le_infinity (m : ℕ) : reciprocal m ≤ infinity := by
  unfold reciprocal
  split
  · exact Nat.zero_le _
  · split
    · exact le_rfl
    · exact ofRatio_le_infinity _ _

@[simp] theorem reciprocal_lt (m : ℕ) : reciprocal m < signBit :=
  Nat.lt_of_le_of_lt (reciprocal_le_infinity m) infinity_lt

theorem units_pos (h : m ≠ 0) : 0 < units m := by simpa [Nat.pos_iff_ne_zero] using h

/-- The reciprocal of a finite magnitude is rounded once. -/
theorem cell_reciprocal (hm : m < infinity) (h0 : m ≠ 0) :
    Cell (reciprocal m) ((value ℚ m)⁻¹ * unitsPerOne) := by
  have hpos := unitsPerOne_pos (K := ℚ)
  have hu : (value ℚ m)⁻¹ * unitsPerOne = (unitsPerOne * unitsPerOne : ℕ) / units m := by
    unfold value
    push_cast
    field_simp
  rw [reciprocal, if_neg (Nat.ne_of_lt hm), if_neg h0, hu]
  exact cell_ofRatio _ (units_pos h0)

/-- The reciprocal turns the order round. -/
theorem reciprocal_le_reciprocal (h : m ≤ n) (hn : n ≤ infinity) :
    reciprocal n ≤ reciprocal m := by
  by_cases hinf : n = infinity
  · rw [reciprocal, if_pos hinf]
    exact Nat.zero_le _
  · by_cases h0 : m = 0
    · rw [h0, reciprocal.eq_1 0, if_neg (by decide), if_pos rfl]
      exact reciprocal_le_infinity n
    · rw [reciprocal, reciprocal, if_neg hinf, if_neg (by omega), if_neg (by omega), if_neg h0]
      have hunits : units m ≤ units n := units_le_units_iff.mpr h
      have hpos := units_pos h0
      apply ofRatio_le_ofRatio (Nat.lt_of_lt_of_le hpos hunits) hpos
      exact div_le_div_of_nonneg_left (Nat.cast_nonneg _) (Nat.cast_pos.mpr hpos)
        (Nat.cast_le.mpr hunits)

@[simp] theorem reciprocal_infinity : reciprocal infinity = 0 := if_pos rfl

@[simp] theorem reciprocal_zero : reciprocal 0 = infinity := by decide

@[simp] theorem reciprocal_one : reciprocal one = one := by
  have hcell := cell_reciprocal one_lt_infinity (by decide)
  rw [value_one, inv_one, one_mul, ← units_one] at hcell
  exact hcell.unique (cell_units one_lt_infinity.le)

end Magnitude

namespace Binary64

open Magnitude (unitsPerOne_pos)

variable {x y : Binary64}

/-! ## Products -/

/-- The operands have a product: they are numbers, and not zero and infinity. -/
structure HasProduct (x y : Binary64) : Prop where
  left : ¬x.IsNaN
  right : ¬y.IsNaN
  zero_infinity : ¬(x.IsZero ∧ y.IsInfinite)
  infinity_zero : ¬(x.IsInfinite ∧ y.IsZero)

theorem mul_eq (h : HasProduct x y) :
    x * y = ofParts (x.negative != y.negative) (Magnitude.product x.magnitude y.magnitude) := by
  have hnan : ¬(x.IsNaN ∨ y.IsNaN) := not_or.mpr ⟨h.left, h.right⟩
  have hzero (hinf : x.IsInfinite ∨ y.IsInfinite) : ¬(x.IsZero ∨ y.IsZero) := by
    have hboth : ¬((0 : ℕ) = Magnitude.infinity) := by decide
    have := h.zero_infinity
    have := h.infinity_zero
    omega
  change mul x y = _
  rw [mul, if_neg hnan, Magnitude.product]
  split
  · next hinf =>
    rw [if_neg (hzero hinf)]
    rfl
  · rfl

theorem mul_eq_nan (h : ¬HasProduct x y) : x * y = nan := by
  change mul x y = _
  unfold mul
  split
  · rfl
  · split
    · split
      · rfl
      · exact absurd ⟨by omega, by omega, by omega, by omega⟩ h
    · exact absurd ⟨by omega, by omega, by omega, by omega⟩ h

theorem magnitude_mul (h : HasProduct x y) :
    (x * y).magnitude = Magnitude.product x.magnitude y.magnitude := by
  simp [mul_eq h]

theorem negative_mul (h : HasProduct x y) : (x * y).negative = (x.negative != y.negative) := by
  simp [mul_eq h]

/-- **Operands without a product, and no others, give the NaN.** -/
theorem isNaN_mul_iff : (x * y).IsNaN ↔ ¬HasProduct x y := by
  constructor
  · intro hnan h
    rw [IsNaN, magnitude_mul h] at hnan
    exact Nat.not_lt.mpr (Magnitude.product_le_infinity _ _) hnan
  · intro h
    rw [mul_eq_nan h]
    exact isNaN_nan

/-! ## Reciprocals -/

@[simp] theorem magnitude_one : one.magnitude = Magnitude.one := by decide

theorem one_div_eq (h : ¬x.IsNaN) :
    one / x = ofParts x.negative (Magnitude.reciprocal x.magnitude) := by
  have hsign : (one.negative != x.negative) = x.negative := by simp
  have hunits : one.units = Magnitude.unitsPerOne := by simp [units]
  have hnan : ¬(one.IsNaN ∨ x.IsNaN) := not_or.mpr ⟨by decide, h⟩
  change div one x = _
  rw [div, hsign, hunits, if_neg hnan, if_neg (by decide), Magnitude.reciprocal]
  split
  · rfl
  · split
    · rw [if_neg (by decide)]
      rfl
    · rfl

theorem magnitude_one_div (h : ¬x.IsNaN) :
    (one / x).magnitude = Magnitude.reciprocal x.magnitude := by
  simp [one_div_eq h]

theorem negative_one_div (h : ¬x.IsNaN) : (one / x).negative = x.negative := by
  simp [one_div_eq h]

theorem isNaN_one_div_iff : (one / x).IsNaN ↔ x.IsNaN := by
  constructor
  · intro hnan
    by_contra h
    rw [IsNaN, magnitude_one_div h] at hnan
    exact Nat.not_lt.mpr (Magnitude.reciprocal_le_infinity _) hnan
  · intro h
    change (div one x).IsNaN
    rw [div, if_pos (.inr h)]
    exact isNaN_nan

theorem eq_infinity_iff {s : Bool} : x = infinity s ↔ x.IsInfinite ∧ x.negative = s := by
  constructor
  · rintro rfl
    exact ⟨magnitude_infinity s, negative_infinity s⟩
  · rintro ⟨hx, hs⟩
    rw [← ofParts_negative_magnitude x, hs, hx, infinity]

/-! ## Comparison -/

/-- The value of `x` is at most that of `y`, and neither is a NaN. The units of an infinity are
those of `2 ^ 1024`, so it is beyond every finite number. -/
protected def Le (x y : Binary64) : Prop :=
  ¬x.IsNaN ∧ ¬y.IsNaN ∧ x.signedUnits ≤ y.signedUnits

instance : LE Binary64 := ⟨Binary64.Le⟩

theorem le_def : x ≤ y ↔ ¬x.IsNaN ∧ ¬y.IsNaN ∧ x.signedUnits ≤ y.signedUnits := Iff.rfl

instance : DecidableLE Binary64 := fun _ _ => decidable_of_iff' _ le_def

/-- By the sign bits: the order of the magnitudes, or that turned round. -/
theorem le_iff_parts (hx : ¬x.IsNaN) (hy : ¬y.IsNaN) :
    x ≤ y ↔ match x.negative, y.negative with
      | false, false => x.magnitude ≤ y.magnitude
      | true, true => y.magnitude ≤ x.magnitude
      | true, false => True
      | false, true => x.IsZero ∧ y.IsZero := by
  rw [le_def]
  simp only [signedUnits, units, hx, hy, not_false_eq_true, true_and]
  cases x.negative <;> cases y.negative
  case false.false => simp
  case false.true =>
    rw [IsZero, IsZero, ← Magnitude.units_eq_zero_iff,
      ← Magnitude.units_eq_zero_iff (m := y.magnitude)]
    simp only [Bool.false_eq_true, ↓reduceIte]
    omega
  case true.false =>
    simp
  case true.true => simp

/-- Without the sign bits it is the order of the magnitudes. -/
theorem le_iff_magnitude_le (hx : x.negative = false) (hy : y.negative = false) :
    x ≤ y ↔ x.magnitude ≤ y.magnitude ∧ y.magnitude ≤ Magnitude.infinity := by
  have hunits : x.signedUnits ≤ y.signedUnits ↔ x.magnitude ≤ y.magnitude := by
    simp [signedUnits, units, hx, hy]
  rw [le_def, hunits]
  omega

@[simp] theorem isNaN_neg : (-x).IsNaN ↔ x.IsNaN := by simp [IsNaN]

@[simp] theorem isNaN_abs : x.abs.IsNaN ↔ x.IsNaN := by simp [IsNaN]

end Binary64

end TraceMath
