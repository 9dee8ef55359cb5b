import Mathlib.Algebra.Order.Ring.Abs
import Mathlib.Algebra.Order.Field.Rat
import Mathlib.Data.Nat.Factorization.Basic
import TraceMath.Binary64.Arithmetic
import TraceMath.Proofs.Binary64.Rounding

/-!
# Values of products and quotients

A finite number has a rational value. Products and quotients of finite numbers are the values'
products and quotients, rounded once.

* `Binary64.toRat`: the value, and `Binary64.ext_toRat`: a value other than zero has one number.
* `Binary64.IsRounded`: the number of the value's sign that is nearest to a rational, ties to even.
* `isRounded_mul` and `isRounded_div`: every product and quotient is rounded so.
* `mul_eq_of_toRat_eq`: so a product whose value is that of a number is not rounded.
* `isScaled_iff`: the values of finite numbers, by odd significand and exponent.
-/

namespace TraceMath.Binary64

open Magnitude (unitsPerOne value IsNearest unitsPerOne_pos)

/-! ## Values -/

/-- The value of a finite number. -/
def toRat (x : Binary64) : ℚ := x.signedUnits / unitsPerOne

theorem toRat_eq (x : Binary64) :
    x.toRat = if x.negative then -value ℚ x.magnitude else value ℚ x.magnitude := by
  rw [toRat, signedUnits, Binary64.units, value]
  split
  · push_cast
    rw [neg_div]
  · rfl

@[simp] theorem value_nonneg (m : ℕ) : 0 ≤ value ℚ m :=
  div_nonneg (Nat.cast_nonneg _) (Nat.cast_nonneg _)

theorem value_pos {m : ℕ} (h : m ≠ 0) : 0 < value ℚ m := by
  refine div_pos ?_ unitsPerOne_pos
  simpa [Nat.pos_iff_ne_zero] using h

theorem value_injective : Function.Injective (value ℚ) := by
  intro m n h
  rw [value, value, div_left_inj' (unitsPerOne_pos (K := ℚ)).ne'] at h
  simpa using h

theorem abs_toRat (x : Binary64) : |x.toRat| = value ℚ x.magnitude := by
  rw [toRat_eq]
  split <;> simp [abs_of_nonneg]

theorem toRat_eq_zero_iff (x : Binary64) : x.toRat = 0 ↔ x.IsZero := by
  rw [← abs_eq_zero, abs_toRat]
  constructor
  · intro h
    by_contra hne
    exact (value_pos hne).ne' h
  · intro h
    rw [h, value, Magnitude.units_zero, Nat.cast_zero, zero_div]

theorem signedUnits_eq_zero_iff (x : Binary64) : x.signedUnits = 0 ↔ x.IsZero := by
  rw [← toRat_eq_zero_iff, toRat, div_eq_zero_iff, or_iff_left unitsPerOne_pos.ne',
    Int.cast_eq_zero]

theorem toRat_neg_iff {x : Binary64} (h : x.toRat ≠ 0) : x.toRat < 0 ↔ x.negative = true := by
  have hpos := value_pos (mt (toRat_eq_zero_iff x).mpr h)
  rw [toRat_eq]
  cases x.negative with
  | false => simp only [Bool.false_eq_true, if_false, iff_false, not_lt, hpos.le]
  | true => simp only [if_true, neg_lt_zero, hpos]

/-- A value other than zero is that of one number. -/
theorem ext_toRat {x y : Binary64} (h : x.toRat = y.toRat) (hne : x.toRat ≠ 0) : x = y := by
  apply ext_parts
  · have hx := toRat_neg_iff hne
    have hy := toRat_neg_iff (h ▸ hne)
    rw [h, hy] at hx
    exact (Bool.eq_iff_iff.mpr hx).symm
  · apply value_injective
    rw [← abs_toRat, ← abs_toRat, h]

theorem abs_toRat_mul_unitsPerOne (x : Binary64) : |x.toRat| * unitsPerOne = x.units := by
  rw [abs_toRat, value, div_mul_cancel₀ _ unitsPerOne_pos.ne', Binary64.units]

theorem abs_toRat_lt_iff (x : Binary64) (n : ℕ) : |x.toRat| < n ↔ x.units < n * unitsPerOne := by
  rw [abs_toRat, value, div_lt_iff₀ unitsPerOne_pos]
  exact_mod_cast Iff.rfl

theorem toRat_of_signedUnits {x : Binary64} {n : ℤ} (h : x.signedUnits = n * unitsPerOne) :
    x.toRat = n := by
  rw [toRat, h, Int.cast_mul, Int.cast_natCast, mul_div_cancel_right₀]
  exact unitsPerOne_pos.ne'

@[simp] theorem toRat_one : one.toRat = 1 := by
  have h := toRat_of_signedUnits (x := one) (n := 1) (by decide +kernel)
  rwa [Int.cast_one] at h

/-! ## Products and quotients -/

/-- The number is a nonzero rational's nearest one, ties to even, and has its sign. It is infinite
from the midpoint between the largest finite value and `2 ^ 1024` on (`Magnitude.IsNearest`). -/
structure IsRounded (q : ℚ) (y : Binary64) : Prop where
  negative : y.negative = decide (q < 0)
  nearest : IsNearest |q| y.magnitude

/-- The value of a number is nearest to itself, so it is not rounded. -/
theorem IsRounded.eq_of_toRat {y z : Binary64} (h : IsRounded z.toRat y) (hz : z.IsFinite)
    (hne : z.toRat ≠ 0) : y = z := by
  apply ext_parts
  · rw [h.negative, Bool.eq_iff_iff, decide_eq_true_iff, toRat_neg_iff hne]
  · have hdist := h.nearest.dist_le z.magnitude hz.le
    rw [abs_toRat, sub_self, abs_zero, abs_nonpos_iff, sub_eq_zero] at hdist
    exact value_injective hdist

theorem isRounded_ofRatio {q : ℚ} {s : Bool} {num den : ℕ} (hs : s = decide (q < 0))
    (hden : 0 < den) (hq : |q| * unitsPerOne = num / den) : IsRounded q (ofRatio s num den) := by
  constructor
  · simp [hs]
  · rw [magnitude_ofRatio]
    apply Magnitude.Cell.isNearest
    rw [hq]
    exact Magnitude.cell_ofRatio num hden

section Operations

variable {x y : Binary64} (hx : x.IsFinite) (hy : y.IsFinite) (hx0 : x.toRat ≠ 0)
  (hy0 : y.toRat ≠ 0)

include hx0 hy0 in
theorem negative_bne : (x.negative != y.negative) = decide (x.toRat * y.toRat < 0) := by
  have hnx := toRat_neg_iff hx0
  have hny := toRat_neg_iff hy0
  rw [Bool.eq_iff_iff, decide_eq_true_iff, mul_neg_iff, bne_iff_ne]
  have hgx := lt_or_gt_of_ne hx0
  have hgy := lt_or_gt_of_ne hy0
  grind

include hx hy hx0 hy0

/-- **A product of finite numbers is the product of their values, rounded once.** -/
theorem isRounded_mul : IsRounded (x.toRat * y.toRat) (x * y) := by
  have hmul : x * y = ofRatio (x.negative != y.negative) (x.units * y.units) unitsPerOne := by
    change mul x y = _
    rw [mul, if_neg (by omega), if_neg (by omega)]
  rw [hmul]
  refine isRounded_ofRatio (negative_bne hx0 hy0) (Nat.cast_pos.mp (unitsPerOne_pos (K := ℚ))) ?_
  rw [eq_div_iff unitsPerOne_pos.ne', abs_mul, Nat.cast_mul, ← abs_toRat_mul_unitsPerOne,
    ← abs_toRat_mul_unitsPerOne]
  ring

/-- **A quotient of finite numbers is the quotient of their values, rounded once.** -/
theorem isRounded_div : IsRounded (x.toRat / y.toRat) (x / y) := by
  have hyz : ¬y.IsZero := mt (toRat_eq_zero_iff y).mpr hy0
  have hdiv : x / y = ofRatio (x.negative != y.negative) (x.units * unitsPerOne) y.units := by
    change div x y = _
    rw [div, if_neg (by omega), if_neg (by omega), if_neg (by omega), if_neg hyz]
  have huy := abs_toRat_mul_unitsPerOne y
  have hpos : (0 : ℚ) < y.units := by
    rw [← huy]
    exact mul_pos (abs_pos.mpr hy0) unitsPerOne_pos
  rw [hdiv]
  refine isRounded_ofRatio ?_ (Nat.cast_pos.mp hpos) ?_
  · rw [negative_bne hx0 hy0, decide_eq_decide, mul_neg_iff, div_neg_iff]
  · rw [eq_div_iff hpos.ne', abs_div, Nat.cast_mul, ← huy, ← abs_toRat_mul_unitsPerOne x,
      mul_mul_mul_comm, div_mul_cancel₀ _ (abs_pos.mpr hy0).ne', mul_assoc]

end Operations

theorem isRounded_one_div {x : Binary64} (hx : x.IsFinite) (hx0 : x.toRat ≠ 0) :
    IsRounded x.toRat⁻¹ (one / x) := by
  have h := isRounded_div (x := one) (by decide) hx (by simp) hx0
  rwa [toRat_one, one_div] at h

/-- A product whose value is that of a number is that number. -/
theorem mul_eq_of_toRat_eq {x y z : Binary64} (hx : x.IsFinite) (hy : y.IsFinite) (hz : z.IsFinite)
    (h : z.toRat = x.toRat * y.toRat) (hne : z.toRat ≠ 0) : x * y = z := by
  have hne' := hne
  rw [h, mul_ne_zero_iff] at hne'
  have hround := isRounded_mul hx hy hne'.1 hne'.2
  rw [← h] at hround
  exact hround.eq_of_toRat hz hne

/-! ## Which values there are -/

/-- The rational is `c * 2 ^ e` up to its sign, with an odd `c` and both in the range of finite
numbers. -/
structure IsScaled (q : ℚ) (c : ℕ) (e : ℤ) : Prop where
  odd : Odd c
  lt_significand : c < 2 ^ 53
  le_exponent : -1074 ≤ e
  eq : |q| = c * 2 ^ e
  lt_infinity : |q| < 2 ^ 1024

/-- An odd significand fixes the exponent. -/
theorem odd_mul_zpow_inj {c d : ℕ} {e f : ℤ} (hc : Odd c) (hd : Odd d)
    (h : (c * 2 ^ e : ℚ) = d * 2 ^ f) : c = d ∧ e = f := by
  wlog hle : e ≤ f generalizing c d e f
  · obtain ⟨hdc, hfe⟩ := this hd hc h.symm (le_of_not_ge hle)
    exact ⟨hdc.symm, hfe.symm⟩
  obtain ⟨k, rfl⟩ := Int.le.dest hle
  rw [zpow_add₀ two_ne_zero, mul_left_comm, mul_comm, mul_right_inj' (zpow_ne_zero e two_ne_zero),
    zpow_natCast] at h
  have hnat : c = d * 2 ^ k := by exact_mod_cast h
  -- A factor of two would make `c` even.
  obtain rfl : k = 0 := by
    by_contra hk
    rw [hnat] at hc
    exact Nat.not_even_iff_odd.mpr hc ((even_two.pow_of_ne_zero hk).mul_left d)
  exact ⟨by simpa using hnat, by simp⟩

/-- A significand may stand at any place: a short one is doubled until it fills a binade. -/
theorem units_eq_of_lt (a : ℕ) {c : ℕ} (h : c < 2 * Magnitude.binade) :
    ∃ m, Magnitude.units m = c * 2 ^ a := by
  induction a generalizing c with
  | zero =>
    have hunits := Magnitude.units_add h.le (.inl rfl)
    exact ⟨_, hunits⟩
  | succ a ih =>
    rcases Nat.lt_or_ge c Magnitude.binade with hlt | hge
    · obtain ⟨m, hm⟩ := ih (c := 2 * c) (by omega)
      exact ⟨m, by rw [hm]; ring⟩
    · exact ⟨_, Magnitude.units_add h.le (.inr hge)⟩

theorem value_lt_infinity_iff (m : ℕ) : value ℚ m < 2 ^ 1024 ↔ m < Magnitude.infinity := by
  rw [value, div_lt_iff₀ unitsPerOne_pos, ← Magnitude.units_lt_units_iff, Magnitude.units_infinity]
  norm_cast

theorem value_of_units_eq {m c a : ℕ} (h : Magnitude.units m = c * 2 ^ a) :
    value ℚ m = c * 2 ^ (a - 1074 : ℤ) := by
  rw [value, h, Magnitude.unitsPerOne_eq, zpow_sub₀ two_ne_zero, zpow_natCast, Nat.cast_mul,
    mul_div_assoc]
  norm_cast

theorem exists_toRat_eq {q : ℚ} {m : ℕ} (hm : m < Magnitude.infinity) (h : |q| = value ℚ m) :
    ∃ y : Binary64, y.IsFinite ∧ y.toRat = q := by
  have hlt := Nat.lt_trans hm Magnitude.infinity_lt
  refine ⟨ofParts (decide (q < 0)) m, by simp [IsFinite, hlt, hm], ?_⟩
  rw [toRat_eq, negative_ofParts _ hlt, magnitude_ofParts _ hlt, ← h]
  by_cases hq : q < 0
  · simp [hq, abs_of_neg]
  · simp [hq, abs_of_nonneg (not_lt.mp hq)]

/-- **The values other than zero** are `c * 2 ^ e` with an odd `c` of at most 53 bits, on the grid
of the least number and below infinity. -/
theorem isScaled_iff {q : ℚ} (hq : q ≠ 0) :
    (∃ y : Binary64, y.IsFinite ∧ y.toRat = q) ↔ ∃ c e, IsScaled q c e := by
  constructor
  · rintro ⟨y, hy, rfl⟩
    obtain ⟨a, d, hm, hd, hplace⟩ := Magnitude.exists_parts y.magnitude
    have hunits := Magnitude.units_add hd.le hplace
    rw [← hm] at hunits
    have hd0 : d ≠ 0 := by
      rintro rfl
      apply hq
      rw [← abs_eq_zero, abs_toRat, value_of_units_eq hunits]
      simp
    -- The factors of two of the significand go to the exponent.
    obtain ⟨b, c, hc, rfl⟩ := Nat.exists_eq_two_pow_mul_odd hd0
    refine ⟨c, (b + a : ℕ) - 1074, hc, ?_, by omega, ?_, ?_⟩
    · exact Nat.lt_of_le_of_lt (Nat.le_mul_of_pos_left c (Nat.two_pow_pos b)) hd
    · rw [abs_toRat]
      apply value_of_units_eq
      rw [hunits]
      ring
    · rw [abs_toRat, value_lt_infinity_iff]
      exact hy
  · rintro ⟨c, e, h⟩
    obtain ⟨a, ha⟩ := Int.eq_ofNat_of_zero_le (show 0 ≤ e + 1074 by linarith [h.le_exponent])
    obtain rfl : e = a - 1074 := by omega
    obtain ⟨m, hm⟩ := units_eq_of_lt a (show c < 2 * Magnitude.binade from h.lt_significand)
    have hvalue := h.eq.trans (value_of_units_eq hm).symm
    refine exists_toRat_eq ((value_lt_infinity_iff m).mp ?_) hvalue
    rw [← hvalue]
    exact h.lt_infinity

end TraceMath.Binary64
