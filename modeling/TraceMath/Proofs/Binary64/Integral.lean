import Mathlib.Data.Nat.Cast.Field
import Mathlib.Data.Rat.Floor
import TraceMath.Binary64.Integral
import TraceMath.Proofs.Binary64.Order

/-!
# The integers next to a number

`floor`, `ceil` and `trunc` are one rounding of the magnitude, away from zero or not. The integers
next to a finite number are numbers themselves, so a result is exact.

* `Magnitude.units_ofNat`: a natural number below `2 ^ 53` is a magnitude. From `2 ^ 52` on every
  magnitude is a natural number (`Magnitude.units_mod_of_integral`).
* `Binary64.IsInteger`: the value is the integer, and the sign bit is that of the operand, also in a
  zero. `isInteger_floor`, `isInteger_ceil` and `isInteger_trunc` are the three roundings.
* `Binary64.roundToIntegral_again`: an integer is left as it is by all of them.
-/

namespace TraceMath

namespace Magnitude

open Binary64 (integralMagnitude)

/-! ## Whole magnitudes -/

/-- The natural number next to a magnitude, away from zero or not. -/
def whole (awayFromZero : Bool) (m : ℕ) : ℕ :=
  if awayFromZero ∧ ¬units m % unitsPerOne = 0 then units m / unitsPerOne + 1
  else units m / unitsPerOne

theorem floor_value (m : ℕ) : ⌊value ℚ m⌋ = (units m / unitsPerOne : ℕ) := by
  rw [value, Rat.floor_natCast_div_natCast, Int.natCast_div]

theorem value_eq_natCast {m : ℕ} (h : units m % unitsPerOne = 0) :
    value ℚ m = (units m / unitsPerOne : ℕ) := by
  rw [value, Nat.cast_div_charZero (Nat.dvd_of_mod_eq_zero h)]

theorem units_mod_of_value {m : ℕ} {n : ℤ} (h : value ℚ m = n) : units m % unitsPerOne = 0 := by
  rw [value, div_eq_iff unitsPerOne_pos.ne'] at h
  have hunits : (units m : ℤ) = n * unitsPerOne := by exact_mod_cast h
  exact Nat.mod_eq_zero_of_dvd (Int.natCast_dvd_natCast.mp ⟨n, hunits.trans (mul_comm _ _)⟩)

/-- **The natural number next to a magnitude** is the integer next to its value. -/
theorem whole_eq (awayFromZero : Bool) (m : ℕ) :
    (whole awayFromZero m : ℤ) = if awayFromZero then ⌈value ℚ m⌉ else ⌊value ℚ m⌋ := by
  unfold whole
  cases awayFromZero with
  | false => rw [if_neg (by simp), if_neg Bool.false_ne_true, floor_value]
  | true =>
    rw [if_pos rfl]
    by_cases hmod : units m % unitsPerOne = 0
    · rw [if_neg (by simp [hmod]), value_eq_natCast hmod, Int.ceil_natCast]
    · have hnot : value ℚ m ∉ Set.range Int.cast := by
        rintro ⟨n, hn⟩
        exact hmod (units_mod_of_value hn.symm)
      rw [if_pos ⟨rfl, hmod⟩, (Int.ceil_eq_floor_add_one_iff_notMem _).mpr hnot, floor_value,
        Nat.cast_succ]

/-- A natural number with at most 53 bits is a magnitude. -/
theorem units_ofNat {n : ℕ} (h : n < 2 * binade) :
    ofNat n < infinity ∧ units (ofNat n) = n * unitsPerOne := by
  obtain ⟨m, hm⟩ := Binary64.units_eq_of_lt 1074 h
  rw [← unitsPerOne_eq] at hm
  have hlt : m < infinity := by
    have htop : units (integralMagnitude + binade) = 2 * binade * unitsPerOne := by decide +kernel
    have hfinite : integralMagnitude + binade < infinity := by decide
    refine Nat.lt_trans (units_strictMono.lt_iff_lt.mp ?_) hfinite
    rw [hm, htop]
    exact Nat.mul_lt_mul_of_pos_right h unitsPerOne_pos_nat
  have hcell := cell_ofRatio (K := ℚ) (n * unitsPerOne) (show 0 < 1 by decide)
  rw [Nat.cast_one, div_one, ← hm] at hcell
  have hofNat := hcell.unique (cell_units hlt.le)
  rw [ofNat, ← hm, hofNat]
  exact ⟨hlt, rfl⟩

theorem units_integralMagnitude : units integralMagnitude = binade * unitsPerOne := by
  decide +kernel

theorem value_integralMagnitude : value ℚ integralMagnitude = 2 ^ 52 := by
  rw [value, units_integralMagnitude, Nat.cast_mul, mul_div_cancel_right₀ _ unitsPerOne_pos.ne']
  norm_num [binade]

/-- From `2 ^ 52` on, a unit of the last place is at least one. -/
theorem units_mod_of_integral {m : ℕ} (h : integralMagnitude ≤ m) :
    units m % unitsPerOne = 0 := by
  obtain ⟨e, q, rfl, hq, hplace⟩ := exists_parts m
  have he : 1074 ≤ e := by
    unfold integralMagnitude at h
    unfold binade at h hq
    omega
  rw [units_add hq.le hplace, unitsPerOne_eq]
  exact Nat.mod_eq_zero_of_dvd ((pow_dvd_pow 2 he).mul_left q)

/-- Below, the numbers next to it have at most 53 bits. -/
theorem whole_lt {m : ℕ} (h : m < integralMagnitude) (awayFromZero : Bool) :
    whole awayFromZero m < 2 * binade := by
  have hunits := units_strictMono h
  rw [units_integralMagnitude, ← Nat.div_lt_iff_lt_mul unitsPerOne_pos_nat] at hunits
  have hbinade : 1 < binade := by decide
  unfold whole
  split <;> omega

end Magnitude

namespace Binary64

open Magnitude (value whole unitsPerOne)

variable {x : Binary64}

/-! ## The rounding -/

theorem roundToIntegral_of_isNaN (hx : x.IsNaN) (awayFromZero : Bool) :
    x.roundToIntegral awayFromZero = nan := if_pos hx

theorem roundToIntegral_of_le (hx : ¬x.IsNaN) (h : integralMagnitude ≤ x.magnitude)
    (awayFromZero : Bool) : x.roundToIntegral awayFromZero = x := by
  rw [roundToIntegral, if_neg hx, if_pos h]

theorem roundToIntegral_of_isInfinite (hx : x.IsInfinite) (awayFromZero : Bool) :
    x.roundToIntegral awayFromZero = x := by
  have hlt : integralMagnitude < Magnitude.infinity := by decide
  exact roundToIntegral_of_le (by omega) (by omega) awayFromZero

theorem integralMagnitude_le_iff (x : Binary64) :
    integralMagnitude ≤ x.magnitude ↔ 2 ^ 52 ≤ |x.toRat| := by
  rw [abs_toRat, ← Magnitude.value_integralMagnitude, value, value,
    div_le_div_iff_of_pos_right Magnitude.unitsPerOne_pos, Nat.cast_le,
    Magnitude.units_strictMono.le_iff_le]

theorem roundToIntegral_of_lt (h : x.magnitude < integralMagnitude) (awayFromZero : Bool) :
    x.roundToIntegral awayFromZero =
      ofParts x.negative (Magnitude.ofNat (whole awayFromZero x.magnitude)) := by
  have hnan : ¬x.IsNaN := by
    have hlt : integralMagnitude < Magnitude.infinity := by decide
    omega
  rw [roundToIntegral, if_neg hnan, if_neg (Nat.not_le.mpr h)]
  rfl

/-- **A finite number is rounded to the next integer**, its sign and its magnitude apart. -/
theorem roundToIntegral_spec (hx : x.IsFinite) (awayFromZero : Bool) :
    let y := x.roundToIntegral awayFromZero
    y.IsFinite ∧ y.negative = x.negative ∧
      value ℚ y.magnitude = whole awayFromZero x.magnitude := by
  rcases Nat.lt_or_ge x.magnitude integralMagnitude with h | h
  · obtain ⟨hfinite, hunits⟩ := Magnitude.units_ofNat (Magnitude.whole_lt h awayFromZero)
    have hlt := hfinite.trans Magnitude.infinity_lt
    rw [roundToIntegral_of_lt h]
    refine ⟨by simpa [IsFinite, hlt] using hfinite, by simp [hlt], ?_⟩
    rw [magnitude_ofParts _ hlt, value, hunits, Nat.cast_mul,
      mul_div_cancel_right₀ _ Magnitude.unitsPerOne_pos.ne']
  · have hmod := Magnitude.units_mod_of_integral h
    rw [roundToIntegral_of_le (by omega) h]
    refine ⟨hx, rfl, ?_⟩
    rw [Magnitude.value_eq_natCast hmod, whole, if_neg (by simp [hmod])]

theorem isNaN_roundToIntegral_iff (awayFromZero : Bool) :
    (x.roundToIntegral awayFromZero).IsNaN ↔ x.IsNaN := by
  rcases isNaN_or_isInfinite_or_isFinite x with hx | hx | hx
  · rw [roundToIntegral_of_isNaN hx]
    exact iff_of_true isNaN_nan hx
  · rw [roundToIntegral_of_isInfinite hx]
  · have hfinite := (roundToIntegral_spec hx awayFromZero).1
    exact iff_of_false (by omega) (by omega)

/-- **An integer is left as it is**, so the first rounding decides. -/
@[simp] theorem roundToIntegral_again (x : Binary64) (first second : Bool) :
    (x.roundToIntegral first).roundToIntegral second = x.roundToIntegral first := by
  rcases isNaN_or_isInfinite_or_isFinite x with hx | hx | hx
  · rw [roundToIntegral_of_isNaN hx, roundToIntegral_of_isNaN isNaN_nan]
  · rw [roundToIntegral_of_isInfinite hx, roundToIntegral_of_isInfinite hx]
  · obtain ⟨hfinite, -, hvalue⟩ := roundToIntegral_spec hx first
    obtain ⟨-, hs, hvalue'⟩ := roundToIntegral_spec hfinite second
    refine ext_parts hs (value_injective ?_)
    have hwhole := Magnitude.whole_eq second (x.roundToIntegral first).magnitude
    rw [hvalue, Int.ceil_natCast, Int.floor_natCast, ite_self, Int.natCast_inj] at hwhole
    rw [hvalue', hwhole, hvalue]

/-! ## Floor, ceiling and truncation -/

/-- The number `y` is the integer `n`. It has the sign bit of `x`, also as a zero. -/
structure IsInteger (x : Binary64) (n : ℤ) (y : Binary64) : Prop where
  isFinite : y.IsFinite
  toRat_eq : y.toRat = n
  negative_eq : y.negative = x.negative

theorem isInteger_roundToIntegral (hx : x.IsFinite) (awayFromZero : Bool) :
    IsInteger x (if x.negative then -whole awayFromZero x.magnitude
      else whole awayFromZero x.magnitude) (x.roundToIntegral awayFromZero) := by
  obtain ⟨hfinite, hs, hvalue⟩ := roundToIntegral_spec hx awayFromZero
  refine ⟨hfinite, ?_, hs⟩
  rw [toRat_eq, hs, hvalue]
  split <;> simp

theorem isInteger_floor (hx : x.IsFinite) : IsInteger x ⌊x.toRat⌋ x.floor := by
  have h := isInteger_roundToIntegral hx x.negative
  have hfloor : ⌊x.toRat⌋ = if x.negative then -(whole x.negative x.magnitude : ℤ)
      else whole x.negative x.magnitude := by
    rw [toRat_eq, Magnitude.whole_eq]
    cases x.negative with
    | false => simp only [Bool.false_eq_true, if_false]
    | true => simp only [if_true, Int.floor_neg]
  rwa [← hfloor] at h

theorem isInteger_ceil (hx : x.IsFinite) : IsInteger x ⌈x.toRat⌉ x.ceil := by
  have h := isInteger_roundToIntegral hx (!x.negative)
  have hceil : ⌈x.toRat⌉ = if x.negative then -(whole (!x.negative) x.magnitude : ℤ)
      else whole (!x.negative) x.magnitude := by
    rw [toRat_eq, Magnitude.whole_eq]
    cases x.negative with
    | false => simp only [Bool.not_false, Bool.false_eq_true, if_true, if_false]
    | true => simp only [Bool.not_true, Bool.false_eq_true, if_true, if_false, Int.ceil_neg]
  rwa [← hceil] at h

/-- Truncation is the rounding to the side of zero. -/
theorem trunc_eq (x : Binary64) : x.trunc = if x.negative then x.ceil else x.floor := by
  cases hs : x.negative <;> simp [trunc, ceil, floor, hs]

theorem isInteger_trunc (hx : x.IsFinite) :
    IsInteger x (if x.toRat < 0 then ⌈x.toRat⌉ else ⌊x.toRat⌋) x.trunc := by
  rw [trunc_eq]
  by_cases hzero : x.toRat = 0
  · -- Here the sign bit says nothing about the value.
    have hfloor := isInteger_floor hx
    have hceil := isInteger_ceil hx
    rw [hzero, Int.floor_zero] at hfloor
    rw [hzero, Int.ceil_zero] at hceil
    rw [hzero, if_neg (lt_irrefl 0), Int.floor_zero]
    split
    · exact hceil
    · exact hfloor
  · simp only [toRat_neg_iff hzero]
    split
    · exact isInteger_ceil hx
    · exact isInteger_floor hx

/-- A zero is that of the operand's sign. -/
theorem IsInteger.eq_zero {y : Binary64} (h : IsInteger x 0 y) : y = zero x.negative := by
  have hzero : y.IsZero := by rw [← toRat_eq_zero_iff, h.toRat_eq, Int.cast_zero]
  apply ext_parts
  · simp [h.negative_eq]
  · simp [hzero]

/-- Between minus one and zero only the floor leaves zero. -/
theorem eq_zero_of_between (hx : x.IsFinite) (hlow : -1 < x.toRat) (hhigh : x.toRat < 0) :
    x.ceil = zero true ∧ x.trunc = zero true := by
  have hs := (toRat_neg_iff hhigh.ne).mp hhigh
  have hceil : ⌈x.toRat⌉ = 0 := Int.ceil_eq_zero_iff.mpr ⟨hlow, hhigh.le⟩
  have hinteger := isInteger_ceil hx
  rw [hceil] at hinteger
  have hzero := hinteger.eq_zero
  rw [hs] at hzero
  exact ⟨hzero, by rw [trunc_eq, hs, if_pos rfl, hzero]⟩

theorem neg_ofParts {m : ℕ} (s : Bool) (h : m < Magnitude.signBit) :
    -ofParts s m = ofParts (!s) m := by
  apply ext_parts <;> simp [h]

theorem roundToIntegral_neg (hx : ¬x.IsNaN) (awayFromZero : Bool) :
    (-x).roundToIntegral awayFromZero = -x.roundToIntegral awayFromZero := by
  have hm := magnitude_neg x
  rcases Nat.lt_or_ge x.magnitude integralMagnitude with h | h
  · have hlt : Magnitude.ofNat (whole awayFromZero x.magnitude) < Magnitude.signBit :=
      Magnitude.ofRatio_lt _ _
    rw [roundToIntegral_of_lt h, roundToIntegral_of_lt (by rwa [hm]), hm, neg_ofParts _ hlt,
      negative_neg]
  · rw [roundToIntegral_of_le hx h, roundToIntegral_of_le (by rwa [IsNaN, hm]) (by rwa [hm])]

/-- The ceiling is the floor on the other side of zero. -/
theorem ceil_eq_neg_floor_neg (hx : ¬x.IsNaN) : x.ceil = -(-x).floor := by
  simp [floor, roundToIntegral_neg hx, ceil]

end Binary64

end TraceMath
