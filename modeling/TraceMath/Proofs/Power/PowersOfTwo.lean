import TraceMath.Proofs.Power.Signs

/-!
# Powers of powers of two

The powers of two from `2 ^ -1074` to `2 ^ 1023` are numbers. Those above are rounded to infinity
and those below to zero; half the least number is a tie, and goes to zero.

* `Magnitude.roundsTwoPow_cases`: the three cases, by the exponent.
* `Magnitude.RoundsTwoPow.product`: the exponents of a run have one sign, so a factor that has left
  the range leaves the product no way back, and the product is the exact power, rounded once.
* `isTwoPowFrom_powInt_of_neg`: a division can lead back into the range, and there the result is not
  the exact power: what the divisor has lost stays lost.
-/

namespace TraceMath

namespace Magnitude

/-! ## Powers of two, rounded -/

variable {p q : ℤ} {m n : ℕ}

/-- The magnitude is that of `2 ^ q`, rounded. -/
def RoundsTwoPow (q : ℤ) (m : ℕ) : Prop := Cell m ((2 : ℚ) ^ q * unitsPerOne)

theorem two_zpow_mul_unitsPerOne (q : ℤ) : (2 : ℚ) ^ q * unitsPerOne = 2 ^ (q + 1074) := by
  rw [unitsPerOne_eq, zpow_add₀ two_ne_zero]
  norm_cast

theorem roundsTwoPow_infinity (h : 1024 ≤ q) : RoundsTwoPow q infinity := by
  apply cell_infinity
  have hpow : (2 : ℚ) ^ (1024 : ℤ) ≤ 2 ^ q := zpow_le_zpow_right₀ one_le_two h
  rw [units_infinity, Nat.cast_mul]
  exact mul_le_mul_of_nonneg_right (by exact_mod_cast hpow) unitsPerOne_pos.le

/-- Half the least number is a tie between it and zero. -/
theorem roundsTwoPow_zero (h : q ≤ -1075) : RoundsTwoPow q 0 := by
  have hhalf : (2 : ℚ) * 2 ^ (q + 1074) ≤ 1 := by
    rw [← zpow_one_add₀ two_ne_zero]
    exact zpow_le_one_of_nonpos₀ one_le_two (by omega)
  have hone : units 1 = 1 := by decide
  refine ⟨Nat.zero_le _, .inl rfl, .inr ?_⟩
  rw [FromAbove, two_zpow_mul_unitsPerOne, units_zero, hone, Nat.cast_zero, Nat.cast_one, zero_add]
  exact hhalf.lt_or_eq.imp_right fun h => ⟨h, rfl⟩

theorem roundsTwoPow_of_value (hm : m < infinity) (h : value ℚ m = 2 ^ q) : RoundsTwoPow q m := by
  rw [RoundsTwoPow, ← h, value, div_mul_cancel₀ _ unitsPerOne_pos.ne']
  exact cell_units hm.le

theorem exists_value_eq_two_zpow (hlow : -1074 ≤ q) (hhigh : q ≤ 1023) :
    ∃ m < infinity, value ℚ m = 2 ^ q := by
  obtain ⟨a, ha⟩ := Int.eq_ofNat_of_zero_le (show 0 ≤ q + 1074 by omega)
  obtain ⟨m, hm⟩ := Binary64.units_eq_of_lt a (show 1 < 2 * binade by decide)
  have hvalue : value ℚ m = 2 ^ q := by
    rw [Binary64.value_of_units_eq hm, Nat.cast_one, one_mul, ← ha, add_sub_cancel_right]
  refine ⟨m, (Binary64.value_lt_infinity_iff m).mp ?_, hvalue⟩
  rw [hvalue, ← zpow_natCast]
  exact zpow_lt_zpow_right₀ one_lt_two (by omega)

/-- **Where a power of two is rounded to.** -/
theorem roundsTwoPow_cases (h : RoundsTwoPow q m) :
    (1024 ≤ q ∧ m = infinity) ∨
      (-1074 ≤ q ∧ q ≤ 1023 ∧ m < infinity ∧ value ℚ m = 2 ^ q) ∨ (q ≤ -1075 ∧ m = 0) := by
  rcases lt_or_ge 1023 q with hhigh | hhigh
  · exact .inl ⟨hhigh, h.unique (roundsTwoPow_infinity hhigh)⟩
  rcases lt_or_ge q (-1074) with hlow | hlow
  · exact .inr (.inr ⟨by omega, h.unique (roundsTwoPow_zero (by omega))⟩)
  obtain ⟨m', hm', hvalue⟩ := exists_value_eq_two_zpow hlow hhigh
  obtain rfl := h.unique (roundsTwoPow_of_value hm' hvalue)
  exact .inr (.inl ⟨hlow, hhigh, hm', hvalue⟩)

/-- The product of powers of two with exponents of one sign is the power of the sum, rounded once:
a factor that is out of the range puts the product there, too. -/
theorem RoundsTwoPow.product (hp : RoundsTwoPow p m) (hq : RoundsTwoPow q n)
    (hsign : 0 ≤ p ∧ 0 ≤ q ∨ p ≤ 0 ∧ q ≤ 0) : RoundsTwoPow (p + q) (product m n) := by
  rcases roundsTwoPow_cases hp with ⟨hp, rfl⟩ | ⟨hplow, -, hm, hvm⟩ | ⟨hp, rfl⟩
  · -- The first factor has overflowed.
    rw [product_infinity]
    exact roundsTwoPow_infinity (by omega)
  · rcases roundsTwoPow_cases hq with ⟨hq, rfl⟩ | ⟨-, -, hn, hvn⟩ | ⟨hq, rfl⟩
    · rw [product_comm, product_infinity]
      exact roundsTwoPow_infinity (by omega)
    · have hcell := cell_product hm hn
      rwa [hvm, hvn, ← zpow_add₀ two_ne_zero] at hcell
    · rw [product_comm, zero_product hm]
      exact roundsTwoPow_zero (by omega)
  · -- It has underflowed, and then the second one cannot have overflowed.
    have hn : n < infinity := by
      rcases roundsTwoPow_cases hq with ⟨hq, -⟩ | ⟨-, -, hn, -⟩ | ⟨-, rfl⟩
      · omega
      · exact hn
      · decide
    rw [zero_product hn]
    exact roundsTwoPow_zero (by omega)

/-- A divisor that is not above the range has the reciprocal power. -/
theorem RoundsTwoPow.reciprocal (h : RoundsTwoPow p m) (hp : p ≤ 1023) :
    RoundsTwoPow (-p) (reciprocal m) := by
  rcases roundsTwoPow_cases h with ⟨hp', -⟩ | ⟨-, -, hm, hvm⟩ | ⟨hp', rfl⟩
  · omega
  · have hm0 : m ≠ 0 := by
      rintro rfl
      rw [value_zero] at hvm
      exact (zpow_ne_zero p two_ne_zero).symm hvm
    have hcell := cell_reciprocal hm hm0
    rwa [hvm, ← zpow_neg] at hcell
  · rw [reciprocal_zero]
    exact roundsTwoPow_infinity (by omega)

end Magnitude

namespace Binary64

open Magnitude (RoundsTwoPow roundsTwoPow_cases roundsTwoPow_of_value)

/-! ## Powers of them -/

/-- The number is `2 ^ q` in magnitude from the exponent `least` up to 1023, infinite above and zero
below. -/
structure IsTwoPowFrom (least q : ℤ) (y : Binary64) : Prop where
  inRange : least ≤ q → q ≤ 1023 → y.IsFinite ∧ |y.toRat| = 2 ^ q
  above : 1024 ≤ q → y.IsInfinite
  below : q < least → y.IsZero

variable {x y : Binary64} {e q : ℤ} {n : ℕ} {k : Int32}

theorem isTwoPowFrom_of_rounds {least : ℤ} (h : RoundsTwoPow q y.magnitude)
    (hleast : least = -1074 ∨ least ≤ q ∧ -1074 ≤ least) : IsTwoPowFrom least q y := by
  rcases roundsTwoPow_cases h with ⟨hq, hy⟩ | ⟨hlow, hhigh, hfinite, hvalue⟩ | ⟨hq, hy⟩
  · exact ⟨by omega, fun _ => hy, by omega⟩
  · exact ⟨fun _ _ => ⟨hfinite, by rw [abs_toRat, hvalue]⟩, by omega, by omega⟩
  · exact ⟨by omega, by omega, fun _ => hy⟩

/-- The exponents of a run have the sign of that of the base. -/
theorem roundsTwoPow_product (hx : x.IsFinite) (h : |x.toRat| = 2 ^ e) (pos : 0 < n) :
    RoundsTwoPow (n * e) (Power.product (· * ·) x n).magnitude := by
  refine sided_induction (P := fun i y => RoundsTwoPow (i * e) y.magnitude) (by omega) ?_ ?_ pos
  · rw [Nat.cast_one, one_mul]
    exact roundsTwoPow_of_value hx (by rw [← abs_toRat, h])
  · intro i j y z _ _ hy hz hpy hpz
    rw [magnitude_mul (hy.hasProduct hz), Nat.cast_add, add_mul]
    refine hpy.product hpz ((le_total 0 e).imp (fun he => ?_) fun he => ?_)
    · exact ⟨mul_nonneg (Int.natCast_nonneg i) he, mul_nonneg (Int.natCast_nonneg j) he⟩
    · exact ⟨mul_nonpos_of_nonneg_of_nonpos (Int.natCast_nonneg i) he,
        mul_nonpos_of_nonneg_of_nonpos (Int.natCast_nonneg j) he⟩

theorem isTwoPowFrom_powInt (hx : x.IsFinite) (h : |x.toRat| = 2 ^ e) (hk : 0 ≤ k) :
    IsTwoPowFrom (-1074) (e * k.toInt) (x.powInt k) := by
  by_cases hk0 : k = 0
  · subst hk0
    rw [powInt_zero, Int32.toInt_zero, mul_zero]
    exact ⟨fun _ _ => ⟨by decide, by simp [toRat_one]⟩, by omega, by omega⟩
  · have hpos : 0 < k := Int32.lt_of_le_of_ne hk (Ne.symm hk0)
    have hrounds := roundsTwoPow_product hx h (Power.natAbs_toInt_pos hk0)
    rw [Int32.le_iff_toInt_le, Int32.toInt_zero] at hk
    rw [Int.natCast_natAbs, abs_of_nonneg hk, mul_comm] at hrounds
    rw [powInt_of_pos x hpos]
    exact isTwoPowFrom_of_rounds hrounds (.inl rfl)

theorem roundsTwoPow_divisor (hx : x.IsFinite) (h : |x.toRat| = 2 ^ e) (hk : k < 0) :
    RoundsTwoPow (-(e * k.toInt)) (Power.product (· * ·) x k.toInt.natAbs).magnitude := by
  have hrounds := roundsTwoPow_product hx h (Power.natAbs_toInt_pos (Int32.ne_of_lt hk))
  rw [Int32.lt_iff_toInt_lt, Int32.toInt_zero] at hk
  rwa [Int.natCast_natAbs, abs_of_neg hk, neg_mul, mul_comm] at hrounds

theorem isInfinite_divisor (hx : x.IsFinite) (h : |x.toRat| = 2 ^ e) (hk : k < 0)
    (hq : e * k.toInt ≤ -1024) : (Power.product (· * ·) x k.toInt.natAbs).IsInfinite := by
  obtain ⟨-, hinf⟩ | ⟨-, hle, -⟩ | ⟨hle, -⟩ := roundsTwoPow_cases (roundsTwoPow_divisor hx h hk)
  · exact hinf
  · omega
  · omega

/-- An overflow of the divisor is not made good by the division. -/
theorem isTwoPowFrom_powInt_of_neg (hx : x.IsFinite) (h : |x.toRat| = 2 ^ e) (hk : k < 0) :
    IsTwoPowFrom (-1023) (e * k.toInt) (x.powInt k) := by
  have hmagnitude := magnitude_powInt_of_neg (x := x) (by omega) hk
  rcases le_or_gt (e * k.toInt) (-1024) with hq | hq
  · rw [isInfinite_divisor hx h hk hq, Magnitude.reciprocal_infinity] at hmagnitude
    exact ⟨by omega, by omega, fun _ => hmagnitude⟩
  · have hreciprocal := (roundsTwoPow_divisor hx h hk).reciprocal (by omega)
    rw [neg_neg, ← hmagnitude] at hreciprocal
    exact isTwoPowFrom_of_rounds hreciprocal (.inr ⟨by omega, by omega⟩)

end Binary64

open Binary64 (IsTwoPowFrom)

/-- **Powers of powers of two.** Every power of two from `2 ^ -1074` to `2 ^ 1023` is a number, with
either sign. The sign bit of a power of it is set exactly for a negative base and an odd exponent.
The magnitude is exact for a nonnegative exponent from `2 ^ -1074` to `2 ^ 1023`, and for a negative
one from `2 ^ -1023` to `2 ^ 1023`. Above it is infinity and below zero; for a negative exponent the
divisor has overflowed there, although numbers remain. -/
theorem powers_of_powers_of_two (s : ℚ) (hs : s = 1 ∨ s = -1) (e : ℤ) (hlow : -1074 ≤ e)
    (hhigh : e ≤ 1023) :
    (∃ x : Binary64, x.IsFinite ∧ x.toRat = s * 2 ^ e) ∧
    ∀ (x : Binary64) (k : Int32), x.IsFinite → x.toRat = s * 2 ^ e →
      ((x.powInt k).negative = true ↔ s = -1 ∧ Odd k.toInt) ∧
      (0 ≤ k → IsTwoPowFrom (-1074) (e * k.toInt) (x.powInt k)) ∧
      ∀ hk : k < 0, IsTwoPowFrom (-1023) (e * k.toInt) (x.powInt k) ∧
        (e * k.toInt ≤ -1024 → (Power.positive (· * ·) x (absWord k).toNat
          (toNat_absWord_pos (Int32.ne_of_lt hk))).IsInfinite) := by
  have hpow : (0 : ℚ) < 2 ^ e := zpow_pos two_pos e
  have habs : |s * 2 ^ e| = 2 ^ e := by
    rcases hs with rfl | rfl <;> simp [abs_of_pos hpow]
  constructor
  · obtain ⟨m, hm, hvalue⟩ := Magnitude.exists_value_eq_two_zpow hlow hhigh
    exact Binary64.exists_toRat_eq hm (habs.trans hvalue.symm)
  · intro x k hx hvalue
    have hx0 : x.toRat ≠ 0 := by
      rw [hvalue, ← abs_pos, habs]
      exact hpow
    have hsign : x.negative = true ↔ s = -1 := by
      rw [← Binary64.toRat_neg_iff hx0, hvalue, mul_neg_iff]
      simp only [hpow, hpow.not_gt, and_false, and_true, false_or]
      rcases hs with rfl | rfl <;> norm_num
    -- Sign and magnitude apart: the sign by the parity of `k`, the magnitude from that of `2 ^ e`.
    rw [← hvalue] at habs
    refine ⟨?_, Binary64.isTwoPowFrom_powInt hx habs, fun hk =>
      ⟨Binary64.isTwoPowFrom_powInt_of_neg hx habs hk, fun hq => ?_⟩⟩
    · rw [Binary64.negative_powInt (by omega), Bool.and_eq_true, decide_eq_true_iff, hsign]
    · simpa [Power.positive_eq_product] using Binary64.isInfinite_divisor hx habs hk hq

/-- The last power of minus two that the division does not lose, and the first that it loses. -/
theorem powers_of_powers_of_two_minus_two :
    let x : Binary64 := ⟨0xc000000000000000⟩
    ((-1 : ℚ) = 1 ∨ (-1 : ℚ) = -1) ∧ x.IsFinite ∧ x.toRat = -1 * 2 ^ (1 : ℤ) ∧
      (x.powInt (-1023)).negative = true ∧ |(x.powInt (-1023)).toRat| = 2 ^ (-1023 : ℤ) ∧
      (x.powInt (-1024)).IsZero := by
  intro x
  have hs : (-1 : ℚ) = 1 ∨ (-1 : ℚ) = -1 := .inr rfl
  have hx : x.IsFinite := by decide
  have hvalue : x.toRat = -1 * 2 ^ (1 : ℤ) := by
    have h := Binary64.toRat_of_signedUnits (x := x) (n := -2) (by decide +kernel)
    rw [h]
    norm_num
  have hpowers := (powers_of_powers_of_two (-1) hs 1 (by decide) (by decide)).2 x
  obtain ⟨hsign, -, hexact⟩ := hpowers (-1023) hx hvalue
  obtain ⟨-, -, hlost⟩ := hpowers (-1024) hx hvalue
  have hmagnitude := ((hexact (by decide)).1.inRange (by decide) (by decide)).2
  exact ⟨hs, hx, hvalue, hsign.mpr ⟨rfl, by decide⟩, hmagnitude,
    (hlost (by decide)).1.below (by decide)⟩

end TraceMath
