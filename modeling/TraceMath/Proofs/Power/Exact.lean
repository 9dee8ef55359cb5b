import TraceMath.Proofs.Binary64.Values
import TraceMath.Proofs.Power.Schedule

/-!
# Powers without rounding

A power is a product of powers with smaller exponents. If its exact value is a number, so are
theirs, and then no product on the way is rounded. The reason is in the odd significands
(`IsScaled`): that of a power is the power of that of `x`, so the smaller powers have shorter ones;
and their sizes and grids are between those of one and those of the power.

* `IsScaled.pow_of_le`: below a power that is a number there are only numbers.
* `IsExactPower.mul`: so the product of two exact powers is exact up to there.

Then a positive power is exact, and a negative one is rounded once, by the division.
-/

namespace TraceMath.Binary64

/-! ## Powers that are numbers -/

section Scaled

variable {q : ℚ} {c d j n : ℕ} {e f : ℤ} (h : IsScaled q c e)

include h

theorem IsScaled.abs_pow_eq (n : ℕ) : |q ^ n| = (c ^ n : ℕ) * 2 ^ (n * e) := by
  rw [abs_pow, h.eq, mul_pow, Nat.cast_pow, ← zpow_natCast (2 ^ e), ← zpow_mul, mul_comm e]

/-- The significand of a power is the power of the significand. -/
theorem IsScaled.pow_eq (hpow : IsScaled (q ^ n) d f) : c ^ n = d ∧ n * e = f := by
  apply odd_mul_zpow_inj h.odd.pow hpow.odd
  rw [← hpow.eq, h.abs_pow_eq]

theorem IsScaled.pow_of_le (hpow : IsScaled (q ^ n) d f) (hj : j ≤ n) :
    IsScaled (q ^ j) (c ^ j) (j * e) := by
  obtain ⟨rfl, rfl⟩ := h.pow_eq hpow
  have hsize := hpow.lt_infinity
  refine ⟨h.odd.pow, ?_, ?_, h.abs_pow_eq j, ?_⟩
  · exact Nat.lt_of_le_of_lt (Nat.pow_le_pow_right h.odd.pos hj) hpow.lt_significand
  · -- The exponents of the smaller powers are between zero and that of the power.
    have hgrid := hpow.le_exponent
    rcases le_total 0 e with he | he
    · have := mul_nonneg (Int.natCast_nonneg j) he
      omega
    · exact hgrid.trans (mul_le_mul_of_nonpos_right (Int.ofNat_le.mpr hj) he)
  · rw [abs_pow] at hsize ⊢
    rcases le_total 1 |q| with hq | hq
    · exact (pow_le_pow_right₀ hq hj).trans_lt hsize
    · exact (pow_le_one₀ (abs_nonneg q) hq).trans_lt (one_lt_pow₀ one_lt_two (by decide))

end Scaled

/-- The number is finite, and it is the exact power. -/
structure IsExactPower (x : Binary64) (n : ℕ) (y : Binary64) : Prop where
  isFinite : y.IsFinite
  toRat_eq : y.toRat = x.toRat ^ n

variable {x y z : Binary64} {i j n : ℕ}

theorem IsExactPower.exists_of_le (hx : x.IsFinite) (hx0 : x.toRat ≠ 0)
    (hz : IsExactPower x n z) (hj : j ≤ n) : ∃ y, IsExactPower x j y := by
  obtain ⟨c, e, hscaled⟩ := (isScaled_iff hx0).mp ⟨x, hx, rfl⟩
  obtain ⟨d, f, hpow⟩ := (isScaled_iff (pow_ne_zero n hx0)).mp ⟨z, hz.isFinite, hz.toRat_eq⟩
  obtain ⟨y, hy, heq⟩ :=
    (isScaled_iff (pow_ne_zero j hx0)).mpr ⟨_, _, hscaled.pow_of_le hpow hj⟩
  exact ⟨y, hy, heq⟩

/-- **Up to a power that is a number, the product of exact powers is exact.** -/
theorem IsExactPower.mul (hx : x.IsFinite) (hx0 : x.toRat ≠ 0) {w : Binary64}
    (hw : IsExactPower x n w) (hij : i + j ≤ n) (hy : IsExactPower x i y)
    (hz : IsExactPower x j z) : IsExactPower x (i + j) (y * z) := by
  obtain ⟨v, hv⟩ := hw.exists_of_le hx hx0 hij
  have hproduct : v.toRat = y.toRat * z.toRat := by
    rw [hv.toRat_eq, hy.toRat_eq, hz.toRat_eq, pow_add]
  have hne : v.toRat ≠ 0 := by
    rw [hv.toRat_eq]
    exact pow_ne_zero _ hx0
  rwa [mul_eq_of_toRat_eq hy.isFinite hz.isFinite hv.isFinite hproduct hne]

/-! ## Powers on the way -/

theorem IsExactPower.unique (hx0 : x.toRat ≠ 0) (hy : IsExactPower x n y)
    (hz : IsExactPower x n z) : y = z := by
  apply ext_toRat (hy.toRat_eq.trans hz.toRat_eq.symm)
  rw [hy.toRat_eq]
  exact pow_ne_zero n hx0

/-- By `formed_induction`: `x` is its first power, and products of exact powers are exact. -/
theorem IsExactPower.product_eq (hx : x.IsFinite) (hx0 : x.toRat ≠ 0) (hz : IsExactPower x n z)
    (pos : 0 < n) : Power.product (· * ·) x n = z ∧
      ∀ p ∈ Power.formed (· * ·) x n, p.1.IsFinite ∧ p.2.IsFinite ∧ (p.1 * p.2).IsFinite ∧
        (p.1 * p.2).toRat = p.1.toRat * p.2.toRat := by
  have hone : IsExactPower x 1 x := ⟨hx, (pow_one _).symm⟩
  have hmul {i j : ℕ} {y w : Binary64} (_ : 0 < i) (_ : 0 < j) (hij : i + j ≤ n)
      (hy : IsExactPower x i y) (hw : IsExactPower x j w) : IsExactPower x (i + j) (y * w) :=
    hz.mul hx hx0 hij hy hw
  obtain ⟨hpower, hformed⟩ := Power.formed_induction hone hmul pos
  rw [Power.positive_eq_product] at hpower
  refine ⟨hpower.unique hx0 hz, fun p hp => ?_⟩
  obtain ⟨i, j, -, -, hij, hi, hj⟩ := hformed p hp
  have hproduct := hz.mul hx hx0 hij hi hj
  refine ⟨hi.isFinite, hj.isFinite, hproduct.isFinite, ?_⟩
  rw [hproduct.toRat_eq, hi.toRat_eq, hj.toRat_eq, pow_add]

end TraceMath.Binary64

namespace TraceMath

open Binary64 (IsRounded IsExactPower)

/-- **A power whose exact value is a number.** For a positive exponent it is computed exactly. For a
negative one, where the exact value of the positive power is a number `z`, it is `1 / z`, rounded
once. No product on the way is rounded, overflows or underflows: its value is the product of the
values of its operands. -/
theorem exact_powers_are_not_rounded (x z : Binary64) (k : Int32) (hx : x.IsFinite)
    (hx0 : ¬x.IsZero) (hz : z.IsFinite) (hpow : z.toRat = x.toRat ^ k.toInt.natAbs) :
    (0 < k → x.powInt k = z) ∧
    (k < 0 → x.powInt k = .one / z ∧ IsRounded (x.toRat ^ k.toInt) (x.powInt k)) ∧
    ∀ hk : k ≠ 0, ∃ products,
      (Power.positiveM (Power.logged (· * ·)) x (absWord k).toNat (toNat_absWord_pos hk)).run [] =
        (z, products) ∧
      ∀ p ∈ products, p.1.IsFinite ∧ p.2.IsFinite ∧ (p.1 * p.2).IsFinite ∧
        (p.1 * p.2).toRat = p.1.toRat * p.2.toRat := by
  have hne : x.toRat ≠ 0 := mt (Binary64.toRat_eq_zero_iff x).mp hx0
  have hexact : IsExactPower x k.toInt.natAbs z := ⟨hz, hpow⟩
  refine ⟨fun hk => ?_, fun hk => ?_, fun hk => ?_⟩
  · have hk0 : k ≠ 0 := (Int32.ne_of_lt hk).symm
    rw [Binary64.powInt, Power.integer_of_ne_zero _ _ _ _ hk0, if_pos hk]
    exact (hexact.product_eq hx hne (Power.natAbs_toInt_pos hk0)).1
  · have hk0 : k ≠ 0 := Int32.ne_of_lt hk
    have hpower : x.powInt k = .one / z := by
      rw [Binary64.powInt, Power.integer_of_ne_zero _ _ _ _ hk0, if_neg (Int32.lt_asymm hk),
        (hexact.product_eq hx hne (Power.natAbs_toInt_pos hk0)).1]
    have hneg : k.toInt = -(k.toInt.natAbs : ℤ) := by
      rw [Int32.lt_iff_toInt_lt, Int32.toInt_zero] at hk
      omega
    refine ⟨hpower, ?_⟩
    rw [hpower, hneg, zpow_neg, zpow_natCast, ← hpow]
    apply Binary64.isRounded_one_div hz
    rw [hpow]
    exact pow_ne_zero _ hne
  · obtain ⟨hproduct, hformed⟩ := hexact.product_eq hx hne (Power.natAbs_toInt_pos hk)
    refine ⟨_, ?_, hformed⟩
    rw [Power.positiveM_logged_absWord _ x hk, hproduct]

/-- The last power of `-3` that is a number, and one over it, which is not. -/
theorem exact_powers_are_not_rounded_three :
    Binary64.powInt ⟨0xc008000000000000⟩ 33 = ⟨0xc333bfefa65abb83⟩ ∧
      IsRounded ((-3) ^ (-33 : ℤ)) (Binary64.powInt ⟨0xc008000000000000⟩ (-33)) := by
  have hx : Binary64.toRat ⟨0xc008000000000000⟩ = (-3 : ℤ) :=
    Binary64.toRat_of_signedUnits (by decide +kernel)
  have hz : Binary64.toRat ⟨0xc333bfefa65abb83⟩ = ((-3) ^ 33 : ℤ) :=
    Binary64.toRat_of_signedUnits (by decide +kernel)
  have hpow : Binary64.toRat ⟨0xc333bfefa65abb83⟩ =
      Binary64.toRat ⟨0xc008000000000000⟩ ^ 33 := by
    rw [hx, hz, Int.cast_pow]
  have hpositive := exact_powers_are_not_rounded ⟨0xc008000000000000⟩ ⟨0xc333bfefa65abb83⟩ 33
    (by decide) (by decide) (by decide) hpow
  have hnegative := exact_powers_are_not_rounded ⟨0xc008000000000000⟩ ⟨0xc333bfefa65abb83⟩ (-33)
    (by decide) (by decide) (by decide) hpow
  refine ⟨hpositive.1 (by decide), ?_⟩
  have hrounded := (hnegative.2.1 (by decide)).2
  rw [hx] at hrounded
  exact_mod_cast hrounded

end TraceMath
