import Mathlib.Tactic.GCongr
import TraceMath.Proofs.Power.Signs

/-!
# The rounding error of a power

A number above `2 ^ -1022` has 53 significant bits, so a product that is such a number has a
relative error of at most `unitRoundoff`. The power `x ^ n` is a product of powers with exponents
that add up to `n`, and each product adds one error to those of its factors: there are `n - 1` in
the power.

* `Magnitude.abs_units_sub_le`: one rounding.
* `HasError.mul`: the errors of the factors and one more.
* `IsNormal.of_mul`: a product has 53 bits only if its factors have. So nothing is asked of the
  numbers on the way: it goes back to them from the power (`Power.formed_of_product`).
-/

namespace TraceMath

/-! ## One rounding -/

/-- Half the distance from one to the next number. -/
def unitRoundoff : ℚ := 2 ^ (-53 : ℤ)

theorem unitRoundoff_pos : 0 < unitRoundoff := zpow_pos two_pos _

theorem unitRoundoff_le_one : unitRoundoff ≤ 1 := zpow_le_one_of_nonpos₀ one_le_two (by decide)

namespace Magnitude

variable {m : ℕ} {u : ℚ}

/-- From the least number with 53 bits on, the next number is nearer than one part in `2 ^ 52`. -/
theorem binade_mul_units_succ_le (h : binade ≤ m) :
    binade * units (m + 1) ≤ (binade + 1) * units m := by
  obtain ⟨e, q, rfl, hq, hplace⟩ := exists_parts m
  have hplace' : binade ≤ q := by
    rcases hplace with rfl | hplace
    · omega
    · exact hplace
  rw [Nat.add_assoc, units_add hq.le hplace, units_add hq (.inr (Nat.le_succ_of_le hplace'))]
  have hgrid : binade * (q + 1) ≤ (binade + 1) * q := by nlinarith
  calc binade * ((q + 1) * 2 ^ e) = binade * (q + 1) * 2 ^ e := (Nat.mul_assoc _ _ _).symm
    _ ≤ (binade + 1) * q * 2 ^ e := Nat.mul_le_mul_right _ hgrid
    _ = (binade + 1) * (q * 2 ^ e) := Nat.mul_assoc _ _ _

/-- **The error of one rounding**, relative to the exact number. The number is at most half a gap
away, on the side of the smaller neighbour as on that of the larger one. -/
theorem abs_units_sub_le (h : Cell m u) (hlow : binade < m) (hhigh : m < infinity) :
    |units m - u| ≤ unitRoundoff * u := by
  have hbelow := (h.below.midpoint_le (Nat.sub_one_lt_of_lt hlow)).1
  have habove := ((h.above.resolve_left hhigh.ne).le_midpoint (Nat.lt_succ_self m)).1
  have hgap : (binade * units m : ℚ) ≤ (binade + 1) * units (m - 1) := by
    have := binade_mul_units_succ_le (Nat.le_sub_one_of_lt hlow)
    rw [Nat.sub_one_add_one (Nat.ne_zero_of_lt hlow)] at this
    exact_mod_cast this
  have hgap' : (binade * units (m + 1) : ℚ) ≤ (binade + 1) * units m := by
    exact_mod_cast binade_mul_units_succ_le hlow.le
  have hbinade : (binade : ℚ) = 2 ^ 52 := by norm_num [binade]
  have hroundoff : unitRoundoff = 1 / 2 ^ 53 := by norm_num [unitRoundoff]
  have hnonneg : (0 : ℚ) ≤ units m := Nat.cast_nonneg _
  rw [hbinade] at hgap hgap'
  rw [hroundoff, abs_le]
  constructor
  · -- The number is up to half of the gap above `m` larger, and that gap is small against `m`.
    linarith
  · -- It is up to half of the gap below `m` smaller, but not smaller than the neighbour there.
    linarith

end Magnitude

namespace Binary64

open Magnitude (value unitsPerOne_pos)

variable {x y z : Binary64} {i j n : ℕ}

/-! ## Numbers with 53 bits -/

/-- The number is finite and above `2 ^ -1022` in magnitude: it has 53 significant bits, and so has
the next smaller one. -/
def IsNormal (y : Binary64) : Prop := y.IsFinite ∧ (2 : ℚ) ^ (-1022 : ℤ) < |y.toRat|

theorem value_binade : value ℚ Magnitude.binade = 2 ^ (-1022 : ℤ) := by
  have hunits : Magnitude.units Magnitude.binade = 1 * 2 ^ 52 := by decide
  rw [value_of_units_eq hunits, Nat.cast_one, one_mul]
  rfl

theorem isNormal_iff : y.IsNormal ↔ Magnitude.binade < y.magnitude ∧ y.IsFinite := by
  rw [IsNormal, abs_toRat, ← value_binade, value, value,
    div_lt_div_iff_of_pos_right unitsPerOne_pos, Nat.cast_lt,
    Magnitude.units_strictMono.lt_iff_lt, and_comm]

/-- The product has 53 bits only if its factors have. Up to one it is at most as large as each of
them, and none is infinite; from one on it is at least as large, and none is small. -/
theorem IsNormal.of_mul (h : (y * z).IsNormal) (hy : SameSide x y) (hz : SameSide x z) :
    y.IsNormal ∧ z.IsNormal := by
  rw [isNormal_iff, IsFinite, magnitude_mul (hy.hasProduct hz)] at h
  obtain ⟨hlow, hhigh⟩ := h
  simp only [isNormal_iff, IsFinite]
  have hone : Magnitude.binade < Magnitude.one ∧ Magnitude.one < Magnitude.infinity := by decide
  rcases Nat.le_total x.magnitude Magnitude.one with hx | hx
  · -- Both factors are at least as large as the product, which is normal, and up to one.
    have hle := Magnitude.product_le_right (hy.le_one hx) hz.le_infinity
    have hle' := Magnitude.product_le_right (hz.le_one hx) hy.le_infinity
    rw [Magnitude.product_comm] at hle'
    have := hy.le_one hx
    have := hz.le_one hx
    omega
  · -- Both are at most as large as the product, which is finite, and from one on.
    have hge := Magnitude.le_product_right (hy.one_le hx) hy.le_infinity hz.le_infinity
    have hge' := Magnitude.le_product_right (hz.one_le hx) hz.le_infinity hy.le_infinity
    rw [Magnitude.product_comm] at hge'
    have := hy.one_le hx
    have := hz.one_le hx
    omega

/-- **The relative error of a product.** -/
theorem abs_mul_sub_le (h : HasProduct y z) (hy : y.IsFinite) (hz : z.IsFinite)
    (hyz : (y * z).IsNormal) :
    |(y * z).toRat - y.toRat * z.toRat| ≤ unitRoundoff * |y.toRat * z.toRat| := by
  obtain ⟨hlow, hhigh⟩ := isNormal_iff.mp hyz
  have hvalues : |value ℚ (y * z).magnitude - value ℚ y.magnitude * value ℚ z.magnitude| ≤
      unitRoundoff * (value ℚ y.magnitude * value ℚ z.magnitude) := by
    have hcell := Magnitude.cell_product hy hz
    rw [← magnitude_mul h] at hcell
    rw [Magnitude.abs_value_sub, div_le_iff₀ unitsPerOne_pos, mul_assoc unitRoundoff]
    exact Magnitude.abs_units_sub_le hcell hlow hhigh
  -- The signs of the factors make that of the product, so they do not show in the error.
  have hsign : |(y * z).toRat - y.toRat * z.toRat| =
      |value ℚ (y * z).magnitude - value ℚ y.magnitude * value ℚ z.magnitude| := by
    rw [toRat_eq (y * z), negative_mul h, toRat_eq y, toRat_eq z]
    cases y.negative <;> cases z.negative <;> simp [abs_sub_comm, neg_add_eq_sub]
  rwa [hsign, abs_mul, abs_toRat, abs_toRat]

/-! ## Errors of products of powers -/

/-- The number is the power, but for the relative errors of `n - 1` roundings. -/
structure HasError (x : Binary64) (n : ℕ) (y : Binary64) : Prop where
  lower : (1 - unitRoundoff) ^ (n - 1) * |x.toRat| ^ n ≤ |y.toRat|
  upper : |y.toRat| ≤ (1 + unitRoundoff) ^ (n - 1) * |x.toRat| ^ n

theorem HasError.refl (x : Binary64) : HasError x 1 x := by
  constructor <;> simp

/-- **The errors of the factors and one more.** -/
theorem HasError.mul (hi : 0 < i) (hj : 0 < j) (hy : HasError x i y) (hz : HasError x j z)
    (herror : |(y * z).toRat - y.toRat * z.toRat| ≤ unitRoundoff * |y.toRat * z.toRat|) :
    HasError x (i + j) (y * z) := by
  -- With the exponents `i + 1` and `j + 1` no subtraction is left in the bounds.
  obtain ⟨i, rfl⟩ := Nat.exists_eq_add_of_le' hi
  obtain ⟨j, rfl⟩ := Nat.exists_eq_add_of_le' hj
  obtain ⟨hylow, hyhigh⟩ := hy
  obtain ⟨hzlow, hzhigh⟩ := hz
  rw [Nat.add_sub_cancel] at hylow hyhigh hzlow hzhigh
  rw [abs_mul] at herror
  have hroundoff := unitRoundoff_pos
  have hone := sub_nonneg.mpr unitRoundoff_le_one
  have hexponent : i + 1 + (j + 1) - 1 = i + j + 1 := by omega
  -- In both directions: one rounding against the exact product, then the bounds of the factors.
  constructor
  · have hround : (1 - unitRoundoff) * (|y.toRat| * |z.toRat|) ≤ |(y * z).toRat| := by
      have := abs_sub_abs_le_abs_sub (y.toRat * z.toRat) (y * z).toRat
      rw [abs_sub_comm, abs_mul] at this
      linarith
    calc (1 - unitRoundoff) ^ (i + 1 + (j + 1) - 1) * |x.toRat| ^ (i + 1 + (j + 1))
        = (1 - unitRoundoff) * (((1 - unitRoundoff) ^ i * |x.toRat| ^ (i + 1)) *
            ((1 - unitRoundoff) ^ j * |x.toRat| ^ (j + 1))) := by rw [hexponent]; ring
      _ ≤ (1 - unitRoundoff) * (|y.toRat| * |z.toRat|) := by gcongr
      _ ≤ |(y * z).toRat| := hround
  · have hround : |(y * z).toRat| ≤ (1 + unitRoundoff) * (|y.toRat| * |z.toRat|) := by
      have := abs_sub_abs_le_abs_sub (y * z).toRat (y.toRat * z.toRat)
      rw [abs_mul] at this
      linarith
    calc |(y * z).toRat| ≤ (1 + unitRoundoff) * (|y.toRat| * |z.toRat|) := hround
      _ ≤ (1 + unitRoundoff) * (((1 + unitRoundoff) ^ i * |x.toRat| ^ (i + 1)) *
            ((1 + unitRoundoff) ^ j * |x.toRat| ^ (j + 1))) := by gcongr
      _ = (1 + unitRoundoff) ^ (i + 1 + (j + 1) - 1) * |x.toRat| ^ (i + 1 + (j + 1)) := by
        rw [hexponent]; ring

/-- **The error of a power.** The induction carries the error of each number that is normal: its
factors are normal, too, and it has one error more than they have together. -/
theorem hasError_product (hx : ¬x.IsNaN) (pos : 0 < n)
    (hnormal : (Power.product (· * ·) x n).IsNormal) :
    HasError x n (Power.product (· * ·) x n) := by
  refine sided_induction (P := fun i y => y.IsNormal → HasError x i y) hx
    (fun _ => HasError.refl x) ?_ pos hnormal
  intro i j y z hi hj hy hz hey hez h
  obtain ⟨hny, hnz⟩ := h.of_mul hy hz
  exact (hey hny).mul hi hj (hez hnz) (abs_mul_sub_le (hy.hasProduct hz) hny.1 hnz.1 h)

/-- If the power is normal, so is every number of the run. -/
theorem isNormal_of_mem_formed (hx : ¬x.IsNaN) (pos : 0 < n)
    (hnormal : (Power.product (· * ·) x n).IsNormal) :
    ∀ p ∈ Power.formed (· * ·) x n, p.1.IsNormal ∧ p.2.IsNormal ∧ (p.1 * p.2).IsNormal := by
  have hside := (sameSide_product hx pos).2
  have hmul : ∀ p ∈ Power.formed (· * ·) x n, (p.1 * p.2).IsNormal → p.1.IsNormal ∧ p.2.IsNormal :=
    fun p hp h => h.of_mul (hside p hp).1 (hside p hp).2
  intro p hp
  have hproduct := Power.formed_of_product hmul hnormal pos p hp
  obtain ⟨hleft, hright⟩ := hmul p hp hproduct
  exact ⟨hleft, hright, hproduct⟩

end Binary64

/-- **The rounding errors of a power.** If the power is finite and above `2 ^ -1022`, all its
roundings come to at most `k - 1` relative errors of `unitRoundoff`. No product on the way overflows
or becomes subnormal: each is finite, above `2 ^ -1022`, and within one such error of the exact
product of its operands. -/
theorem rounding_errors_of_power (x : Binary64) (k : Int32) (hx : x.IsFinite) (hk : 0 < k)
    (hfinite : (x.powInt k).IsFinite) (hnormal : 2 ^ (-1022 : ℤ) < |(x.powInt k).toRat|) :
    (1 - unitRoundoff) ^ (k.toInt.natAbs - 1) * |x.toRat| ^ k.toInt.natAbs ≤
        |(x.powInt k).toRat| ∧
      |(x.powInt k).toRat| ≤
        (1 + unitRoundoff) ^ (k.toInt.natAbs - 1) * |x.toRat| ^ k.toInt.natAbs ∧
      ∃ products,
        (Power.positiveM (Power.logged (· * ·)) x (absWord k).toNat
          (toNat_absWord_pos (Int32.ne_of_lt hk).symm)).run [] = (x.powInt k, products) ∧
        ∀ p ∈ products, p.1.IsFinite ∧ p.2.IsFinite ∧ (p.1 * p.2).IsFinite ∧
          2 ^ (-1022 : ℤ) < |(p.1 * p.2).toRat| ∧
          |(p.1 * p.2).toRat - p.1.toRat * p.2.toRat| ≤
            unitRoundoff * |p.1.toRat * p.2.toRat| := by
  have hnan : ¬x.IsNaN := by omega
  have hk0 : k ≠ 0 := (Int32.ne_of_lt hk).symm
  have pos := Power.natAbs_toInt_pos hk0
  rw [Binary64.powInt_of_pos x hk] at hfinite hnormal ⊢
  have herror := Binary64.hasError_product hnan pos ⟨hfinite, hnormal⟩
  refine ⟨herror.lower, herror.upper, _, Power.positiveM_logged_absWord (· * ·) x hk0,
    fun p hp => ?_⟩
  obtain ⟨hleft, hright, hproduct⟩ :=
    Binary64.isNormal_of_mem_formed hnan pos ⟨hfinite, hnormal⟩ p hp
  have hside := (Binary64.sameSide_product hnan pos).2 p hp
  exact ⟨hleft.1, hright.1, hproduct.1, hproduct.2, Binary64.abs_mul_sub_le
    (hside.1.hasProduct hside.2) hleft.1 hright.1 hproduct⟩

/-- The third power of the number nearest to a tenth: two roundings. -/
theorem rounding_errors_of_power_tenth :
    let x : Binary64 := ⟨0x3fb999999999999a⟩
    x.IsFinite ∧ (0 : Int32) < 3 ∧ (x.powInt 3).IsFinite ∧
      2 ^ (-1022 : ℤ) < |(x.powInt 3).toRat| ∧
      (1 - unitRoundoff) ^ 2 * |x.toRat| ^ 3 ≤ |(x.powInt 3).toRat| ∧
      |(x.powInt 3).toRat| ≤ (1 + unitRoundoff) ^ 2 * |x.toRat| ^ 3 := by
  intro x
  have hx : x.IsFinite := by decide
  have hk : (0 : Int32) < 3 := by decide
  have hpower : x.powInt 3 = x * (x * x) := by
    rw [Binary64.powInt_of_pos x hk]
    exact Power.product_two_pow_add (· * ·) x (r := 1) (i := 1) (by decide) (by decide)
  have hnormal : (x.powInt 3).IsNormal := by
    rw [hpower, Binary64.isNormal_iff]
    decide +kernel
  have herror := rounding_errors_of_power x 3 hx hk hnormal.1 hnormal.2
  exact ⟨hx, hk, hnormal.1, hnormal.2, herror.1, herror.2.1⟩

end TraceMath
