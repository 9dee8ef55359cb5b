import Mathlib.Analysis.Real.Sqrt
import TraceMath.Proofs.Binary64.Order
import TraceMath.Proofs.Routes

/-!
# Square roots

The root of a number is real, and as a rule no number. It is rounded from an integer: the integer
root of the scaled value, doubled, with one more bit for the remainder.

* `Magnitude.doubledRoot`: that integer. Even numbers compare with it as they do with the doubled
  real root (`cast_lt_two_mul_sqrt_iff`, `two_mul_sqrt_lt_cast_iff`), and all midpoints that come
  into question are even. So the integer and the real root are in one cell (`Cell.of_doubledRoot`).
* `Magnitude.midpoint_sq_ne`: the square of a midpoint has too many bits to be a number, so no root
  is a tie.
* `Binary64.IsClosest`: the number is nearer than every other one. `isClosest_sqrt` is the root of a
  positive number, `sqrt_eq_self` and `isNaN_sqrt_iff` are the other operands.
-/

namespace TraceMath

/-! ## The integer root -/

theorem floorSqrt_eq_sqrt (n : ℕ) : floorSqrt n = Nat.sqrt n := by
  induction n using Nat.strongRecOn with
  | ind n ih =>
    rw [Nat.eq_sqrt, floorSqrt]
    split
    · next h =>
      obtain rfl | rfl : n = 0 ∨ n = 1 := by omega
      · decide
      · decide
    · -- The root of a quarter is half the root, and the next bit is tried out.
      next h =>
      obtain ⟨hle, hlt⟩ := Nat.eq_sqrt.mp (ih (n / 4) (by omega))
      generalize floorSqrt (n / 4) = r at hle hlt ⊢
      have hlow : 2 * r * (2 * r) ≤ n := by
        have : 2 * r * (2 * r) = 4 * (r * r) := by ring
        omega
      have hhigh : n < (2 * r + 1 + 1) * (2 * r + 1 + 1) := by
        have : (2 * r + 1 + 1) * (2 * r + 1 + 1) = 4 * ((r + 1) * (r + 1)) := by ring
        omega
      dsimp only
      split
      · next h => exact ⟨h, hhigh⟩
      · next h => exact ⟨hlow, Nat.not_le.mp h⟩

namespace Magnitude

/-- The integer root of `n`, doubled, and one more if there is a remainder. -/
def doubledRoot (n : ℕ) : ℕ :=
  let r := floorSqrt n
  2 * r + if r * r = n then 0 else 1

/-- What is known of an integer root: it is exact, or `n` is between two squares. -/
theorem doubledRoot_cases (n : ℕ) :
    ∃ r, (doubledRoot n = 2 * r ∧ n = r * r) ∨
      (doubledRoot n = 2 * r + 1 ∧ r * r < n ∧ n < (r + 1) * (r + 1)) := by
  obtain ⟨hle, hlt⟩ := Nat.eq_sqrt.mp (floorSqrt_eq_sqrt n)
  refine ⟨floorSqrt n, ?_⟩
  unfold doubledRoot
  by_cases h : floorSqrt n * floorSqrt n = n
  · exact .inl ⟨by simp [h], h.symm⟩
  · exact .inr ⟨by simp [h], Nat.lt_of_le_of_ne hle h, hlt⟩

theorem two_mul_lt_doubledRoot_iff (n k : ℕ) : 2 * k < doubledRoot n ↔ k * k < n := by
  obtain ⟨r, ⟨hd, rfl⟩ | ⟨hd, hlow, hhigh⟩⟩ := doubledRoot_cases n
  · rw [hd, Nat.mul_self_lt_mul_self_iff]
    omega
  · rw [hd]
    constructor
    · intro h
      exact Nat.lt_of_le_of_lt (Nat.mul_self_le_mul_self (show k ≤ r by omega)) hlow
    · intro h
      have := Nat.mul_self_lt_mul_self_iff.mp (h.trans hhigh)
      omega

theorem doubledRoot_lt_two_mul_iff (n k : ℕ) : doubledRoot n < 2 * k ↔ n < k * k := by
  obtain ⟨r, ⟨hd, rfl⟩ | ⟨hd, hlow, hhigh⟩⟩ := doubledRoot_cases n
  · rw [hd, Nat.mul_self_lt_mul_self_iff]
    omega
  · rw [hd]
    constructor
    · intro h
      exact Nat.lt_of_lt_of_le hhigh (Nat.mul_self_le_mul_self (show r + 1 ≤ k by omega))
    · intro h
      have := Nat.mul_self_lt_mul_self_iff.mp (hlow.trans h)
      omega

/-! ## The real root -/

theorem cast_lt_two_mul_sqrt_iff {n k : ℕ} (h : k % 2 = 0) :
    (k : ℝ) < 2 * √(n : ℝ) ↔ k < doubledRoot n := by
  obtain ⟨j, rfl⟩ : ∃ j, k = 2 * j := ⟨k / 2, by omega⟩
  rw [two_mul_lt_doubledRoot_iff, Nat.cast_mul, Nat.cast_ofNat, mul_lt_mul_iff_right₀ two_pos,
    Real.lt_sqrt (Nat.cast_nonneg j), pow_two]
  exact_mod_cast Iff.rfl

theorem two_mul_sqrt_lt_cast_iff {n k : ℕ} (h : k % 2 = 0) :
    2 * √(n : ℝ) < (k : ℝ) ↔ doubledRoot n < k := by
  obtain ⟨j, rfl⟩ : ∃ j, k = 2 * j := ⟨k / 2, by omega⟩
  rw [doubledRoot_lt_two_mul_iff, Nat.cast_mul, Nat.cast_ofNat, mul_lt_mul_iff_right₀ two_pos,
    Real.sqrt_lt (Nat.cast_nonneg n) (Nat.cast_nonneg j), pow_two]
  exact_mod_cast Iff.rfl

theorem cast_eq_two_mul_sqrt {n k : ℕ} (h : k % 2 = 0) (heq : k = doubledRoot n) :
    (k : ℝ) = 2 * √(n : ℝ) := by
  apply le_antisymm
  · exact not_lt.mp (mt (two_mul_sqrt_lt_cast_iff h).mp (by omega))
  · exact not_lt.mp (mt (cast_lt_two_mul_sqrt_iff h).mp (by omega))

/-! ## Midpoints -/

/-- From the third binade on, values are even numbers of units. -/
theorem units_mod_two {m : ℕ} (h : 2 * binade ≤ m) : units m % 2 = 0 := by
  obtain ⟨e, q, rfl, hq, hplace⟩ := exists_parts m
  obtain ⟨e, rfl⟩ : ∃ d, e = d + 1 := by
    refine Nat.exists_eq_succ_of_ne_zero ?_
    rintro rfl
    omega
  rw [units_add hq.le hplace, Nat.pow_succ, ← Nat.mul_assoc, Nat.mul_mod_left]

/-- A midpoint, doubled, is odd but for its place. Above the first binades it has 54 bits. -/
theorem exists_midpoint_parts (m : ℕ) :
    ∃ e q, units m + units (m + 1) = (2 * q + 1) * 2 ^ e ∧ (e = 0 ∨ binade ≤ q) := by
  obtain ⟨e, q, rfl, hq, hplace⟩ := exists_parts m
  have hnext : units (e * binade + (q + 1)) = (q + 1) * 2 ^ e :=
    units_add hq (hplace.imp_right Nat.le_succ_of_le)
  refine ⟨e, q, ?_, hplace⟩
  rw [Nat.add_assoc, hnext, units_add hq.le hplace]
  ring

/-- A magnitude's odd part has at most 53 bits. -/
theorem exists_odd_parts {m : ℕ} (h : m ≠ 0) :
    ∃ c f, Odd c ∧ c < 2 * binade ∧ units m = c * 2 ^ f := by
  have hpos := units_pos h
  obtain ⟨a, d, rfl, hd, hplace⟩ := exists_parts m
  rw [units_add hd.le hplace] at hpos ⊢
  obtain ⟨b, c, hc, rfl⟩ := Nat.exists_eq_two_pow_mul_odd (Nat.pos_of_mul_pos_right hpos).ne'
  refine ⟨c, b + a, hc, Nat.lt_of_le_of_lt ?_ hd, by ring⟩
  exact Nat.le_mul_of_pos_left c (Nat.two_pow_pos b)

/-- **The square of a midpoint is not the scaled value of a magnitude**: its odd part has too many
bits. -/
theorem midpoint_sq_ne (m k : ℕ) :
    (units m + units (m + 1)) ^ 2 ≠ 4 * (units k * unitsPerOne) := by
  obtain ⟨e, q, hmid, hplace⟩ := exists_midpoint_parts m
  rw [hmid]
  intro h
  have hk : k ≠ 0 := by
    rintro rfl
    simp at h
  obtain ⟨c, f, hc, hlt, hunits⟩ := exists_odd_parts hk
  obtain ⟨g, hg⟩ : ∃ g, g = f + 2 + 1074 := ⟨_, rfl⟩
  have heq : (2 * q + 1) ^ 2 * 2 ^ (2 * e) = c * 2 ^ g := by
    calc (2 * q + 1) ^ 2 * 2 ^ (2 * e) = ((2 * q + 1) * 2 ^ e) ^ 2 := by ring
      _ = 4 * (c * 2 ^ f * unitsPerOne) := by rw [h, hunits]
      _ = c * (2 ^ (f + 2) * unitsPerOne) := by ring
      _ = c * 2 ^ g := by rw [hg, unitsPerOne_eq, ← Nat.pow_add]
  have hparts : (((2 * q + 1) ^ 2 : ℕ) : ℚ) * 2 ^ ((2 * e : ℕ) : ℤ) = c * 2 ^ (g : ℤ) := by
    rw [zpow_natCast, zpow_natCast]
    exact_mod_cast heq
  -- The odd parts are equal. That of a magnitude has 53 bits at most, but `2 * q + 1` alone has 54,
  -- unless the midpoint is subnormal, and then the powers of two differ.
  obtain ⟨hsq, hexp⟩ := Binary64.odd_mul_zpow_inj (odd_two_mul_add_one q).pow hc hparts
  have hbinade : binade ≤ q := hplace.resolve_left (by omega)
  have hself : 2 * q + 1 ≤ (2 * q + 1) ^ 2 := Nat.le_self_pow (by decide) _
  omega

/-- So no root is a midpoint. -/
theorem midpoint_ne_two_mul_sqrt (m k : ℕ) :
    (units m + units (m + 1) : ℝ) ≠ 2 * √((units k * unitsPerOne : ℕ) : ℝ) := by
  intro h
  apply midpoint_sq_ne m k
  have htwo : (2 : ℝ) ^ 2 = 4 := by norm_num
  have hsq : (units m + units (m + 1) : ℝ) ^ 2 = 4 * (units k * unitsPerOne : ℕ) := by
    rw [h, mul_pow, htwo, Real.sq_sqrt (Nat.cast_nonneg _)]
  exact_mod_cast hsq

/-! ## The cell of a root -/

/-- Off the midpoints, the magnitude of the cell is nearer than every other one. -/
theorem Cell.abs_sub_lt {m n : ℕ} {u : ℝ} (h : Cell m u)
    (htie : ∀ k, (units k + units (k + 1) : ℝ) ≠ 2 * u) (hn : n ≤ infinity) (hne : n ≠ m) :
    |(units m : ℝ) - u| < |(units n : ℝ) - u| := by
  rcases Nat.lt_or_gt_of_ne hne with hlt | hlt
  · have hle : (units n : ℝ) ≤ units (m - 1) := units_le_units (Nat.le_sub_one_of_lt hlt)
    have hmid := htie (m - 1)
    rw [Nat.sub_add_cancel (Nat.one_le_of_lt hlt)] at hmid
    have hbelow := (h.below.resolve_left (Nat.ne_zero_of_lt hlt)).resolve_right fun h => hmid h.1
    refine not_le.mp (mt (abs_sub_le_abs_sub_iff' (units_lt_units hlt) u).mp ?_)
    linarith
  · have hle : (units (m + 1) : ℝ) ≤ units n := units_le_units hlt
    have hfinite : m ≠ infinity := Nat.ne_of_lt (Nat.lt_of_lt_of_le hlt hn)
    have habove := (h.above.resolve_left hfinite).resolve_right fun h => htie m h.1.symm
    refine not_le.mp (mt (abs_sub_le_abs_sub_iff (units_lt_units hlt) u).mp ?_)
    linarith

/-- **The remainder's bit decides.** The doubled root is on the side of every even midpoint on which
the real root is. -/
theorem Cell.of_doubledRoot {m n : ℕ} (h : Cell m (doubledRoot n / 2 : ℝ)) (hm : 2 * binade < m) :
    Cell m √(n : ℝ) := by
  have hdouble : 2 * (doubledRoot n / 2 : ℝ) = doubledRoot n := mul_div_cancel₀ _ two_ne_zero
  -- From `2 * binade` on, all units are even, and so are twice the midpoints around `m`.
  have hbelow : (units (m - 1) + units m) % 2 = 0 := by
    have := units_mod_two (show 2 * binade ≤ m - 1 by omega)
    have := units_mod_two hm.le
    omega
  have habove : (units m + units (m + 1)) % 2 = 0 := by
    have := units_mod_two hm.le
    have := units_mod_two (show 2 * binade ≤ m + 1 by omega)
    omega
  refine ⟨h.le_infinity, h.below.imp_right ?_, h.above.imp_right ?_⟩
  · rw [hdouble, ← Nat.cast_add, Nat.cast_lt, Nat.cast_inj, ← cast_lt_two_mul_sqrt_iff hbelow]
    exact Or.imp_right fun h => ⟨cast_eq_two_mul_sqrt hbelow h.1, h.2⟩
  · rw [FromAbove, FromAbove, hdouble, ← Nat.cast_add, Nat.cast_lt, Nat.cast_inj,
      ← two_mul_sqrt_lt_cast_iff habove]
    exact Or.imp_right fun h => ⟨(cast_eq_two_mul_sqrt habove h.1.symm).symm, h.2⟩

/-- The root of a magnitude, rounded. -/
def root (m : ℕ) : ℕ := ofRatio (doubledRoot (units m * unitsPerOne)) 2

theorem root_lt (m : ℕ) : root m < signBit := ofRatio_lt _ _

variable {m : ℕ}

/-- The root of the least number is `2 ^ -537`. -/
theorem units_root_least : units (486 * binade) = 2 ^ 537 := by decide +kernel

theorem cell_root_doubledRoot (m : ℕ) :
    Cell (root m) (doubledRoot (units m * unitsPerOne) / 2 : ℝ) := by
  exact_mod_cast cell_ofRatio (K := ℝ) (doubledRoot (units m * unitsPerOne)) (show 0 < 2 by decide)

theorem two_mul_binade_lt_root (hm : m ≠ 0) : 2 * binade < root m := by
  have hscale : unitsPerOne = 2 ^ 537 * 2 ^ 537 := by rw [unitsPerOne_eq, ← Nat.pow_add]
  have hleast : 2 * 2 ^ 537 ≤ doubledRoot (units m * unitsPerOne) := by
    rw [← Nat.not_lt, doubledRoot_lt_two_mul_iff, ← hscale, Nat.not_lt]
    exact Nat.le_mul_of_pos_left _ (units_pos hm)
  have hle : (units (486 * binade) : ℝ) ≤ doubledRoot (units m * unitsPerOne) / 2 := by
    rw [units_root_least, le_div_iff₀ two_pos, mul_comm]
    exact_mod_cast hleast
  have := (cell_units (K := ℝ) (by decide)).le_of_le (cell_root_doubledRoot m) hle
  exact Nat.lt_of_lt_of_le (by decide) this

/-- The rounded root is in the cell of the real one. -/
theorem cell_root (hm : m ≠ 0) : Cell (root m) √((units m * unitsPerOne : ℕ) : ℝ) :=
  (cell_root_doubledRoot m).of_doubledRoot (two_mul_binade_lt_root hm)

/-- A root is at most one or at most the number itself, so it does not overflow. -/
theorem root_lt_infinity (hm : m ≠ 0) (hfinite : m < infinity) : root m < infinity := by
  have hmax : max one m < infinity := Nat.max_lt.mpr ⟨one_lt_infinity, hfinite⟩
  have hone : unitsPerOne ≤ units (max one m) := by
    rw [← units_one]
    exact units_strictMono.monotone (Nat.le_max_left one m)
  have hself : units m ≤ units (max one m) := units_strictMono.monotone (Nat.le_max_right one m)
  refine Nat.lt_of_le_of_lt ((cell_root hm).le_of_le (cell_units hmax.le) ?_) hmax
  rw [Real.sqrt_le_left (Nat.cast_nonneg _), pow_two]
  exact_mod_cast Nat.mul_le_mul hself hone

end Magnitude

namespace Binary64

open Magnitude (value unitsPerOne root unitsPerOne_pos)

variable {x : Binary64}

/-! ## Positive numbers -/

/-- The number is finite, and nearer to the real number than every other one. -/
structure IsClosest (r : ℝ) (y : Binary64) : Prop where
  isFinite : y.IsFinite
  dist_lt (z : Binary64) (hz : z.IsFinite) (hne : z ≠ y) :
    |(y.toRat : ℝ) - r| < |(z.toRat : ℝ) - r|

/-- A number that is the real number itself is the only closest one. -/
theorem IsClosest.eq_of_toRat {r : ℝ} {y z : Binary64} (h : IsClosest r y) (hz : z.IsFinite)
    (hr : (z.toRat : ℝ) = r) : y = z := by
  by_contra hne
  have hlt := h.dist_lt z hz (Ne.symm hne)
  rw [hr, sub_self, abs_zero] at hlt
  exact absurd hlt (not_lt.mpr (abs_nonneg _))

theorem cast_value (m : ℕ) : ((value ℚ m : ℚ) : ℝ) = value ℝ m := by
  rw [value, value]
  push_cast
  rfl

theorem toRat_pos_iff : 0 < x.toRat ↔ ¬x.IsZero ∧ x.negative = false := by
  by_cases h0 : x.IsZero
  · have := (toRat_eq_zero_iff x).mpr h0
    simp [this, h0]
  · have hne := mt (toRat_eq_zero_iff x).mp h0
    rw [← Bool.not_eq_true, ← toRat_neg_iff hne, not_lt, and_iff_right h0, lt_iff_le_and_ne,
      and_iff_left (Ne.symm hne)]

theorem toRat_of_not_negative (hs : x.negative = false) :
    (x.toRat : ℝ) = value ℝ x.magnitude := by
  rw [toRat_eq, hs, if_neg Bool.false_ne_true, cast_value]

/-- The real root, in units. -/
theorem sqrt_mul_unitsPerOne (hs : x.negative = false) :
    √(x.toRat : ℝ) * unitsPerOne =
      √((Magnitude.units x.magnitude * unitsPerOne : ℕ) : ℝ) := by
  have hpos := unitsPerOne_pos (K := ℝ)
  calc √(x.toRat : ℝ) * unitsPerOne
      = √(x.toRat : ℝ) * √((unitsPerOne : ℝ) * unitsPerOne) := by rw [Real.sqrt_mul_self hpos.le]
    _ = √((x.toRat : ℝ) * (unitsPerOne * unitsPerOne)) :=
        (Real.sqrt_mul' _ (mul_nonneg hpos.le hpos.le)).symm
    _ = √((Magnitude.units x.magnitude * unitsPerOne : ℕ) : ℝ) := by
        rw [toRat_of_not_negative hs, value, ← mul_assoc, div_mul_cancel₀ _ hpos.ne', Nat.cast_mul]

theorem parts_sqrt (hx : x.IsFinite) (hpos : 0 < x.toRat) :
    x.sqrt.negative = false ∧ x.sqrt.magnitude = root x.magnitude := by
  obtain ⟨h0, hs⟩ := toRat_pos_iff.mp hpos
  have hroot : x.sqrt = ofParts false (root x.magnitude) := by
    rw [sqrt, if_neg (by omega), if_neg h0, hs, if_neg Bool.false_ne_true, if_neg (by omega)]
    rfl
  have hlt := Magnitude.root_lt x.magnitude
  simp [hroot, hlt]

theorem toRat_sqrt_pos (hx : x.IsFinite) (hpos : 0 < x.toRat) : 0 < x.sqrt.toRat := by
  obtain ⟨hneg, hmag⟩ := parts_sqrt hx hpos
  have := Magnitude.two_mul_binade_lt_root (toRat_pos_iff.mp hpos).1
  exact toRat_pos_iff.mpr ⟨by omega, hneg⟩

/-- The number on the other side of zero is farther away. -/
theorem abs_sub_lt_abs_neg_sub {v r : ℝ} (hv : 0 < v) (hr : 0 < r) : |v - r| < |-v - r| := by
  rw [← neg_add', abs_neg, abs_of_pos (add_pos hv hr), abs_lt]
  constructor <;> linarith

/-- **The root of a positive number** is the number that is closest to the real root. -/
theorem isClosest_sqrt (hx : x.IsFinite) (hpos : 0 < x.toRat) :
    IsClosest √(x.toRat : ℝ) x.sqrt := by
  obtain ⟨h0, hs⟩ := toRat_pos_iff.mp hpos
  obtain ⟨hneg, hmag⟩ := parts_sqrt hx hpos
  have hr : 0 < √(x.toRat : ℝ) := Real.sqrt_pos.mpr (Rat.cast_pos.mpr hpos)
  refine ⟨?_, fun z hz hne => ?_⟩
  · rw [IsFinite, hmag]
    exact Magnitude.root_lt_infinity h0 hx
  · by_cases hm : z.magnitude = root x.magnitude
    · -- The one other number of this magnitude is below zero.
      have hzneg : z.negative = true := by
        by_contra h
        exact hne (ext_parts (by rw [hneg, Bool.eq_false_iff.mpr h]) (by rw [hmag, hm]))
      have hz : z.toRat = -x.sqrt.toRat := by
        rw [toRat_eq, toRat_eq, hzneg, hneg, hm, hmag, if_pos rfl, if_neg Bool.false_ne_true]
      rw [hz, Rat.cast_neg]
      exact abs_sub_lt_abs_neg_sub (Rat.cast_pos.mpr (toRat_sqrt_pos hx hpos)) hr
    · have hlt := (Magnitude.cell_root h0).abs_sub_lt
        (fun k => Magnitude.midpoint_ne_two_mul_sqrt k x.magnitude) hz.le hm
      rw [← sqrt_mul_unitsPerOne hs] at hlt
      calc |(x.sqrt.toRat : ℝ) - √(x.toRat : ℝ)|
          = |value ℝ (root x.magnitude) - √(x.toRat : ℝ)| := by
            rw [toRat_of_not_negative hneg, hmag]
        _ < |value ℝ z.magnitude - √(x.toRat : ℝ)| := by
            rw [Magnitude.abs_value_sub, Magnitude.abs_value_sub]
            exact div_lt_div_of_pos_right hlt unitsPerOne_pos
        _ ≤ |(z.toRat : ℝ) - √(x.toRat : ℝ)| := by
            have h := abs_abs_sub_abs_le_abs_sub (z.toRat : ℝ) √(x.toRat : ℝ)
            rwa [← Rat.cast_abs, abs_toRat, cast_value, abs_of_pos hr] at h

/-- A root that is a number is not rounded. -/
theorem sqrt_eq_of_mul_self {y : Binary64} (hx : x.IsFinite) (hpos : 0 < x.toRat)
    (hy : y.IsFinite) (hy0 : 0 ≤ y.toRat) (h : y.toRat * y.toRat = x.toRat) : x.sqrt = y := by
  refine (isClosest_sqrt hx hpos).eq_of_toRat hy ?_
  rw [← h, Rat.cast_mul, Real.sqrt_mul_self (Rat.cast_nonneg.mpr hy0)]

/-! ## The other operands -/

theorem sqrt_eq_self (h : x.IsZero ∨ x = infinity false) : x.sqrt = x := by
  rcases h with h | rfl
  · rw [sqrt, if_neg (by omega), if_pos h]
  · decide

theorem isNaN_sqrt_of_negative (h0 : ¬x.IsZero) (hs : x.negative = true) : x.sqrt.IsNaN := by
  have hnan : x.sqrt = nan := by
    rw [sqrt, if_neg h0, if_pos hs, ite_self]
  rw [hnan]
  exact isNaN_nan

/-- **Below zero there is no root**, and of a NaN there is none. -/
theorem isNaN_sqrt_iff :
    x.sqrt.IsNaN ↔ x.IsNaN ∨ x = infinity true ∨ x.IsFinite ∧ x.toRat < 0 := by
  rcases isNaN_or_isInfinite_or_isFinite x with hx | hx | hx
  · rw [sqrt, if_pos hx]
    exact iff_of_true isNaN_nan (.inl hx)
  · cases hs : x.negative with
    | false =>
      obtain rfl := eq_infinity_iff.mpr ⟨hx, hs⟩
      decide
    | true =>
      obtain rfl := eq_infinity_iff.mpr ⟨hx, hs⟩
      decide
  · rcases lt_trichotomy x.toRat 0 with hneg | hzero | hpos
    · have hs := (toRat_neg_iff hneg.ne).mp hneg
      have h0 := mt (toRat_eq_zero_iff x).mpr hneg.ne
      exact iff_of_true (isNaN_sqrt_of_negative h0 hs) (.inr (.inr ⟨hx, hneg⟩))
    · rw [sqrt_eq_self (.inl ((toRat_eq_zero_iff x).mp hzero))]
      refine iff_of_false (by omega) ?_
      rintro (h | rfl | ⟨-, h⟩)
      · omega
      · exact absurd hx (by decide)
      · exact h.ne hzero
    · have hle : root x.magnitude ≤ Magnitude.infinity := Magnitude.ofRatio_le_infinity _ _
      refine iff_of_false (by rw [IsNaN, (parts_sqrt hx hpos).2]; omega) ?_
      rintro (h | rfl | ⟨-, h⟩)
      · omega
      · exact absurd hx (by decide)
      · exact absurd hpos (not_lt.mpr h.le)

end Binary64

open Binary64 (IsClosest)

/-! ## Every operand on every route -/

/-- **Square roots are correctly rounded.** The root of a positive finite number is positive, and
nearer to the real root than every other number, so there is no tie. It is exact if the real root is
a number. A zero of either sign and the positive infinity are their own roots; a NaN and the numbers
below zero, and no others, give a NaN. It is the same root for the opcode, its tag, the exported
helper and generated code, in every build. -/
theorem square_roots_are_correctly_rounded :
    (∀ x : Binary64,
      (x.IsFinite → 0 < x.toRat →
        0 < x.sqrt.toRat ∧ IsClosest √(x.toRat : ℝ) x.sqrt ∧
        ∀ y : Binary64, y.IsFinite → 0 ≤ y.toRat → y.toRat * y.toRat = x.toRat → x.sqrt = y) ∧
      (x.IsZero ∨ x = .infinity false → x.sqrt = x) ∧
      (x.sqrt.IsNaN ↔ x.IsNaN ∨ x = .infinity true ∨ x.IsFinite ∧ x.toRat < 0)) ∧
    ∀ b, ∃ j, Jit.link b = .ok j ∧ ∀ x,
      fold b .sqrt x = .ok x.sqrt ∧ foldTag b 3 x = .ok x.sqrt ∧
      Helper.call b "tracejit_vm_foldfpm" (.floatTag x 3) = .value (.float x.sqrt) ∧
      j.fold .sqrt x = .value x.sqrt := by
  refine ⟨fun x => ⟨fun hx hpos => ⟨?_, ?_, ?_⟩, ?_, ?_⟩, fun b => ?_⟩
  · exact Binary64.toRat_sqrt_pos hx hpos
  · exact Binary64.isClosest_sqrt hx hpos
  · exact fun y => Binary64.sqrt_eq_of_mul_self hx hpos
  · exact Binary64.sqrt_eq_self
  · exact Binary64.isNaN_sqrt_iff
  · obtain ⟨j, hj, -⟩ := Jit.exists_link b
    refine ⟨j, hj, fun x => ?_⟩
    have hfold : fold b .sqrt x = .ok x.sqrt := rfl
    have htag : foldTag b 3 x = .ok x.sqrt := (foldTag_tag b .sqrt x).trans hfold
    refine ⟨hfold, htag, Helper.call_fold_of_ok htag, ?_⟩
    simp [Jit.fold_of_link hj, hfold]

/-- Two units, a subnormal number with an irrational root, and its root's upper neighbour; an exact
root; the negative zero, and the negative infinity. -/
theorem square_roots_are_correctly_rounded_two_units :
    let x : Binary64 := ⟨2⟩
    let y : Binary64 := ⟨0x1e66a09e667f3bcd⟩
    let z : Binary64 := ⟨0x1e66a09e667f3bce⟩
    let four : Binary64 := ⟨0x4010000000000000⟩
    let two : Binary64 := ⟨0x4000000000000000⟩
    (x.IsFinite ∧ 0 < x.toRat ∧ x.sqrt = y ∧ z.IsFinite ∧ z ≠ y ∧
      |(y.toRat : ℝ) - √(x.toRat : ℝ)| < |(z.toRat : ℝ) - √(x.toRat : ℝ)|) ∧
    (four.IsFinite ∧ 0 < four.toRat ∧ two.IsFinite ∧ 0 ≤ two.toRat ∧
      two.toRat * two.toRat = four.toRat ∧ four.sqrt = two) ∧
    ((Binary64.zero true).IsZero ∧ (Binary64.zero true).sqrt = .zero true) ∧
    (Binary64.infinity true).sqrt.IsNaN ∧
    ∃ j, Jit.link .native = .ok j ∧ j.fold .sqrt x = .value y := by
  intro x y z four two
  obtain ⟨hroots, hroutes⟩ := square_roots_are_correctly_rounded
  have hx : x.IsFinite := by decide
  have hpos : 0 < x.toRat := Binary64.toRat_pos_iff.mpr (by decide)
  have hy : x.sqrt = y := by decide +kernel
  have hz : z.IsFinite := by decide
  have hne : z ≠ y := by decide
  have hfour : four.toRat = 4 := by
    exact_mod_cast Binary64.toRat_of_signedUnits (x := four) (n := 4) (by decide +kernel)
  have htwo : two.toRat = 2 := by
    exact_mod_cast Binary64.toRat_of_signedUnits (x := two) (n := 2) (by decide +kernel)
  have hfinite : four.IsFinite := by decide
  have hfinite' : two.IsFinite := by decide
  have hpos' : 0 < four.toRat := by rw [hfour]; norm_num
  have hnonneg : 0 ≤ two.toRat := by rw [htwo]; norm_num
  have hsq : two.toRat * two.toRat = four.toRat := by rw [htwo, hfour]; norm_num
  have hzero : (Binary64.zero true).IsZero := by decide
  obtain ⟨-, hclosest, -⟩ := (hroots x).1 hx hpos
  obtain ⟨-, -, hexact⟩ := (hroots four).1 hfinite hpos'
  obtain ⟨j, hj, hfold⟩ := hroutes .native
  rw [hy] at hclosest
  refine ⟨⟨hx, hpos, hy, hz, hne, hclosest.dist_lt z hz hne⟩,
    ⟨hfinite, hpos', hfinite', hnonneg, hsq, hexact two hfinite' hnonneg hsq⟩,
    ⟨hzero, (hroots _).2.1 (.inl hzero)⟩, (hroots _).2.2.mpr (.inr (.inl rfl)), j, hj, ?_⟩
  obtain ⟨-, -, -, hjit⟩ := hfold x
  rw [hjit, hy]

end TraceMath
