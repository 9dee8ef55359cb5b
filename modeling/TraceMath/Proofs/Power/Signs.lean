import TraceMath.Proofs.Binary64.Order
import TraceMath.Proofs.Power.Runs

/-!
# Sign, class and order of a power

The numbers of a run stay on the side of one on which the base is (`Binary64.SameSide`): up to one
in magnitude, or from one on. So zero and infinity never meet, every product exists, and a power is
a NaN only if its base is. Sign and magnitude can then be followed apart: the sign by the parity of
the exponent, and the magnitudes of two runs in lockstep.

* `SameSide.mul`: the step; `sameSide_product` and `sided_induction`: the run.
* `negative_product`, `magnitude_product_of_product_self` and `magnitude_product_le`: signs, zeros
  and infinities, and the order of the magnitudes.
-/

namespace TraceMath.Binary64

variable {x y z : Binary64} {n : ℕ}

/-! ## The side of one -/

/-- The number `y` is not a NaN, and it is on the side of one on which `x` is. -/
structure SameSide (x y : Binary64) : Prop where
  le_infinity : y.magnitude ≤ Magnitude.infinity
  le_one : x.magnitude ≤ Magnitude.one → y.magnitude ≤ Magnitude.one
  one_le : Magnitude.one ≤ x.magnitude → Magnitude.one ≤ y.magnitude

theorem SameSide.refl (hx : ¬x.IsNaN) : SameSide x x := ⟨Nat.le_of_not_lt hx, id, id⟩

theorem SameSide.hasProduct (hy : SameSide x y) (hz : SameSide x z) : HasProduct y z := by
  -- There is no infinity on one side, and no zero on the other.
  have hone : 0 < Magnitude.one ∧ Magnitude.one < Magnitude.infinity := by decide
  have hside := Nat.le_total x.magnitude Magnitude.one
  obtain ⟨hy, hyle, hyge⟩ := hy
  obtain ⟨hz, hzle, hzge⟩ := hz
  constructor <;> simp only [IsNaN, IsZero, IsInfinite] <;> omega

/-- **A product stays on the side of its factors.** -/
theorem SameSide.mul (hy : SameSide x y) (hz : SameSide x z) : SameSide x (y * z) := by
  have hproduct := magnitude_mul (hy.hasProduct hz)
  refine ⟨?_, fun hx => ?_, fun hx => ?_⟩
  · rw [hproduct]
    exact Magnitude.product_le_infinity _ _
  · rw [hproduct]
    exact (Magnitude.product_le_right (hy.le_one hx) hz.le_infinity).trans (hz.le_one hx)
  · rw [hproduct]
    exact (hz.one_le hx).trans
      (Magnitude.le_product_right (hy.one_le hx) hy.le_infinity hz.le_infinity)

/-- Every number of a run is on the side of the base, so every product of it exists. -/
theorem sameSide_product (hx : ¬x.IsNaN) (pos : 0 < n) :
    SameSide x (Power.product (· * ·) x n) ∧
      ∀ p ∈ Power.formed (· * ·) x n, SameSide x p.1 ∧ SameSide x p.2 := by
  have hmul {i j : ℕ} {y z : Binary64} (_ : 0 < i) (_ : 0 < j) (_ : i + j ≤ n)
      (hy : SameSide x y) (hz : SameSide x z) : SameSide x (y * z) := hy.mul hz
  obtain ⟨hpower, hformed⟩ :=
    Power.formed_induction (P := fun _ y => SameSide x y) (SameSide.refl hx) hmul pos
  rw [Power.positive_eq_product] at hpower
  refine ⟨hpower, fun p hp => ?_⟩
  obtain ⟨_, _, -, -, -, hleft, hright⟩ := hformed p hp
  exact ⟨hleft, hright⟩

/-- **Induction along the run of a number.** What is said of a product may use that its factors are
on the side of the base, so that they have one. -/
theorem sided_induction {P : ℕ → Binary64 → Prop} (hx : ¬x.IsNaN) (hone : P 1 x)
    (hmul : ∀ {i j : ℕ} {y z : Binary64}, 0 < i → 0 < j → SameSide x y → SameSide x z →
      P i y → P j z → P (i + j) (y * z))
    (pos : 0 < n) : P n (Power.product (· * ·) x n) := by
  suffices h : SameSide x (Power.product (· * ·) x n) ∧ P n (Power.product (· * ·) x n) from h.2
  refine Power.product_induction (P := fun i y => SameSide x y ∧ P i y)
    ⟨SameSide.refl hx, hone⟩ ?_ pos le_rfl
  rintro i j y z hi hj - ⟨hy, hpy⟩ ⟨hz, hpz⟩
  exact ⟨hy.mul hz, hmul hi hj hy hz hpy hpz⟩

/-! ## NaN -/

theorem isNaN_product (hx : x.IsNaN) (pos : 0 < n) : (Power.product (· * ·) x n).IsNaN := by
  refine Power.product_induction (P := fun _ (y : Binary64) => y.IsNaN) hx ?_ pos le_rfl
  intro i j y z _ _ _ hy _
  exact isNaN_mul_iff.mpr fun h => h.left hy

/-! ## Signs -/

/-- The sign bits of two powers of a number make up that of their product. -/
theorem and_odd_bne (s : Bool) (i j : ℕ) :
    ((s && decide (Odd i)) != (s && decide (Odd j))) = (s && decide (Odd (i + j))) := by
  have hodd := Nat.odd_add (m := i) (n := j)
  have heven := Nat.not_odd_iff_even (n := j)
  cases s <;> grind

/-- **The sign of a power** is that of the base at the odd exponents, and a clear one at the even
ones. -/
theorem negative_product (hx : ¬x.IsNaN) (pos : 0 < n) :
    (Power.product (· * ·) x n).negative = (x.negative && decide (Odd n)) := by
  refine sided_induction (P := fun i y => y.negative = (x.negative && decide (Odd i))) hx ?_ ?_ pos
  · rw [decide_eq_true odd_one, Bool.and_true]
  · intro i j y z _ _ hy hz hsy hsz
    rw [negative_mul (hy.hasProduct hz), hsy, hsz, and_odd_bne]

/-! ## Magnitudes -/

/-- A magnitude that is its own square (zero, one, infinity) is that of every power. -/
theorem magnitude_product_of_product_self (hx : ¬x.IsNaN)
    (hself : Magnitude.product x.magnitude x.magnitude = x.magnitude) (pos : 0 < n) :
    (Power.product (· * ·) x n).magnitude = x.magnitude := by
  refine sided_induction (P := fun _ y => y.magnitude = x.magnitude) hx rfl ?_ pos
  intro i j y z _ _ hy hz hmy hmz
  rw [magnitude_mul (hy.hasProduct hz), hmy, hmz, hself]

/-- **Powers keep the order of the magnitudes.** The two runs form their products in lockstep, and
each product keeps the order of its factors. -/
theorem magnitude_product_le (hx : ¬x.IsNaN) (hy : ¬y.IsNaN) (h : x.magnitude ≤ y.magnitude)
    (pos : 0 < n) :
    (Power.product (· * ·) x n).magnitude ≤ (Power.product (· * ·) y n).magnitude := by
  suffices h : SameSide x (Power.product (· * ·) x n) ∧ SameSide y (Power.product (· * ·) y n) ∧
      (Power.product (· * ·) x n).magnitude ≤ (Power.product (· * ·) y n).magnitude from h.2.2
  refine Power.product_lockstep
    (R := fun _ u v => SameSide x u ∧ SameSide y v ∧ u.magnitude ≤ v.magnitude)
    ⟨SameSide.refl hx, SameSide.refl hy, h⟩ ?_ pos
  rintro i j u v u' v' ⟨hu, hu', hle⟩ ⟨hv, hv', hle'⟩
  refine ⟨hu.mul hv, hu'.mul hv', ?_⟩
  rw [magnitude_mul (hu.hasProduct hv), magnitude_mul (hu'.hasProduct hv')]
  exact Magnitude.product_le_product hle hle' hu'.le_infinity hv'.le_infinity

/-! ## Signed exponents -/

section Signed

variable {k : Int32}

/-- **Only a NaN has powers that are NaN.** -/
theorem isNaN_powInt_iff (x : Binary64) (hk : k ≠ 0) : (x.powInt k).IsNaN ↔ x.IsNaN := by
  have pos := Power.natAbs_toInt_pos hk
  have hproduct : (Power.product (· * ·) x k.toInt.natAbs).IsNaN ↔ x.IsNaN :=
    ⟨fun h => by_contra fun hx => Nat.not_lt.mpr (sameSide_product hx pos).1.le_infinity h,
      fun h => isNaN_product h pos⟩
  rcases Int32.lt_or_lt_of_ne hk with hk | hk
  · rw [powInt_of_neg x hk, isNaN_one_div_iff, hproduct]
  · rw [powInt_of_pos x hk, hproduct]

theorem negative_powInt (hx : ¬x.IsNaN) (k : Int32) :
    (x.powInt k).negative = (x.negative && decide (Odd k.toInt)) := by
  by_cases hk : k = 0
  · subst hk
    simp
  · have pos := Power.natAbs_toInt_pos hk
    have hproduct := negative_product hx pos
    simp only [Int.natAbs_odd] at hproduct
    rcases Int32.lt_or_lt_of_ne hk with hk | hk
    · have hside := (sameSide_product hx pos).1
      rw [powInt_of_neg x hk, negative_one_div (Nat.not_lt.mpr hside.le_infinity), hproduct]
    · rw [powInt_of_pos x hk, hproduct]

/-- The magnitude of the positive power, or its reciprocal. -/
theorem magnitude_powInt_of_neg (hx : ¬x.IsNaN) (hk : k < 0) : (x.powInt k).magnitude =
    Magnitude.reciprocal (Power.product (· * ·) x k.toInt.natAbs).magnitude := by
  have pos := Power.natAbs_toInt_pos (Int32.ne_of_lt hk)
  have hside := (sameSide_product hx pos).1
  rw [powInt_of_neg x hk, magnitude_one_div (Nat.not_lt.mpr hside.le_infinity)]

theorem magnitude_powInt_le (hx : ¬x.IsNaN) (hy : ¬y.IsNaN) (h : x.magnitude ≤ y.magnitude) :
    (0 < k → (x.powInt k).magnitude ≤ (y.powInt k).magnitude) ∧
      (k < 0 → (y.powInt k).magnitude ≤ (x.powInt k).magnitude) := by
  constructor
  · intro hk
    have pos := Power.natAbs_toInt_pos (Int32.ne_of_lt hk).symm
    rw [powInt_of_pos x hk, powInt_of_pos y hk]
    exact magnitude_product_le hx hy h pos
  · intro hk
    have pos := Power.natAbs_toInt_pos (Int32.ne_of_lt hk)
    rw [magnitude_powInt_of_neg hx hk, magnitude_powInt_of_neg hy hk]
    exact Magnitude.reciprocal_le_reciprocal (magnitude_product_le hx hy h pos)
      (sameSide_product hy pos).1.le_infinity

/-- A magnitude that is its own square keeps it in the positive powers, and the negative ones have
its reciprocal. -/
theorem magnitude_powInt_of_product_self (hx : ¬x.IsNaN)
    (hself : Magnitude.product x.magnitude x.magnitude = x.magnitude) :
    (0 < k → (x.powInt k).magnitude = x.magnitude) ∧
      (k < 0 → (x.powInt k).magnitude = Magnitude.reciprocal x.magnitude) := by
  constructor
  · intro hk
    have pos := Power.natAbs_toInt_pos (Int32.ne_of_lt hk).symm
    rw [powInt_of_pos x hk, magnitude_product_of_product_self hx hself pos]
  · intro hk
    have pos := Power.natAbs_toInt_pos (Int32.ne_of_lt hk)
    rw [magnitude_powInt_of_neg hx hk, magnitude_product_of_product_self hx hself pos]

/-- The magnitude of a power is a function of the magnitude of the base. -/
theorem magnitude_powInt_congr (hx : ¬x.IsNaN) (h : x.magnitude = y.magnitude) (k : Int32) :
    (x.powInt k).magnitude = (y.powInt k).magnitude := by
  have hy : ¬y.IsNaN := by rwa [IsNaN, ← h]
  have hle := magnitude_powInt_le (k := k) hx hy h.le
  have hge := magnitude_powInt_le (k := k) hy hx h.ge
  by_cases hk : k = 0
  · rw [hk, powInt_zero, powInt_zero]
  · rcases Int32.lt_or_lt_of_ne hk with hk | hk
    · exact Nat.le_antisymm (hge.2 hk) (hle.2 hk)
    · exact Nat.le_antisymm (hle.1 hk) (hge.1 hk)

end Signed

/-! ## The other sign -/

theorem powInt_neg (hx : ¬x.IsNaN) (k : Int32) :
    (-x).powInt k = if Odd k.toInt then -x.powInt k else x.powInt k := by
  have hneg : ¬(-x).IsNaN := by simpa using hx
  have hmagnitude := magnitude_powInt_congr hneg (magnitude_neg x) k
  apply ext_parts
  · rw [negative_powInt hneg, negative_neg, apply_ite negative, negative_neg, negative_powInt hx]
    by_cases hodd : Odd k.toInt <;> simp [hodd]
  · rw [hmagnitude, apply_ite magnitude, magnitude_neg, ite_self]

theorem quiet_of_isNaN (hx : x.IsNaN) : x.quiet = nan := if_pos hx

theorem quiet_powInt_neg (x : Binary64) (k : Int32) :
    ((-x).powInt k).quiet = (if Odd k.toInt then -x.powInt k else x.powInt k).quiet := by
  by_cases hx : x.IsNaN
  · by_cases hk : k = 0
    · rw [hk, powInt_zero, powInt_zero, if_neg (by decide)]
    · have hneg : (-x).IsNaN := by simpa using hx
      have hpower := (isNaN_powInt_iff x hk).mpr hx
      rw [quiet_of_isNaN ((isNaN_powInt_iff (-x) hk).mpr hneg), quiet_of_isNaN]
      split
      · simpa using hpower
      · exact hpower
  · rw [powInt_neg hx]

end TraceMath.Binary64

namespace TraceMath

open Binary64 (HasProduct)

/-- **Sign and class of a power.** With the exponent zero it is one, also for a NaN; otherwise it is
a NaN exactly if the base is. Its sign bit is that of the base if the exponent is odd, and clear if
it is even. Infinities and zeros have infinities and zeros as powers, exchanged by a negative
exponent. The other sign bit in the base is the other one in an odd power, and makes no difference
to an even one, all NaNs being taken for `nan`. The run of a number has no NaN: every product
exists, as no zero meets an infinity, and one is divided by a number. -/
theorem sign_and_class_of_power (x : Binary64) (k : Int32) :
    x.powInt 0 = .one ∧
    (k ≠ 0 → ((x.powInt k).IsNaN ↔ x.IsNaN)) ∧
    (¬x.IsNaN → (x.powInt k).negative = (x.negative && decide (Odd k.toInt))) ∧
    (x.IsInfinite → (0 < k → (x.powInt k).IsInfinite) ∧ (k < 0 → (x.powInt k).IsZero)) ∧
    (x.IsZero → (0 < k → (x.powInt k).IsZero) ∧ (k < 0 → (x.powInt k).IsInfinite)) ∧
    ((-x).powInt k).quiet = (if Odd k.toInt then -x.powInt k else x.powInt k).quiet ∧
    ∀ hk : k ≠ 0, ¬x.IsNaN → ∃ power products,
      (Power.positiveM (Power.logged (· * ·)) x (absWord k).toNat (toNat_absWord_pos hk)).run [] =
        (power, products) ∧
      x.powInt k = (if 0 < k then power else .one / power) ∧
      (∀ p ∈ products, HasProduct p.1 p.2) ∧ ¬power.IsNaN := by
  refine ⟨x.powInt_zero, Binary64.isNaN_powInt_iff x, fun hx => Binary64.negative_powInt hx k,
    fun hx => ?_, fun hx => ?_, Binary64.quiet_powInt_neg x k, fun hk hx => ?_⟩
  · obtain ⟨hpos, hneg⟩ := Binary64.magnitude_powInt_of_product_self (x := x) (k := k) (by omega)
      (by rw [hx, Magnitude.product_infinity])
    rw [hx, Magnitude.reciprocal_infinity] at hneg
    exact ⟨fun hk => (hpos hk).trans hx, hneg⟩
  · obtain ⟨hpos, hneg⟩ := Binary64.magnitude_powInt_of_product_self (x := x) (k := k) (by omega)
      (by rw [hx, Magnitude.zero_product (by decide)])
    rw [hx, Magnitude.reciprocal_zero] at hneg
    exact ⟨fun hk => (hpos hk).trans hx, hneg⟩
  · have pos := Power.natAbs_toInt_pos hk
    obtain ⟨hpower, hproducts⟩ := Binary64.sameSide_product hx pos
    refine ⟨_, _, Power.positiveM_logged_absWord (· * ·) x hk, ?_, fun p hp => ?_, ?_⟩
    · exact Power.integer_of_ne_zero (· * ·) (· / ·) .one x hk
    · obtain ⟨hleft, hright⟩ := hproducts p hp
      exact hleft.hasProduct hright
    · exact Nat.not_lt.mpr hpower.le_infinity

/-- The third power of minus infinity over one is the zero with the sign bit, without a NaN on the
way. -/
theorem sign_and_class_of_power_negative_infinity :
    (Binary64.infinity true).IsInfinite ∧ (-3 : Int32) < 0 ∧
      (Binary64.infinity true).powInt (-3) = .zero true := by
  have hinf : (Binary64.infinity true).IsInfinite := by decide
  have hnan : ¬(Binary64.infinity true).IsNaN := by decide
  have hk : (-3 : Int32) < 0 := by decide
  obtain ⟨-, -, hsign, hinfinite, -⟩ := sign_and_class_of_power (Binary64.infinity true) (-3)
  refine ⟨hinf, hk, Binary64.ext_parts ((hsign hnan).trans ?_) (((hinfinite hinf).2 hk).trans ?_)⟩
  · decide
  · decide

end TraceMath
