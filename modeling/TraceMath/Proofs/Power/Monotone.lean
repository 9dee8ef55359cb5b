import TraceMath.Proofs.Power.Signs

/-!
# Powers keep the order

Of two numbers without a sign bit, the larger one has the larger positive powers and the smaller
negative ones, also where the powers overflow or underflow. With one as one of the numbers this says
on which side of one the powers of a number are.
-/

namespace TraceMath.Binary64

variable {x y : Binary64} {k : Int32}

/-- **Powers keep the order or turn it round.** -/
theorem powInt_le_powInt (hx : x.negative = false) (hy : y.negative = false) (h : x ≤ y) :
    (0 < k → x.powInt k ≤ y.powInt k) ∧ (k < 0 → y.powInt k ≤ x.powInt k) := by
  obtain ⟨hxn, hyn, -⟩ := le_def.mp h
  have hle := ((le_iff_magnitude_le hx hy).mp h).1
  have hmagnitude := magnitude_powInt_le (k := k) hxn hyn hle
  have hsign {z : Binary64} (hz : z.negative = false) (hzn : ¬z.IsNaN) :
      (z.powInt k).negative = false := by
    rw [negative_powInt hzn, hz, Bool.false_and]
  have hnumber {z : Binary64} (hzn : ¬z.IsNaN) (hk : k ≠ 0) :
      (z.powInt k).magnitude ≤ Magnitude.infinity :=
    Nat.le_of_not_lt (mt (isNaN_powInt_iff z hk).mp hzn)
  constructor
  · intro hk
    rw [le_iff_magnitude_le (hsign hx hxn) (hsign hy hyn)]
    exact ⟨hmagnitude.1 hk, hnumber hyn (Int32.ne_of_lt hk).symm⟩
  · intro hk
    rw [le_iff_magnitude_le (hsign hy hyn) (hsign hx hxn)]
    exact ⟨hmagnitude.2 hk, hnumber hxn (Int32.ne_of_lt hk)⟩

/-- The power of the number without its sign bit, without its sign bit. -/
theorem powInt_abs (hx : ¬x.IsNaN) (k : Int32) : x.abs.powInt k = (x.powInt k).abs := by
  have habs : ¬x.abs.IsNaN := mt isNaN_abs.mp hx
  apply ext_parts
  · simp [negative_powInt habs]
  · rw [magnitude_abs, magnitude_powInt_congr habs (magnitude_abs x)]

theorem one_powInt (k : Int32) : one.powInt k = one := by
  have hone : ¬one.IsNaN := by decide
  have hself : Magnitude.product one.magnitude one.magnitude = one.magnitude := by
    rw [magnitude_one, Magnitude.one_product Magnitude.one_lt_infinity.le]
  obtain ⟨hpos, hneg⟩ := magnitude_powInt_of_product_self (k := k) hone hself
  rw [magnitude_one, Magnitude.reciprocal_one] at hneg
  apply ext_parts
  · simp [negative_powInt hone]
  · by_cases hk : k = 0
    · rw [hk, powInt_zero]
    · exact (Int32.lt_or_lt_of_ne hk).elim hneg hpos

end TraceMath.Binary64

namespace TraceMath

/-- **Powers are monotone.** Of numbers without a sign bit, zero and infinity included, the larger
one has the larger positive powers and the smaller negative ones. So the positive powers of a number
are on the side of one on which it is, and the negative ones on the other. -/
theorem powers_are_monotone (k : Int32) :
    (∀ x y : Binary64, x.negative = false → y.negative = false → x ≤ y →
      (0 < k → x.powInt k ≤ y.powInt k) ∧ (k < 0 → y.powInt k ≤ x.powInt k)) ∧
    ∀ x : Binary64,
      (.one ≤ x.abs → (0 < k → .one ≤ (x.powInt k).abs) ∧ (k < 0 → (x.powInt k).abs ≤ .one)) ∧
      (x.abs ≤ .one → (0 < k → (x.powInt k).abs ≤ .one) ∧ (k < 0 → .one ≤ (x.powInt k).abs)) := by
  refine ⟨fun x y hx hy h => Binary64.powInt_le_powInt hx hy h, fun x => ⟨fun h => ?_, fun h => ?_⟩⟩
  · have hx : ¬x.IsNaN := mt Binary64.isNaN_abs.mpr h.2.1
    have hle := Binary64.powInt_le_powInt (k := k) Binary64.negative_one x.negative_abs h
    rwa [Binary64.one_powInt, Binary64.powInt_abs hx] at hle
  · have hx : ¬x.IsNaN := mt Binary64.isNaN_abs.mpr h.1
    have hle := Binary64.powInt_le_powInt (k := k) x.negative_abs Binary64.negative_one h
    rwa [Binary64.one_powInt, Binary64.powInt_abs hx] at hle

/-- The neighbours of one, and minus the smaller one, to the power of the least exponent. -/
theorem powers_are_monotone_at_least_exponent :
    let below : Binary64 := ⟨0x3fefffffffffffff⟩
    let above : Binary64 := ⟨0x3ff0000000000001⟩
    below ≤ above ∧ above.powInt Int32.minValue ≤ below.powInt Int32.minValue ∧
      (-below).abs ≤ .one ∧ .one ≤ ((-below).powInt Int32.minValue).abs := by
  intro below above
  have hle : below ≤ above := by decide +kernel
  have hone : (-below).abs ≤ .one := by decide +kernel
  have hmin : Int32.minValue < 0 := by decide
  obtain ⟨hmono, hside⟩ := powers_are_monotone Int32.minValue
  exact ⟨hle, (hmono below above (by decide) (by decide) hle).2 hmin, hone,
    ((hside (-below)).2 hone).2 hmin⟩

end TraceMath
