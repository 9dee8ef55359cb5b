import Mathlib.Data.Int.ModEq
import Mathlib.Data.Rat.Floor
import Mathlib.Tactic.Linarith
import TraceMath.Proofs.Faults

/-!
# The floored remainder is exact

The remainder works on words of 32 bits, and two of its steps wrap: the divisor's magnitude is taken
from a smaller number, and the result is negated. Each word still stands for the integer that the
step is to compute, the magnitude of `-2^31` included.

* `Wraps n y`: the word `y` is the integer `n` modulo `2^32`. Read as a signed word it is `n`, if
  `n` is in the signed range (`Wraps.toInt_eq`).
* `toInt_remainder`, `toInt_moved` and `toInt_floorRem`: the integer after each step.
* `IsFlooredRemainder a b r`: `r` is congruent to `a`, has the sign of `b` and is smaller than `b`.
  There is one such integer, `a - b * ⌊a / b⌋` (`isFlooredRemainder_iff`), and `floorRem` returns it
  (`toInt_floorRem`).
-/

namespace TraceMath

/-! ## Words that stand for integers -/

/-- The word is the integer modulo `2^32`. -/
def Wraps (n : ℤ) (y : UInt32) : Prop := (y.toNat : ℤ) = n % 4294967296

section Wraps

variable {m n : ℤ} {y z : UInt32}

theorem wraps_toNat (y : UInt32) : Wraps y.toNat y := by
  have h := y.toNat_lt
  unfold Wraps
  omega

theorem Wraps.sub (hy : Wraps m y) (hz : Wraps n z) : Wraps (m - n) (y - z) := by
  have h := z.toNat_lt
  unfold Wraps at *
  rw [UInt32.toNat_sub]
  omega

theorem Wraps.neg (hy : Wraps n y) : Wraps (-n) (-y) := by
  have h := y.toNat_lt
  unfold Wraps at *
  rw [UInt32.toNat_neg, UInt32.size]
  omega

/-- In the signed range no information is lost. -/
theorem Wraps.toInt_eq (hy : Wraps n y) (hlow : -2147483648 ≤ n) (hhigh : n < 2147483648) :
    y.toInt32.toInt = n := by
  have h : y.toInt32.toInt = (y.toNat : ℤ).bmod (2 ^ 32) := BitVec.toInt_eq_toNat_bmod y.toBitVec
  unfold Wraps at hy
  rw [h, Int.bmod_eq_emod]
  split <;> omega

end Wraps

/-- The exclusive or is negative if exactly one of the operands is. -/
theorem xor_neg_iff (a b : Int32) : a ^^^ b < 0 ↔ ¬(a.toInt < 0 ↔ b.toInt < 0) := by
  have hmsb (c : Int32) : c.toBitVec.msb = decide (c.toInt < 0) := BitVec.msb_eq_toInt
  have h := hmsb (a ^^^ b)
  rw [Int32.toBitVec_xor, BitVec.msb_xor, hmsb, hmsb] at h
  rw [Int32.lt_iff_toInt_lt, Int32.toInt_zero, ← decide_eq_true_iff (p := (a ^^^ b).toInt < 0), ← h]
  by_cases ha : a.toInt < 0 <;> by_cases hb : b.toInt < 0 <;> simp [ha, hb]

theorem wraps_absWord (a : Int32) : Wraps |a.toInt| (absWord a) := by
  simpa using wraps_toNat (absWord a)

theorem abs_toInt_le (a : Int32) : |a.toInt| ≤ 2147483648 := by
  have hlow := a.le_toInt
  have hhigh := a.toInt_lt
  rw [abs_le]
  omega

/-! ## The steps -/

namespace FloorRem

/-- The first step: the remainder of the magnitudes. -/
def remainder (a b : Int32) : UInt32 := absWord a % absWord b

/-- The second step: it is moved by the divisor's magnitude if the signs differ. -/
def moved (a b : Int32) : UInt32 :=
  if remainder a b ≠ 0 ∧ (a ^^^ b) < 0 then remainder a b - absWord b else remainder a b

/-- The last step: it gets the sign of the divisor. -/
def signed (a b : Int32) : UInt32 :=
  if ((moved a b).toInt32 ^^^ b) < 0 then -moved a b else moved a b

theorem floorRem_eq_signed (a b : Int32) : floorRem a b = (signed a b).toInt32 := rfl

/-- The integer that the second step is to compute. -/
def movedInt (a b : ℤ) : ℤ :=
  if |a| % |b| ≠ 0 ∧ ¬(a < 0 ↔ b < 0) then |a| % |b| - |b| else |a| % |b|

/-- The integer that the last step is to compute. -/
def signedInt (a b : ℤ) : ℤ := if movedInt a b < 0 ↔ b < 0 then movedInt a b else -movedInt a b

theorem abs_emod_bounds {b : ℤ} (a : ℤ) (hb : b ≠ 0) : 0 ≤ |a| % |b| ∧ |a| % |b| < |b| :=
  ⟨Int.emod_nonneg _ (abs_ne_zero.mpr hb), Int.emod_lt_of_pos _ (abs_pos.mpr hb)⟩

/-- Both steps stay below the divisor in size. -/
theorem abs_movedInt_lt {b : ℤ} (a : ℤ) (hb : b ≠ 0) : |movedInt a b| < |b| := by
  obtain ⟨hlow, hhigh⟩ := abs_emod_bounds a hb
  unfold movedInt
  split <;> rw [abs_lt] <;> omega

theorem abs_signedInt (a b : ℤ) : |signedInt a b| = |movedInt a b| := by
  unfold signedInt
  split
  · rfl
  · exact abs_neg _

section Exact

variable {a b : Int32}

theorem wraps_remainder (a b : Int32) : Wraps (|a.toInt| % |b.toInt|) (remainder a b) := by
  simpa [remainder] using wraps_toNat (remainder a b)

theorem toInt_ne_zero (hb : b ≠ 0) : b.toInt ≠ 0 := by
  rwa [Ne, ← Int32.toInt_zero, Int32.toInt_inj]

theorem toInt_remainder (a : Int32) (hb : b ≠ 0) :
    (remainder a b).toInt32.toInt = |a.toInt| % |b.toInt| := by
  obtain ⟨hlow, hhigh⟩ := abs_emod_bounds a.toInt (toInt_ne_zero hb)
  have hle := abs_toInt_le b
  exact (wraps_remainder a b).toInt_eq (by omega) (by omega)

theorem remainder_eq_zero_iff (a : Int32) (hb : b ≠ 0) :
    remainder a b = 0 ↔ |a.toInt| % |b.toInt| = 0 := by
  obtain ⟨hlow, hhigh⟩ := abs_emod_bounds a.toInt (toInt_ne_zero hb)
  have hle := abs_toInt_le b
  have hr : ((remainder a b).toNat : ℤ) = _ % 4294967296 := wraps_remainder a b
  rw [← UInt32.toNat_inj, UInt32.toNat_zero]
  omega

theorem wraps_moved (a : Int32) (hb : b ≠ 0) : Wraps (movedInt a.toInt b.toInt) (moved a b) := by
  have hr := wraps_remainder a b
  unfold movedInt moved
  simp only [xor_neg_iff, Ne, remainder_eq_zero_iff a hb]
  split
  · exact hr.sub (wraps_absWord b)
  · exact hr

theorem toInt_moved (a : Int32) (hb : b ≠ 0) :
    (moved a b).toInt32.toInt = movedInt a.toInt b.toInt := by
  obtain ⟨hlow, hhigh⟩ := abs_lt.mp (abs_movedInt_lt a.toInt (toInt_ne_zero hb))
  have hle := abs_toInt_le b
  exact (wraps_moved a hb).toInt_eq (by omega) (by omega)

theorem wraps_signed (a : Int32) (hb : b ≠ 0) : Wraps (signedInt a.toInt b.toInt) (signed a b) := by
  have hm := wraps_moved a hb
  unfold signedInt signed
  simp only [xor_neg_iff, toInt_moved a hb]
  by_cases h : movedInt a.toInt b.toInt < 0 ↔ b.toInt < 0
  · rw [if_pos h, if_neg (not_not_intro h)]
    exact hm
  · rw [if_neg h, if_pos h]
    exact hm.neg

theorem toInt_signed (a : Int32) (hb : b ≠ 0) :
    (signed a b).toInt32.toInt = signedInt a.toInt b.toInt := by
  obtain ⟨hlow, hhigh⟩ := abs_lt.mp
    (abs_signedInt a.toInt b.toInt ▸ abs_movedInt_lt a.toInt (toInt_ne_zero hb))
  have hle := abs_toInt_le b
  exact (wraps_signed a hb).toInt_eq (by omega) (by omega)

end Exact

end FloorRem

/-! ## The remainder of floored division -/

/-- The integer is congruent to `a` modulo `b`, is zero or has the sign of `b`, and is smaller than
`b` in size. -/
structure IsFlooredRemainder (a b r : ℤ) : Prop where
  modEq : r ≡ a [ZMOD b]
  sign : r = 0 ∨ r.sign = b.sign
  size : |r| < |b|

/-- The two conditions on sign and size put it between zero and `b`. -/
theorem sign_and_abs_lt_iff (b r : ℤ) :
    (r = 0 ∨ r.sign = b.sign) ∧ |r| < |b| ↔ 0 ≤ r ∧ r < b ∨ b < r ∧ r ≤ 0 := by
  rcases lt_trichotomy b 0 with hb | rfl | hb
  · rw [abs_of_neg hb, abs_lt, Int.sign_eq_neg_one_of_neg hb, Int.sign_eq_neg_one_iff_neg]
    omega
  · have h := abs_nonneg r
    rw [abs_zero]
    omega
  · rw [abs_of_pos hb, abs_lt, Int.sign_eq_one_of_pos hb, Int.sign_eq_one_iff_pos]
    omega

theorem isFlooredRemainder_of_between {a b r : ℤ} (hdvd : b ∣ a - r)
    (h : 0 ≤ r ∧ r < b ∨ b < r ∧ r ≤ 0) : IsFlooredRemainder a b r :=
  have hr := (sign_and_abs_lt_iff b r).mpr h
  ⟨Int.modEq_iff_dvd.mpr hdvd, hr.1, hr.2⟩

/-- Two such integers are on the same side of zero, and differ by a multiple of `b`. -/
theorem IsFlooredRemainder.unique {a b r s : ℤ} (hr : IsFlooredRemainder a b r)
    (hs : IsFlooredRemainder a b s) : r = s := by
  have hdvd : |b| ∣ s - r := (abs_dvd b _).mpr (hr.modEq.trans hs.modEq.symm).dvd
  have hr' := (sign_and_abs_lt_iff b r).mp ⟨hr.sign, hr.size⟩
  have hs' := (sign_and_abs_lt_iff b s).mp ⟨hs.sign, hs.size⟩
  have hsize : |s - r| < |b| := by
    rcases le_total 0 b with hb | hb
    · rw [abs_of_nonneg hb, abs_lt]
      omega
    · rw [abs_of_nonpos hb, abs_lt]
      omega
  have hzero := Int.eq_zero_of_abs_lt_dvd hdvd hsize
  omega

theorem isFlooredRemainder_floor (a : ℤ) {b : ℤ} (hb : b ≠ 0) :
    IsFlooredRemainder a b (a - b * ⌊(a / b : ℚ)⌋) := by
  have hlow := Int.floor_le (a / b : ℚ)
  have hhigh := Int.lt_floor_add_one (a / b : ℚ)
  generalize ⌊(a / b : ℚ)⌋ = q at hlow hhigh ⊢
  refine isFlooredRemainder_of_between ⟨q, by ring⟩ ?_
  -- The two bounds of the floor, multiplied by `b`, are those of the remainder: `b` has its sign.
  rcases hb.lt_or_gt with hneg | hpos
  · have hb' : (b : ℚ) < 0 := by exact_mod_cast hneg
    rw [le_div_iff_of_neg hb'] at hlow
    rw [div_lt_iff_of_neg hb'] at hhigh
    norm_cast at hlow hhigh
    right
    constructor <;> linarith
  · have hb' : (0 : ℚ) < b := by exact_mod_cast hpos
    rw [le_div_iff₀ hb'] at hlow
    rw [div_lt_iff₀ hb'] at hhigh
    norm_cast at hlow hhigh
    left
    constructor <;> linarith

theorem isFlooredRemainder_iff {a b : ℤ} (hb : b ≠ 0) (r : ℤ) :
    IsFlooredRemainder a b r ↔ r = a - b * ⌊(a / b : ℚ)⌋ := by
  constructor
  · intro h
    exact h.unique (isFlooredRemainder_floor a hb)
  · rintro rfl
    exact isFlooredRemainder_floor a hb

/-- The last step without the step before it. -/
theorem FloorRem.signedInt_eq (a : ℤ) {b : ℤ} (hb : b ≠ 0) :
    signedInt a b =
      if a < 0 ↔ b < 0 then if b < 0 then -(|a| % |b|) else |a| % |b|
      else if |a| % |b| = 0 then 0
      else if b < 0 then |a| % |b| + b else b - |a| % |b| := by
  obtain ⟨hlow, hhigh⟩ := abs_emod_bounds a hb
  unfold signedInt movedInt
  generalize |a| % |b| = m at *
  rcases hb.lt_or_gt with hneg | hpos
  · rw [abs_of_neg hneg] at hhigh ⊢
    split_ifs <;> omega
  · rw [abs_of_pos hpos] at hhigh ⊢
    split_ifs <;> omega

/-- With equal signs the remainder of the magnitudes differs from the dividend by a multiple of the
divisor already, up to the sign; with different signs the move makes up for it. -/
theorem FloorRem.isFlooredRemainder_signedInt (a : ℤ) {b : ℤ} (hb : b ≠ 0) :
    IsFlooredRemainder a b (signedInt a b) := by
  obtain ⟨hlow, hhigh⟩ := abs_emod_bounds a hb
  have hdvd : b ∣ |a| - |a| % |b| := (abs_dvd b _).mp Int.dvd_self_sub_emod
  have hself : b ∣ b := dvd_refl b
  rw [signedInt_eq a hb]
  -- Only `b ∣ |a| - m` and the bounds of `m` are needed; the signs say what `|a|` and `|b|` are.
  generalize |a| % |b| = m at *
  by_cases hsame : a < 0 ↔ b < 0
  · rw [if_pos hsame]
    split
    · -- Both are negative: `-m` stands for `a`, as `m` does for `-a`.
      next hneg =>
      rw [abs_of_neg hneg] at hhigh
      rw [abs_of_neg (hsame.mpr hneg)] at hdvd
      refine isFlooredRemainder_of_between ?_ (by omega)
      rw [show a - -m = -(-a - m) by ring]
      exact hdvd.neg_right
    · next hneg =>
      rw [abs_of_pos (by omega)] at hhigh
      rw [abs_of_nonneg (by omega)] at hdvd
      exact isFlooredRemainder_of_between hdvd (by omega)
  · rw [if_neg hsame]
    split
    · -- The divisor goes into the dividend, and zero has no side.
      next hzero =>
      rw [hzero, sub_zero, dvd_abs] at hdvd
      exact isFlooredRemainder_of_between (by rwa [sub_zero]) (by omega)
    · next hzero =>
      split
      · -- `m` is on the other side of the negative divisor, and adding it changes sides.
        next hneg =>
        rw [abs_of_neg hneg] at hhigh
        rw [abs_of_nonneg (by omega)] at hdvd
        refine isFlooredRemainder_of_between ?_ (by omega)
        rw [show a - (m + b) = a - m - b by ring]
        exact hdvd.sub hself
      · -- `-m` stands for the negative dividend, and the divisor brings it above zero.
        next hneg =>
        rw [abs_of_pos (by omega)] at hhigh
        rw [abs_of_neg (by omega)] at hdvd
        refine isFlooredRemainder_of_between ?_ (by omega)
        rw [show a - (b - m) = -(-a - m) - b by ring]
        exact hdvd.neg_right.sub hself

/-- **The remainder of two words is that of their integers.** -/
theorem toInt_floorRem (a : Int32) {b : Int32} (hb : b ≠ 0) :
    (floorRem a b).toInt = a.toInt - b.toInt * ⌊(a.toInt / b.toInt : ℚ)⌋ := by
  rw [FloorRem.floorRem_eq_signed, FloorRem.toInt_signed a hb]
  have hb' := FloorRem.toInt_ne_zero hb
  exact (isFlooredRemainder_iff hb' _).mp (FloorRem.isFlooredRemainder_signedInt a.toInt hb')

/-- **The remainder of two words is exact.** It fails for the divisor zero alone. For every other
divisor, `-2^31` included, it is the remainder of the floored division of the two integers, which is
the one integer that is congruent to the dividend, has the sign of the divisor or is zero, and is
smaller than the divisor. After each step the word, read as a signed one, is the integer that the
step is to compute. -/
theorem remainder_of_words_is_exact (a b : Int32) :
    (∀ f, checkedRem a b = .error f ↔ b = 0 ∧ f = .zeroDivisor) ∧
    (b ≠ 0 →
      checkedRem a b = .ok (floorRem a b) ∧
      (floorRem a b).toInt = a.toInt - b.toInt * ⌊(a.toInt / b.toInt : ℚ)⌋ ∧
      (∀ r : ℤ, IsFlooredRemainder a.toInt b.toInt r ↔ r = (floorRem a b).toInt) ∧
      (FloorRem.remainder a b).toInt32.toInt = |a.toInt| % |b.toInt| ∧
      (FloorRem.moved a b).toInt32.toInt = FloorRem.movedInt a.toInt b.toInt ∧
      (FloorRem.signed a b).toInt32.toInt = FloorRem.signedInt a.toInt b.toInt ∧
      floorRem a b = (FloorRem.signed a b).toInt32) := by
  refine ⟨checkedRem_eq_error_iff a b, fun hb => ⟨checkedRem_eq_ok a hb, toInt_floorRem a hb,
    fun r => ?_, FloorRem.toInt_remainder a hb, FloorRem.toInt_moved a hb,
    FloorRem.toInt_signed a hb, FloorRem.floorRem_eq_signed a b⟩⟩
  rw [toInt_floorRem a hb]
  exact isFlooredRemainder_iff (FloorRem.toInt_ne_zero hb) r

/-- The least word as the divisor: its magnitude is no signed word, and the move wraps. -/
theorem remainder_of_words_is_exact_least_divisor :
    (-2147483648 : Int32) ≠ 0 ∧ checkedRem 1 (-2147483648) = .ok (-2147483647) ∧
      IsFlooredRemainder 1 (-2147483648) (-2147483647) ∧
      (FloorRem.moved 1 (-2147483648)).toInt32.toInt = 1 - 2147483648 := by
  have hb : (-2147483648 : Int32) ≠ 0 := by decide
  obtain ⟨hok, -, hunique, -, hmoved, -⟩ := (remainder_of_words_is_exact 1 (-2147483648)).2 hb
  have hr : floorRem 1 (-2147483648) = -2147483647 := by decide
  rw [hr] at hok hunique
  exact ⟨hb, hok, (hunique _).mpr rfl, hmoved.trans (by decide)⟩

end TraceMath
