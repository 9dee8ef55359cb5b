/-!
# Magnitudes of 32-bit words

`absWord` is the absolute value of a signed word as an unsigned one. It is exact on the whole
range: that of `-2^31` is `2^31`, which no signed word holds.
-/

namespace TraceMath

/-- The absolute value of a signed word; the negation wraps as on the machine. -/
def absWord (a : Int32) : UInt32 := if a < 0 then -a.toUInt32 else a.toUInt32

/-- The wrapped negation loses nothing. -/
@[simp] theorem toNat_absWord (a : Int32) : (absWord a).toNat = a.toInt.natAbs := by
  have ht : a.toUInt32.toNat = a.toBitVec.toNat := rfl
  have hi : a.toInt = a.toBitVec.toInt := rfl
  have hlt := a.toBitVec.isLt
  rw [BitVec.toInt_eq_toNat_cond] at hi
  rw [absWord, apply_ite UInt32.toNat, UInt32.toNat_neg, ht, UInt32.size]
  simp only [Int32.lt_iff_toInt_lt, Int32.toInt_zero]
  split <;> split at hi <;> omega

theorem toNat_absWord_pos {a : Int32} (h : ¬a = 0) : 0 < (absWord a).toNat := by
  rw [← Int32.toInt_inj, Int32.toInt_zero] at h
  simp only [toNat_absWord]
  omega

end TraceMath
