import Mathlib.Algebra.Order.Field.Basic
import Mathlib.Algebra.Order.Group.Unbundled.Abs
import Mathlib.Data.Nat.Cast.Order.Field
import Mathlib.Order.Monotone.Basic
import Mathlib.Tactic.FieldSimp
import Mathlib.Tactic.Linarith
import Mathlib.Tactic.LinearCombination
import Mathlib.Tactic.Positivity
import Mathlib.Tactic.Ring
import TraceMath.Binary64.Magnitude

/-!
# Rounding to the nearest magnitude

A magnitude stands for a number of units. The midpoints between neighbours divide the numbers into
*cells*: the numbers of a cell round to its magnitude, and a midpoint belongs to its even
neighbour. The last cell, that of `infinity`, has no upper end.

* `units_strictMono`: the order of the values is the order of the magnitudes.
* `cell_ofRatio`: a quotient lies in the cell of the magnitude that it is rounded to, and in no
  other (`Cell.unique`).
* `IsNearest`: no magnitude is nearer, and of two equally near ones it is the even one, said with
  distances. `Cell.isNearest` is what the cells are for.
-/

namespace TraceMath.Magnitude

/-! ## Values -/

/-- A magnitude is a number of at most 53 bits, with its place. -/
theorem exists_parts (m : ℕ) :
    ∃ e q, m = e * binade + q ∧ q < 2 * binade ∧ (e = 0 ∨ binade ≤ q) := by
  refine ⟨m / binade - 1, m - (m / binade - 1) * binade, ?_⟩
  unfold binade
  omega

/-- The end of a binade is the start of the next one. -/
theorem units_add {e q : ℕ} (hq : q ≤ 2 * binade) (h : e = 0 ∨ binade ≤ q) :
    units (e * binade + q) = q * 2 ^ e := by
  have hb : 0 < binade := by decide
  rw [units, Nat.pow_eq]
  -- Below `binade` the code of a magnitude is its number of units.
  rcases Nat.lt_or_ge q binade with hlt | hge
  · obtain rfl : e = 0 := h.resolve_right (Nat.not_le.mpr hlt)
    simp [hlt]
  · rw [if_neg (by nlinarith)]
    rcases Nat.lt_or_ge q (2 * binade) with hq' | hq'
    · have hm : e * binade + q = (q - binade) + binade * (e + 1) := by
        rw [Nat.mul_succ, Nat.mul_comm]
        omega
      rw [hm, Nat.add_mul_mod_self_left, Nat.add_mul_div_left _ _ hb,
        Nat.mod_eq_of_lt (by omega), Nat.div_eq_of_lt (by omega)]
      simp only [Nat.zero_add, Nat.add_sub_cancel, Nat.add_sub_cancel' hge]
    · -- Here `q` is `2 * binade`, and the code is that of the first number of the next binade.
      have hm : e * binade + q = binade * (e + 2) := by
        rw [Nat.mul_comm binade, Nat.add_mul]
        omega
      rw [hm, Nat.mul_mod_right, Nat.mul_div_cancel_left _ hb, Nat.le_antisymm hq hq']
      simp only [Nat.add_zero, Nat.add_one_sub_one, Nat.pow_succ]
      ring

theorem unitsPerOne_eq : unitsPerOne = 2 ^ 1074 := by decide +kernel

@[simp] theorem units_zero : units 0 = 0 := by decide

theorem units_infinity : units infinity = 2 ^ 1024 * unitsPerOne := by decide +kernel

/-- The next value is larger, and from the least positive one on at most twice as large. -/
theorem units_succ (m : ℕ) :
    units m < units (m + 1) ∧ (0 < m → units (m + 1) ≤ 2 * units m) := by
  obtain ⟨e, q, rfl, hq, h⟩ := exists_parts m
  have hpow : 0 < 2 ^ e := Nat.two_pow_pos e
  rw [Nat.add_assoc, units_add (Nat.le_of_lt hq) h,
    units_add hq (h.imp_right fun hb => Nat.le_succ_of_le hb)]
  constructor
  · nlinarith
  · intro hm
    have hq' : 0 < q := by
      rcases h with rfl | hb
      · simpa using hm
      · exact Nat.lt_of_lt_of_le (by decide) hb
    nlinarith

theorem units_strictMono : StrictMono units := strictMono_nat_of_lt_succ fun m => (units_succ m).1

@[simp] theorem units_lt_units_iff {m n : ℕ} : units m < units n ↔ m < n :=
  units_strictMono.lt_iff_lt

@[simp] theorem units_le_units_iff {m n : ℕ} : units m ≤ units n ↔ m ≤ n :=
  units_strictMono.le_iff_le

@[simp] theorem units_inj {m n : ℕ} : units m = units n ↔ m = n := units_strictMono.injective.eq_iff

@[simp] theorem units_eq_zero_iff {m : ℕ} : units m = 0 ↔ m = 0 :=
  units_strictMono.injective.eq_iff' units_zero

/-! ## Cells -/

section Cells

variable {K : Type*} [Field K] [LinearOrder K] [IsStrictOrderedRing K]

/-- The number of units is above the midpoint below the magnitude, or at it. -/
def FromBelow (m : ℕ) (u : K) : Prop :=
  m = 0 ∨ (units (m - 1) + units m : K) < 2 * u ∨
    (units (m - 1) + units m : K) = 2 * u ∧ m % 2 = 0

/-- The number of units is below the midpoint above the magnitude, or at it. -/
def FromAbove (m : ℕ) (u : K) : Prop :=
  2 * u < (units m + units (m + 1) : K) ∨ 2 * u = (units m + units (m + 1) : K) ∧ m % 2 = 0

/-- The number of units rounds to the magnitude. -/
structure Cell (m : ℕ) (u : K) : Prop where
  le_infinity : m ≤ infinity
  below : FromBelow m u
  above : m = infinity ∨ FromAbove m u

theorem units_lt_units {m n : ℕ} (h : m < n) : (units m : K) < units n := by simpa

theorem units_le_units {m n : ℕ} (h : m ≤ n) : (units m : K) ≤ units n := by simpa

variable {m n : ℕ} {u : K}

/-- The midpoint to any smaller magnitude is below, too. -/
theorem FromBelow.midpoint_le (h : FromBelow m u) (hn : n < m) :
    (units n + units m : K) ≤ 2 * u ∧ ((units n + units m : K) = 2 * u → m % 2 = 0) := by
  have hle : (units n : K) ≤ units (m - 1) := units_le_units (Nat.le_sub_one_of_lt hn)
  rcases h.resolve_left (Nat.ne_zero_of_lt hn) with h | ⟨h, heven⟩
  · exact ⟨by linarith, fun _ => by linarith⟩
  · exact ⟨by linarith, fun _ => heven⟩

/-- The midpoint to any larger magnitude is above, too. -/
theorem FromAbove.le_midpoint (h : FromAbove m u) (hn : m < n) :
    2 * u ≤ (units m + units n : K) ∧ ((units m + units n : K) = 2 * u → m % 2 = 0) := by
  have hle : (units (m + 1) : K) ≤ units n := units_le_units hn
  rcases h with h | ⟨h, heven⟩
  · exact ⟨by linarith, fun _ => by linarith⟩
  · exact ⟨by linarith, fun _ => heven⟩

/-- Cells do not meet. Two that share the midpoint between them have codes of different parity. -/
theorem Cell.unique (hm : Cell m u) (hn : Cell n u) : m = n := by
  by_contra hne
  wlog hlt : m < n generalizing m n
  · exact this hn hm (Ne.symm hne) (by omega)
  have habove : FromAbove m u :=
    hm.above.resolve_left (Nat.ne_of_lt (Nat.lt_of_lt_of_le hlt hn.le_infinity))
  -- `u` is the midpoint of `m` and `n`, so both codes are even and `m + 1` is between them. But its
  -- midpoint to `m` is below `u` already.
  obtain ⟨hle, hmeven⟩ := habove.le_midpoint hlt
  obtain ⟨hge, hneven⟩ := hn.below.midpoint_le hlt
  have heq := le_antisymm hge hle
  have hsucc : m + 1 < n := by
    have := hmeven heq
    have := hneven heq
    omega
  have := (habove.le_midpoint (Nat.lt_succ_self m)).1
  have := units_lt_units (K := K) hsucc
  linarith

/-- Cells have no holes. -/
theorem Cell.convex {v w : K} (hu : Cell m u) (hw : Cell m w) (huv : u ≤ v) (hvw : v ≤ w) :
    Cell m v := by
  refine ⟨hu.le_infinity, ?_, hw.above.imp_right fun habove => ?_⟩
  · rcases hu.below with h | h | ⟨h, heven⟩
    · exact .inl h
    · exact .inr (.inl (by linarith))
    · rcases huv.eq_or_lt with rfl | hlt
      · exact .inr (.inr ⟨h, heven⟩)
      · exact .inr (.inl (by linarith))
  · rcases habove with h | ⟨h, heven⟩
    · exact .inl (by linarith)
    · rcases hvw.eq_or_lt with rfl | hlt
      · exact .inr ⟨h, heven⟩
      · exact .inl (by linarith)

/-- A value rounds to itself. -/
theorem cell_units (h : m ≤ infinity) : Cell m (units m : K) := by
  have habove := units_lt_units (K := K) (Nat.lt_succ_self m)
  refine ⟨h, ?_, .inr (.inl (by linarith))⟩
  rcases Nat.eq_zero_or_pos m with rfl | hm
  · exact .inl rfl
  · have := units_lt_units (K := K) (Nat.sub_one_lt_of_lt hm)
    exact .inr (.inl (by linarith))

theorem cell_zero (h : 2 * u < 1) : Cell 0 u := by
  refine ⟨Nat.zero_le _, .inl rfl, .inr (.inl ?_)⟩
  have hone : units 1 = 1 := by decide
  rw [units_zero, hone]
  push_cast
  linarith

theorem cell_zero_zero : Cell 0 (0 : K) := cell_zero (by rw [mul_zero]; exact one_pos)

theorem cell_infinity (h : (units infinity : K) ≤ u) : Cell infinity u := by
  have := units_lt_units (K := K) (Nat.sub_one_lt_of_lt (show 0 < infinity by decide))
  exact ⟨le_rfl, .inr (.inl (by linarith)), .inl rfl⟩

end Cells

/-! ## Rounding a quotient -/

/-- The significand of a quotient, and its place. -/
theorem significand_bounds (t : ℕ) :
    t / 2 ^ (t.log2 - 52) < 2 * binade ∧ (t.log2 - 52 = 0 ∨ binade ≤ t / 2 ^ (t.log2 - 52)) := by
  have hbinade : binade = 2 ^ 52 := by decide
  constructor
  · rw [Nat.div_lt_iff_lt_mul (Nat.two_pow_pos _), hbinade, ← Nat.pow_succ', ← Nat.pow_add]
    exact Nat.lt_of_lt_of_le Nat.lt_log2_self (Nat.pow_le_pow_right (by decide) (by omega))
  · rcases Nat.eq_zero_or_pos (t.log2 - 52) with h | h
    · exact .inl h
    · refine .inr ?_
      have ht : t ≠ 0 := by
        rintro rfl
        simp at h
      rw [Nat.le_div_iff_mul_le (Nat.two_pow_pos _), hbinade, ← Nat.pow_add,
        Nat.add_sub_cancel' (by omega)]
      exact Nat.log2_self_le ht

theorem mul_binade_add_mod_two (e q : ℕ) : (e * binade + q) % 2 = q % 2 := by
  have hbinade : binade = 2 * (binade / 2) := by decide
  rw [hbinade, Nat.mul_left_comm, Nat.mul_add_mod]

section Quotient

variable {K : Type*} [Field K] [LinearOrder K] [IsStrictOrderedRing K]

/-- A number between two neighbours that is not above their midpoint, or at it by an even code. -/
theorem between_of_fromAbove {m : ℕ} {u : K} (hle : (units m : K) ≤ u) (h : FromAbove m u) :
    FromBelow m u ∧ FromAbove m u := by
  refine ⟨?_, h⟩
  rcases Nat.eq_zero_or_pos m with rfl | hm
  · exact .inl rfl
  · have := units_lt_units (K := K) (Nat.sub_one_lt_of_lt hm)
    exact .inr (.inl (by linarith))

theorem between_of_fromBelow {m : ℕ} {u : K} (hlt : u < units m) (h : FromBelow m u) :
    FromBelow m u ∧ FromAbove m u := by
  have := units_lt_units (K := K) (Nat.lt_succ_self m)
  exact ⟨h, .inl (by linarith)⟩

/-- The part of the quotient behind its whole part decides. -/
theorem nearestEven_cases (num : ℕ) {den : ℕ} (hden : 0 < den) :
    (nearestEven num den = num / den ∧ (2 * ((num % den : ℕ) / den) < (1 : K) ∨
        2 * ((num % den : ℕ) / den) = (1 : K) ∧ num / den % 2 = 0)) ∨
      (nearestEven num den = num / den + 1 ∧ ((1 : K) < 2 * ((num % den : ℕ) / den) ∨
        2 * ((num % den : ℕ) / den) = (1 : K) ∧ (num / den + 1) % 2 = 0)) := by
  have hpos : (0 : K) < den := Nat.cast_pos.mpr hden
  have htie (h : 2 * (num % den) = den) : 2 * ((num % den : ℕ) / den) = (1 : K) := by
    rw [mul_div_assoc', div_eq_one_iff_eq hpos.ne']
    exact_mod_cast h
  rw [nearestEven]
  split
  · next h =>
    refine .inl ⟨rfl, h.imp (fun h => ?_) fun h => ⟨htie h.1, h.2⟩⟩
    rw [mul_div_assoc', div_lt_one hpos]
    exact_mod_cast h
  · next h =>
    refine .inr ⟨rfl, ?_⟩
    rcases Nat.lt_or_ge den (2 * (num % den)) with hlt | hge
    · left
      rw [mul_div_assoc', one_lt_div hpos]
      exact_mod_cast hlt
    · exact .inr ⟨htie (by omega), by omega⟩

/-- A quotient on the grid of a power of two. -/
theorem div_eq_grid (num : ℕ) {den : ℕ} (hden : 0 < den) (e : ℕ) :
    (num / den : K) = ((num / (den * 2 ^ e) : ℕ) +
      (num % (den * 2 ^ e) : ℕ) / (den * 2 ^ e : ℕ)) * 2 ^ e := by
  have hden' : (den : K) ≠ 0 := by positivity
  have hnum : (num : K) = (den * 2 ^ e : ℕ) * (num / (den * 2 ^ e) : ℕ) +
      (num % (den * 2 ^ e) : ℕ) := by
    exact_mod_cast (Nat.div_add_mod num (den * 2 ^ e)).symm
  rw [hnum]
  push_cast
  field_simp

/-- A quotient is between the midpoints around its rounding, whatever the finite range is. -/
theorem between_midpoints (num : ℕ) {den : ℕ} (hden : 0 < den) {e : ℕ}
    (he : e = (num / den).log2 - 52) :
    FromBelow (e * binade + nearestEven num (den * 2 ^ e)) (num / den : K) ∧
      FromAbove (e * binade + nearestEven num (den * 2 ^ e)) (num / den : K) := by
  obtain ⟨hq, hplace⟩ := significand_bounds (num / den)
  rw [← he, Nat.div_div_eq_div_mul] at hq hplace
  have hD : 0 < den * 2 ^ e := Nat.mul_pos hden (Nat.two_pow_pos e)
  have hcases := nearestEven_cases (K := K) num hD
  rw [div_eq_grid num hden e]
  have hf0 : (0 : K) ≤ (num % (den * 2 ^ e) : ℕ) / (den * 2 ^ e : ℕ) := by positivity
  have hf1 : ((num % (den * 2 ^ e) : ℕ) / (den * 2 ^ e : ℕ) : K) < 1 := by
    rw [div_lt_one (Nat.cast_pos.mpr hD)]
    exact_mod_cast Nat.mod_lt num hD
  generalize ((num % (den * 2 ^ e) : ℕ) / (den * 2 ^ e : ℕ) : K) = f at hcases hf0 hf1 ⊢
  generalize num / (den * 2 ^ e) = q at hq hplace hcases ⊢
  have hpow : (0 : K) < 2 ^ e := by positivity
  -- The two magnitudes around the quotient.
  have hlow : (units (e * binade + q) : K) = q * 2 ^ e := by
    rw [units_add hq.le hplace]
    push_cast
    rfl
  have hhigh : (units (e * binade + q + 1) : K) = (q + 1) * 2 ^ e := by
    rw [Nat.add_assoc, units_add hq (hplace.imp_right Nat.le_succ_of_le)]
    push_cast
    rfl
  -- Rounded down, the quotient is above its magnitude and only the midpoint above is in question;
  -- rounded up, it is the one below.
  rcases hcases with ⟨hn, h⟩ | ⟨hn, h⟩
  · rw [hn]
    refine between_of_fromAbove (by rw [hlow]; nlinarith) ?_
    rw [FromAbove, hlow, hhigh, mul_binade_add_mod_two]
    rcases h with h | ⟨h, heven⟩
    · exact .inl (by nlinarith)
    · exact .inr ⟨by linear_combination (2 ^ e : K) * h, heven⟩
  · rw [hn]
    refine between_of_fromBelow (by rw [← Nat.add_assoc, hhigh]; nlinarith) (.inr ?_)
    rw [← Nat.add_assoc, Nat.add_sub_cancel, hlow, hhigh, Nat.add_assoc, mul_binade_add_mod_two]
    rcases h with h | ⟨h, heven⟩
    · exact .inl (by nlinarith)
    · exact .inr ⟨by linear_combination (-2 ^ e : K) * h, heven⟩

/-- **A quotient is rounded to the magnitude of its cell.** -/
theorem cell_ofRatio (num : ℕ) {den : ℕ} (hden : 0 < den) :
    Cell (ofRatio num den) (num / den : K) := by
  obtain ⟨hbelow, habove⟩ := between_midpoints (K := K) num hden rfl
  rw [ofRatio, Nat.pow_eq]
  set m := ((num / den).log2 - 52) * binade +
    nearestEven num (den * 2 ^ ((num / den).log2 - 52)) with hm
  rcases Nat.lt_or_ge infinity m with h | h
  · -- The rounding leaves the finite range, so the quotient is beyond the last midpoint.
    rw [Nat.min_eq_left h.le]
    have h1 := (hbelow.midpoint_le h).1
    have h2 := units_lt_units (K := K) h
    exact cell_infinity (by linarith)
  · rw [Nat.min_eq_right h]
    exact ⟨h, hbelow, .inr habove⟩

end Quotient

/-! ## The nearest magnitude -/

section Nearest

variable {K : Type*} [Field K] [LinearOrder K] [IsStrictOrderedRing K]

/-- The value of a magnitude. That of `infinity` is the value that one more binade would start
with. -/
def value (K : Type*) [Field K] (m : ℕ) : K := units m / unitsPerOne

/-- The magnitude is the nearest one to a number, ties to even. -/
structure IsNearest (q : K) (m : ℕ) : Prop where
  le_infinity : m ≤ infinity
  dist_le (n : ℕ) (hn : n ≤ infinity) : |value K m - q| ≤ |value K n - q|
  even_of_tie (n : ℕ) (hn : n ≤ infinity) (hne : n ≠ m)
    (htie : |value K m - q| = |value K n - q|) : m % 2 = 0

/-- Of two numbers the larger one is nearer from the midpoint on. -/
theorem abs_sub_le_abs_sub_iff {a b : K} (hab : a < b) (u : K) :
    |b - u| ≤ |a - u| ↔ a + b ≤ 2 * u := by
  have hsq : (a - u) ^ 2 - (b - u) ^ 2 = (b - a) * (2 * u - (a + b)) := by ring
  rw [← sq_le_sq, ← sub_nonneg, hsq, mul_nonneg_iff_of_pos_left (sub_pos.mpr hab), sub_nonneg]

/-- Up to the midpoint it is the smaller one. -/
theorem abs_sub_le_abs_sub_iff' {a b : K} (hab : a < b) (u : K) :
    |a - u| ≤ |b - u| ↔ 2 * u ≤ a + b := by
  have h := abs_sub_le_abs_sub_iff (neg_lt_neg hab) (-u)
  rwa [neg_sub_neg, neg_sub_neg, abs_sub_comm, abs_sub_comm u b, mul_neg, ← neg_add, neg_le_neg_iff,
    add_comm b] at h

@[simp] theorem unitsPerOne_pos : (0 : K) < unitsPerOne := by
  rw [unitsPerOne_eq]
  positivity

theorem abs_value_sub (m : ℕ) (q : K) :
    |value K m - q| = |(units m : K) - q * unitsPerOne| / unitsPerOne := by
  have hpos := unitsPerOne_pos (K := K)
  rw [value, div_sub' hpos.ne', abs_div, abs_of_pos hpos, mul_comm]

/-- **The magnitude of a number's cell is the nearest one.** -/
theorem Cell.isNearest {m : ℕ} {q : K} (h : Cell m (q * unitsPerOne)) : IsNearest q m := by
  have hpos := unitsPerOne_pos (K := K)
  -- No other magnitude is nearer, and one at the same distance means that `m` is even.
  have side (n : ℕ) (hn : n ≤ infinity) (hne : n ≠ m) :
      |(units m : K) - q * unitsPerOne| ≤ |(units n : K) - q * unitsPerOne| ∧
        (|(units m : K) - q * unitsPerOne| = |(units n : K) - q * unitsPerOne| → m % 2 = 0) := by
    rcases Nat.lt_or_gt_of_ne hne with hlt | hlt
    · have hab := units_lt_units (K := K) hlt
      obtain ⟨hle, heven⟩ := h.below.midpoint_le hlt
      refine ⟨(abs_sub_le_abs_sub_iff hab _).mpr hle, fun heq => heven (le_antisymm hle ?_)⟩
      exact (abs_sub_le_abs_sub_iff' hab _).mp heq.symm.le
    · have hab := units_lt_units (K := K) hlt
      obtain ⟨hle, heven⟩ :=
        (h.above.resolve_left (Nat.ne_of_lt (Nat.lt_of_lt_of_le hlt hn))).le_midpoint hlt
      refine ⟨(abs_sub_le_abs_sub_iff' hab _).mpr hle, fun heq => heven (le_antisymm ?_ hle)⟩
      exact (abs_sub_le_abs_sub_iff hab _).mp heq.symm.le
  refine ⟨h.le_infinity, fun n hn => ?_, fun n hn hne htie => ?_⟩
  · rw [abs_value_sub, abs_value_sub]
    rcases eq_or_ne n m with rfl | hne
    · exact le_rfl
    · exact div_le_div_of_nonneg_right (side n hn hne).1 hpos.le
  · rw [abs_value_sub, abs_value_sub, div_left_inj' hpos.ne'] at htie
    exact (side n hn hne).2 htie

end Nearest

end TraceMath.Magnitude
