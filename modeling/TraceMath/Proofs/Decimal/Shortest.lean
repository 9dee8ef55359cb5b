import TraceMath.Decimal.Shortest
import TraceMath.Proofs.Decimal.Reading

/-!
# The shortest decimal reads back

The search looks at the multiples of falling powers of ten and stops at the first one in the cell of
the number. So its result is in the cell, and no multiple of the next larger power of ten is.

* `Decimal.Readable.search_spec`: these two facts, for every start that is large enough.
* `Decimal.digitCount_le_of_cell`: they suffice for the least number of digits. A shorter decimal of
  the cell is a multiple of the larger power itself, or so small that one lies between it and the
  result.
* `Binary64.exists_plain_chars`: the text of a finite number is a plain decimal that is read as the
  number, and no plain decimal that is read as the number has fewer significant digits.
-/

namespace TraceMath

namespace Decimal

namespace Readable

/-! ## Numbers that read back -/

theorem Holds.between {r : Readable} {a b c : ℕ} (ha : r.Holds a) (hc : r.Holds c) (hab : a ≤ b)
    (hbc : b ≤ c) : r.Holds b := by
  unfold Holds at *
  split_ifs at * <;> omega

/-- Half of the unit `2^-1074`, in units of `10^-1075`. -/
def halfUnit : ℕ := Nat.pow 5 1075

theorem halfUnit_pos : 0 < halfUnit := by decide +kernel

theorem halfUnit_eq : 2 * Magnitude.unitsPerOne * halfUnit = 10 ^ 1075 := by decide +kernel

section

open Magnitude

variable {m n : ℕ}

theorem low_ofMagnitude (m : ℕ) :
    (ofMagnitude m).low = (units (m - 1) + units m) * halfUnit := by
  unfold ofMagnitude halfUnit
  with_reducible rfl

theorem high_ofMagnitude (m : ℕ) :
    (ofMagnitude m).high = (units m + units (m + 1)) * halfUnit := by
  unfold ofMagnitude halfUnit
  with_reducible rfl

theorem value_ofMagnitude (m : ℕ) : (ofMagnitude m).value = 2 * units m * halfUnit := by
  unfold ofMagnitude halfUnit
  with_reducible rfl

theorem two_mul_units (n : ℕ) :
    (2 * (n * 10 ^ (-1075 : ℤ) * unitsPerOne) : ℚ) = n / halfUnit := by
  have hpos : (0 : ℚ) < halfUnit := Nat.cast_pos.mpr halfUnit_pos
  have hten : ((10 ^ 1075 : ℕ) : ℚ) = 10 ^ (1075 : ℤ) := by
    rw [Nat.cast_pow, ← zpow_natCast]
    rfl
  have hunit : (10 : ℚ) ^ (1075 : ℤ) = 2 * unitsPerOne * halfUnit := by
    rw [← hten, ← halfUnit_eq, Nat.cast_mul, Nat.cast_mul, Nat.cast_two]
  have hone : (0 : ℚ) < unitsPerOne := unitsPerOne_pos
  rw [zpow_neg, hunit]
  generalize (unitsPerOne : ℚ) = u at hone ⊢
  field_simp

/-- In units of `10^-1075` the numbers of a cell are those that read back. -/
theorem holds_ofMagnitude (hpos : 0 < m) (hfinite : m < infinity) :
    (ofMagnitude m).Holds n ↔ Cell m (n * 10 ^ (-1075 : ℤ) * unitsPerOne : ℚ) := by
  have hhalf : (0 : ℚ) < halfUnit := Nat.cast_pos.mpr halfUnit_pos
  have hbelow : FromBelow m (n * 10 ^ (-1075 : ℤ) * unitsPerOne : ℚ) ↔
      (ofMagnitude m).low < n ∨ (ofMagnitude m).low = n ∧ m % 2 = 0 := by
    rw [FromBelow, two_mul_units, lt_div_iff₀ hhalf, eq_div_iff hhalf.ne', low_ofMagnitude,
      ← Nat.cast_add, ← Nat.cast_mul, Nat.cast_lt, Nat.cast_inj, or_iff_right hpos.ne']
  have habove : FromAbove m (n * 10 ^ (-1075 : ℤ) * unitsPerOne : ℚ) ↔
      n < (ofMagnitude m).high ∨ n = (ofMagnitude m).high ∧ m % 2 = 0 := by
    rw [FromAbove, two_mul_units, div_lt_iff₀ hhalf, div_eq_iff hhalf.ne', high_ofMagnitude,
      ← Nat.cast_add, ← Nat.cast_mul, Nat.cast_lt, Nat.cast_inj]
  have hclosed : (ofMagnitude m).closed = true ↔ m % 2 = 0 := decide_eq_true_iff
  have hcell : Cell m (n * 10 ^ (-1075 : ℤ) * unitsPerOne : ℚ) ↔
      FromBelow m (n * 10 ^ (-1075 : ℤ) * unitsPerOne : ℚ) ∧
        FromAbove m (n * 10 ^ (-1075 : ℤ) * unitsPerOne : ℚ) :=
    ⟨fun h => ⟨h.below, h.above.resolve_left hfinite.ne⟩, fun h => ⟨hfinite.le, h.1, .inr h.2⟩⟩
  -- What is left is the comparison of `n` with the two ends, which belong to the cell or do not.
  rw [hcell, hbelow, habove, Holds]
  split_ifs with h
  · have := hclosed.mp h
    omega
  · have := mt hclosed.mpr h
    omega

end

variable {r : Readable} {grid : ℕ}

theorem holds_of_onGrid? {c : ℕ} (h : r.onGrid? grid = some c) : r.Holds (c * grid) := by
  simp only [onGrid?] at h
  split_ifs at h with hbelow habove habove'
  · cases h
    exact habove.1
  · cases h
    exact hbelow
  · cases h
    exact habove'

/-- Of the multiples below and above the value only the next ones are tried. -/
theorem not_holds_of_onGrid? (hvalue : r.Holds r.value) (hgrid : 0 < grid)
    (h : r.onGrid? grid = none) (k : ℕ) : ¬r.Holds (k * grid) := by
  intro hk
  simp only [onGrid?] at h
  split_ifs at h with hbelow habove habove'
  have hdiv := Nat.div_add_mod' r.value grid
  have hmod := Nat.mod_lt r.value hgrid
  rcases Nat.lt_or_ge (r.value / grid) k with hlt | hge
  · have hle : (r.value / grid + 1) * grid ≤ k * grid := Nat.mul_le_mul_right grid hlt
    refine habove' (hvalue.between hk ?_ hle)
    rw [Nat.succ_mul]
    omega
  · have hle : k * grid ≤ r.value / grid * grid := Nat.mul_le_mul_right grid hge
    exact hbelow (hk.between hvalue hle (by omega))

/-! ## The search -/

/-- **The search ends at the largest power of ten with a multiple that reads back.** -/
theorem search_spec (hvalue : r.Holds r.value) {start : ℕ}
    (hstart : ∀ k, ¬r.Holds (k * 10 ^ (start + 1))) :
    r.Holds ((r.search start).1 * 10 ^ (r.search start).2) ∧
      ∀ k, ¬r.Holds (k * 10 ^ ((r.search start).2 + 1)) := by
  induction start with
  | zero =>
    rw [search]
    exact ⟨by simpa using hvalue, hstart⟩
  | succ t ih =>
    rw [search]
    split
    · next c hc => exact ⟨holds_of_onGrid? hc, hstart⟩
    · next hnone => exact ih (not_holds_of_onGrid? hvalue (Nat.pow_pos (by decide)) hnone)

theorem holds_value {m : ℕ} (hpos : 0 < m) (hfinite : m < Magnitude.infinity) :
    (ofMagnitude m).Holds (ofMagnitude m).value := by
  have hhalf : (halfUnit : ℚ) ≠ 0 := Nat.cast_ne_zero.mpr halfUnit_pos.ne'
  have hdiv : ((ofMagnitude m).value / halfUnit : ℚ) = 2 * Magnitude.units m := by
    rw [value_ofMagnitude, Nat.cast_mul, mul_div_cancel_right₀ _ hhalf, Nat.cast_mul, Nat.cast_two]
  rw [holds_ofMagnitude hpos hfinite,
    mul_left_cancel₀ two_ne_zero ((two_mul_units (ofMagnitude m).value).trans hdiv)]
  exact Magnitude.cell_units hfinite.le

theorem pos_of_holds {m n : ℕ} (hpos : 0 < m) (h : (ofMagnitude m).Holds n) : 0 < n := by
  have hm : 0 < Magnitude.units m := Magnitude.units_zero ▸ Magnitude.units_strictMono hpos
  have hlow : 0 < (ofMagnitude m).low := by
    rw [low_ofMagnitude]
    exact Nat.mul_pos (by omega) halfUnit_pos
  unfold Holds at h
  split_ifs at h <;> omega

theorem lt_of_holds {m n : ℕ} (hpos : 0 < m) (h : (ofMagnitude m).Holds n) :
    n < 10 * (ofMagnitude m).value := by
  have hm : 0 < Magnitude.units m := Magnitude.units_zero ▸ Magnitude.units_strictMono hpos
  have hsucc := (Magnitude.units_succ m).2 hpos
  have hhigh : (ofMagnitude m).high < 10 * (ofMagnitude m).value := by
    rw [high_ofMagnitude, value_ofMagnitude, ← Nat.mul_assoc]
    exact Nat.mul_lt_mul_of_pos_right (by omega) halfUnit_pos
  unfold Holds at h
  split_ifs at h <;> omega

open Magnitude in
/-- The result is in the cell, and no multiple of the next power of ten is. -/
theorem shortest_spec {m : ℕ} (hpos : 0 < m) (hfinite : m < infinity) :
    (ofMagnitude m).Holds ((ofMagnitude m).shortest.1 * 10 ^ (ofMagnitude m).shortest.2) ∧
      ∀ k, ¬(ofMagnitude m).Holds (k * 10 ^ ((ofMagnitude m).shortest.2 + 1)) := by
  refine search_spec (holds_value hpos hfinite) fun k hk => ?_
  have hlt := lt_of_holds hpos hk
  have hk0 : 0 < k := by
    rcases Nat.eq_zero_or_pos k with rfl | hk0
    · simpa using pos_of_holds hpos hk
    · exact hk0
  have hvalue := lt_pow_digitCount (ofMagnitude m).value
  rw [Nat.pow_succ] at hlt
  nlinarith

end Readable

open Magnitude in
/-- **A decimal of a cell has the least number of digits, if no multiple of the next power of ten is
in the cell.** -/
theorem digitCount_le_of_cell {m c : ℕ} {e : ℤ} (hc : 0 < c)
    (hcell : Cell m (c * 10 ^ e * unitsPerOne : ℚ))
    (hnone : ∀ k : ℕ, ¬Cell m (k * 10 ^ (e + 1) * unitsPerOne : ℚ)) {c' s : ℕ} {e' : ℤ}
    (hs : c' < 10 ^ s) (hcell' : Cell m (c' * 10 ^ e' * unitsPerOne : ℚ)) : digitCount c ≤ s := by
  by_contra! hlt
  rcases Int.lt_or_le e e' with he | he
  · -- The other decimal is itself such a multiple.
    refine hnone (c' * 10 ^ (e' - (e + 1)).toNat) ?_
    convert hcell' using 2
    rw [Nat.cast_mul, Nat.cast_pow, Nat.cast_ofNat, ← zpow_natCast, mul_assoc,
      ← zpow_add₀ (by norm_num)]
    congr 2
    omega
  · -- A power of ten with as many digits as `c` is between the two decimals.
    have hs0 : 0 < s := by
      rcases Nat.eq_zero_or_pos s with rfl | hs0
      · obtain rfl : c' = 0 := by simpa using hs
        have hout := hnone 0
        rw [Nat.cast_zero, zero_mul, zero_mul] at hcell' hout
        exact absurd hcell' hout
      · exact hs0
    have hmiddle : ((10 ^ (digitCount c - 2) : ℕ) : ℚ) * 10 ^ (e + 1) =
        10 ^ (digitCount c - 1 + e : ℤ) := by
      rw [Nat.cast_pow, Nat.cast_ofNat, ← zpow_natCast, ← zpow_add₀ (by norm_num)]
      congr 1
      omega
    refine hnone (10 ^ (digitCount c - 2)) (hcell'.convex hcell ?_ ?_)
    · refine mul_le_mul_of_nonneg_right ?_ unitsPerOne_pos.le
      calc (c' * 10 ^ e' : ℚ) ≤ 10 ^ s * 10 ^ e' := by
            gcongr
            exact_mod_cast hs.le
        _ = 10 ^ (s + e' : ℤ) := by rw [zpow_add₀ (by norm_num), zpow_natCast]
        _ ≤ 10 ^ (digitCount c - 1 + e : ℤ) := zpow_le_zpow_right₀ (by norm_num) (by omega)
        _ = _ := hmiddle.symm
    · refine mul_le_mul_of_nonneg_right ?_ unitsPerOne_pos.le
      have hpow : (10 ^ digitCount c : ℚ) ≤ 10 * c := by exact_mod_cast pow_digitCount_le hc
      rw [hmiddle, zpow_add₀ (by norm_num), zpow_sub_one₀ (by norm_num), zpow_natCast]
      gcongr
      linarith

/-! ## The shortest decimal of a number -/

section Number

open Magnitude

variable {x : Binary64}

theorem holds_iff_cell {m : ℕ} (hpos : 0 < m) (hfinite : m < infinity) (c t : ℕ) :
    (Readable.ofMagnitude m).Holds (c * 10 ^ t) ↔
      Cell m (c * 10 ^ (t - 1075 : ℤ) * unitsPerOne : ℚ) := by
  rw [Readable.holds_ofMagnitude hpos hfinite, sub_eq_add_neg, zpow_add₀ (by norm_num),
    zpow_natCast, Nat.cast_mul, Nat.cast_pow, Nat.cast_ofNat, mul_assoc (c : ℚ)]

/-- The result of the search, as a decimal. -/
theorem exists_shortest_eq (hx : x.IsFinite) (hz : ¬x.IsZero) :
    ∃ (c : ℕ) (e : ℤ), shortest x = ⟨x.negative, c, e⟩ ∧ 0 < c ∧
      Cell x.magnitude (c * 10 ^ e * unitsPerOne : ℚ) ∧
      ∀ k : ℕ, ¬Cell x.magnitude (k * 10 ^ (e + 1) * unitsPerOne : ℚ) := by
  have hpos := Nat.pos_of_ne_zero hz
  have hspec := Readable.shortest_spec hpos hx
  rw [shortest]
  generalize (Readable.ofMagnitude x.magnitude).shortest = r at hspec ⊢
  obtain ⟨c, t⟩ := r
  refine ⟨c, t - 1075, by rw [if_neg hz],
    Nat.pos_of_mul_pos_right (Readable.pos_of_holds hpos hspec.1),
    (holds_iff_cell hpos hx c t).mp hspec.1, fun k => ?_⟩
  rw [show (t - 1075 + 1 : ℤ) = (t + 1 : ℕ) - 1075 by push_cast; ring]
  exact mt (holds_iff_cell hpos hx k (t + 1)).mpr (hspec.2 k)

theorem negative_shortest (x : Binary64) : (shortest x).negative = x.negative := by
  rw [shortest]
  split
  · rfl
  · obtain ⟨c, t⟩ := (Readable.ofMagnitude x.magnitude).shortest
    rfl

theorem cell_shortest (hx : x.IsFinite) : Cell x.magnitude ((shortest x).size * unitsPerOne) := by
  by_cases hz : x.IsZero
  · rw [shortest, if_pos hz, hz, size, Nat.cast_zero, zero_mul, zero_mul]
    exact cell_zero_zero
  · obtain ⟨c, e, heq, -, hcell, -⟩ := exists_shortest_eq hx hz
    rw [heq, size]
    exact hcell

/-- No number of fewer digits, times a power of ten, is in the cell. -/
theorem digitCount_shortest_le (hx : x.IsFinite) (hz : ¬x.IsZero) {c s : ℕ} {e : ℤ}
    (hs : c < 10 ^ s) (hcell : Cell x.magnitude (c * 10 ^ e * unitsPerOne : ℚ)) :
    digitCount (shortest x).coefficient ≤ s := by
  obtain ⟨c', e', heq, hpos, hin, hout⟩ := exists_shortest_eq hx hz
  rw [heq]
  exact digitCount_le_of_cell hpos hin hout hs hcell

end Number

/-! ## Its text -/

/-- The text with the given digits in front of the point and behind it. -/
theorem exists_layout (d : Decimal) :
    ∃ whole fraction : List ℕ, ∃ a b : ℕ, whole ≠ [] ∧
      whole ++ fraction = List.replicate a 0 ++ (digits d.coefficient ++ List.replicate b 0) ∧
      d.exponent = b - fraction.length ∧
      d.positional = whole.map digitChar ++
        if fraction = [] then [] else '.' :: fraction.map digitChar := by
  have hlength : (natChars d.coefficient).length = (digits d.coefficient).length := by
    rw [natChars, List.length_map]
  have hne := digits_ne_nil d.coefficient
  by_cases he : 0 ≤ d.exponent
  · -- Zeros behind the digits.
    refine ⟨digits d.coefficient ++ List.replicate d.exponent.toNat 0, [], 0, d.exponent.toNat,
      List.append_ne_nil_of_left_ne_nil hne _, List.append_nil _, ?_, ?_⟩
    · rw [List.length_nil]
      omega
    · rw [positional, if_pos he, if_pos rfl, List.map_append, List.map_replicate, natChars,
        List.append_nil]
      rfl
  · by_cases hshort : (-d.exponent).toNat < (digits d.coefficient).length
    · -- A point between the digits.
      refine ⟨(digits d.coefficient).take ((digits d.coefficient).length - (-d.exponent).toNat),
        (digits d.coefficient).drop ((digits d.coefficient).length - (-d.exponent).toNat), 0, 0,
        ?_, ?_, ?_, ?_⟩
      · rw [← List.length_pos_iff, List.length_take]
        omega
      · rw [List.take_append_drop]
        simp
      · rw [List.length_drop]
        omega
      · have hdrop : (digits d.coefficient).drop
            ((digits d.coefficient).length - (-d.exponent).toNat) ≠ [] := by
          rw [← List.length_pos_iff, List.length_drop]
          omega
        rw [positional, if_neg he, hlength, if_pos hshort, if_neg hdrop, List.map_take,
          List.map_drop, natChars]
    · -- Zeros in front of the digits.
      refine ⟨[0], List.replicate ((-d.exponent).toNat - (digits d.coefficient).length) 0 ++
          digits d.coefficient, (-d.exponent).toNat - (digits d.coefficient).length + 1, 0,
        List.cons_ne_nil _ _, ?_, ?_, ?_⟩
      · rw [List.replicate_succ]
        simp
      · rw [List.length_append, List.length_replicate]
        omega
      · rw [positional, if_neg he, hlength, if_neg hshort,
          if_neg (List.append_ne_nil_of_right_ne_nil _ hne), List.map_append, List.map_replicate,
          natChars]
        rfl

/-- A decimal is written as a plain decimal of the same value. -/
theorem exists_plain_positional (d : Decimal) :
    ∃ p : PlainDecimal, p.negative = d.negative ∧ p.unsignedText = d.positional ∧
      p.size = d.size ∧ p.significant = (PlainDecimal.strip (digits d.coefficient)).length := by
  obtain ⟨whole, fraction, a, b, hne, hdigits, hplace, htext⟩ := exists_layout d
  have hlt : ∀ z ∈ whole ++ fraction, z < 10 := by
    have hzero (n z : ℕ) (hz : z ∈ List.replicate n 0) : z < 10 := by
      rw [List.eq_of_mem_replicate hz]
      decide
    rw [hdigits]
    exact List.forall_mem_append.mpr
      ⟨hzero a, List.forall_mem_append.mpr ⟨digits_lt d.coefficient, hzero b⟩⟩
  refine ⟨⟨d.negative, whole, fraction, hne, hlt⟩, rfl, htext.symm, ?_, ?_⟩
  · simp only [PlainDecimal.size, hdigits]
    rw [ofDigits_append, ofDigits_replicate_zero, ofDigits_append, ofDigits_replicate_zero,
      ofDigits_digits, List.length_replicate, size, hplace, zpow_sub₀ (by norm_num), zpow_natCast,
      zpow_natCast]
    push_cast
    ring
  · simp only [PlainDecimal.significant, hdigits]
    rw [PlainDecimal.strip_replicate_append, PlainDecimal.strip_append_replicate]

end Decimal

/-- **The text of a finite number is a plain decimal that is read as the number, and no plain
decimal with fewer significant digits is.** -/
theorem Binary64.exists_plain_chars {x : Binary64} (hx : x.IsFinite) :
    ∃ p : PlainDecimal, x.chars = p.text ∧ p.number = x ∧
      ∀ p' : PlainDecimal, p'.number = x → p.significant ≤ p'.significant := by
  obtain ⟨p, hsign, htext, hsize, hsignificant⟩ := Decimal.exists_plain_positional (.shortest x)
  have hneg : p.negative = x.negative := hsign.trans (Decimal.negative_shortest x)
  refine ⟨p, ?_, ?_, fun p' hp' => ?_⟩
  · rw [chars, if_neg (Nat.not_lt.mpr hx.le), PlainDecimal.text, hneg, htext]
    simp only [if_neg hx.ne]
  · refine ext_parts (p.negative_number.trans hneg) ?_
    have hcell := p.cell_number
    rw [hsize] at hcell
    exact hcell.unique (Decimal.cell_shortest hx)
  · -- A zero has no significant digits. For the others the other text is a decimal in the cell.
    rw [hsignificant]
    by_cases hz : x.IsZero
    · have hzero : PlainDecimal.strip (Decimal.digits 0) = [] := by
        rw [Decimal.digits, if_pos (by decide)]
        rfl
      rw [Decimal.shortest, if_pos hz, hzero]
      exact Nat.zero_le _
    · obtain ⟨c, j, hc, hsize'⟩ := p'.exists_size_eq
      have hcell := p'.cell_number
      rw [hp', hsize'] at hcell
      calc _ ≤ (Decimal.digits (Decimal.shortest x).coefficient).length :=
            PlainDecimal.length_strip_le _
        _ = _ := Decimal.length_digits _
        _ ≤ _ := Decimal.digitCount_shortest_le hx hz hc hcell

end TraceMath
