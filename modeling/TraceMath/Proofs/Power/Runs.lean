import TraceMath.Proofs.Power.Schedule

/-!
# Runs of a power, side by side and backwards

`formed_induction` carries a fact from the base through the products to the power. Two other ways
through a run start here, again for an arbitrary multiplication.

* `product_lockstep`: powers of two bases with one exponent form their products side by side. What
  relates the bases and is kept by products relates the powers.
* `formed_of_product`: what a product has only if its operands have it goes back from the power to
  every number on the way, because no product of a run is left out of the result.
-/

namespace TraceMath.Power

/-! ## Two runs -/

section Lockstep

variable {α β : Type} {mul : α → α → α} {mul' : β → β → β}

theorem map_square {f : α → β} (hf : ∀ y z, f (mul y z) = mul' (f y) (f z)) (x : α) (i : ℕ) :
    f (square mul x i) = square mul' (f x) i := by
  induction i with
  | zero => rfl
  | succ i ih => simp only [square, hf, ih]

theorem map_product {f : α → β} (hf : ∀ y z, f (mul y z) = mul' (f y) (f z)) (x : α) (n : ℕ) :
    f (product mul x n) = product mul' (f x) n := by
  unfold product
  cases n.bitIndices with
  | nil => rfl
  | cons i is =>
    simp only [productAt, ← map_square hf]
    exact (List.foldl_hom f fun y j => by rw [hf, map_square hf]).symm

variable {x : α} {x' : β} {n : ℕ} {R : ℕ → α → β → Prop}

/-- **Two runs in lockstep.** The pairs of corresponding numbers are a run of their own, with the
products of pairs. -/
theorem product_lockstep (hone : R 1 x x')
    (hmul : ∀ {i j : ℕ} {y z : α} {y' z' : β}, R i y y' → R j z z' →
      R (i + j) (mul y z) (mul' y' z'))
    (pos : 0 < n) : R n (product mul x n) (product mul' x' n) := by
  let pairs (p q : α × β) : α × β := (mul p.1 q.1, mul' p.2 q.2)
  have hfst : (product pairs (x, x') n).1 = product mul x n :=
    map_product (fun _ _ => rfl) (x, x') n
  have hsnd : (product pairs (x, x') n).2 = product mul' x' n :=
    map_product (fun _ _ => rfl) (x, x') n
  have hpairs : R n (product pairs (x, x') n).1 (product pairs (x, x') n).2 :=
    product_induction (P := fun n (p : α × β) => R n p.1 p.2) hone
      (fun _ _ _ hy hz => hmul hy hz) pos le_rfl
  rwa [hfst, hsnd] at hpairs

end Lockstep

/-! ## From the power back -/

section Backwards

variable {α : Type} (mul : α → α → α) (x : α) {n i : ℕ}

/-- The products of a run are the squares before the highest bit, and at each one bit above the
lowest the product of the squares below by the square there. -/
theorem mem_formed_iff {p : α × α} : p ∈ formed mul x n ↔ ∃ i < n.log2,
    p = (square mul x i, square mul x i) ∨
      n.testBit (i + 1) = true ∧ n % 2 ^ (i + 1) ≠ 0 ∧
        p = (product mul x (n % 2 ^ (i + 1)), square mul x (i + 1)) := by
  simp only [formed, formedAt, List.mem_flatMap, List.mem_range, List.mem_cons]
  refine exists_congr fun i => and_congr_right fun _ => or_congr_right ?_
  split <;> simp_all

/-- The square at a one bit is the last factor of the product at the bits up to it. -/
theorem product_mod_two_pow_succ (hbit : n.testBit i = true) (hlow : n % 2 ^ i ≠ 0) :
    product mul x (n % 2 ^ (i + 1)) = mul (product mul x (n % 2 ^ i)) (square mul x i) := by
  have hlt : n % 2 ^ i < 2 ^ i := Nat.mod_lt n (Nat.two_pow_pos i)
  rw [mod_two_pow_succ, (testBit_iff_div_mod n i).mp hbit, Nat.mul_one]
  exact product_two_pow_add mul x (Nat.pos_of_ne_zero hlow) hlt

variable {mul x} {Q : α → Prop}
  (hmul : ∀ p ∈ formed mul x n, Q (mul p.1 p.2) → Q p.1 ∧ Q p.2)

include hmul

theorem factors_of_product_mod (hi : i ≤ n.log2) (hbit : n.testBit i = true)
    (hlow : n % 2 ^ i ≠ 0) (h : Q (product mul x (n % 2 ^ (i + 1)))) :
    Q (product mul x (n % 2 ^ i)) ∧ Q (square mul x i) := by
  obtain ⟨j, rfl⟩ : ∃ j, i = j + 1 := Nat.exists_eq_succ_of_ne_zero (by rintro rfl; omega)
  rw [product_mod_two_pow_succ mul x hbit hlow] at h
  exact hmul _ ((mem_formed_iff mul x).mpr ⟨j, hi, .inr ⟨hbit, hlow, rfl⟩⟩) h

variable (h : Q (product mul x n))

include h

/-- From the highest bit down, a factor of the product is taken off at each one bit. -/
theorem product_mod_of_product (hi : i ≤ n.log2 + 1) (hlow : n % 2 ^ i ≠ 0) :
    Q (product mul x (n % 2 ^ i)) := by
  induction hi using Nat.decreasingInduction with
  | self => rwa [Nat.mod_eq_of_lt Nat.lt_log2_self]
  | of_succ i hi ih =>
    have hmod := mod_two_pow_succ n i
    have hproduct := ih (by omega)
    by_cases hbit : n.testBit i = true
    · exact (factors_of_product_mod hmul (Nat.le_of_lt_succ hi) hbit hlow hproduct).1
    · rw [testBit_iff_div_mod] at hbit
      rwa [hmod, show n / 2 ^ i % 2 = 0 by omega, Nat.mul_zero, Nat.zero_add] at hproduct

/-- The square at the highest bit is a factor of the power, or the power itself. Each square before
it is a factor of the next one. -/
theorem square_of_product (pos : 0 < n) (hi : i ≤ n.log2) : Q (square mul x i) := by
  have hbit : n.testBit n.log2 = true := Nat.testBit_log2 (Nat.ne_of_gt pos)
  have hmod : n % 2 ^ (n.log2 + 1) = n := Nat.mod_eq_of_lt Nat.lt_log2_self
  induction hi using Nat.decreasingInduction with
  | self =>
    by_cases hlow : n % 2 ^ n.log2 = 0
    · -- There is no lower one bit.
      have hpow := mod_two_pow_succ n n.log2
      rw [hmod, (testBit_iff_div_mod n n.log2).mp hbit, hlow, Nat.mul_one, Nat.add_zero] at hpow
      rwa [hpow, product_two_pow] at h
    · exact (factors_of_product_mod hmul le_rfl hbit hlow (by rwa [hmod])).2
  | of_succ i hi ih => exact (hmul _ ((mem_formed_iff mul x).mpr ⟨i, hi, .inl rfl⟩) ih).1

/-- **Back from the power.** What the power has, and a product has only if its operands have it,
every product on the way has. -/
theorem formed_of_product (pos : 0 < n) : ∀ p ∈ formed mul x n, Q (mul p.1 p.2) := by
  intro p hp
  obtain ⟨i, hi, rfl | ⟨hbit, hlow, rfl⟩⟩ := (mem_formed_iff mul x).mp hp
  · exact square_of_product hmul h pos (Nat.succ_le_of_lt hi)
  · have hmod := mod_two_pow_succ n (i + 1)
    rw [← product_mod_two_pow_succ mul x hbit hlow]
    exact product_mod_of_product hmul h (by omega) (by omega)

end Backwards

end TraceMath.Power
