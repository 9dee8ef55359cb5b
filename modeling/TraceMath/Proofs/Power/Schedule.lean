import Mathlib.Data.Nat.BitIndices
import Mathlib.Tactic.Ring
import TraceMath.Power

/-!
# The schedule of a power

A power is a product of squares, and for floating-point numbers the order of the products is part
of the result. Here the multiplication is arbitrary: no law is assumed of it, so the equations say
which expression is computed.

* `Power.square`: `x`, `x * x`, `(x * x) * (x * x)`, …
* `Power.product`: the squares at the one bits of the exponent, multiplied from the lowest bit up.
* `Power.positiveM`: the recursions of `Power.positive` with a multiplication that may have an
  effect. The effect cannot change the result (`positiveM_value`). With a log as the effect it shows
  what is multiplied: `Power.formed` (`positiveM_logged`), with no square beyond the highest bit.
* `Power.formed_induction`: what holds of `x` and is kept by the products up to the exponent holds
  of every number on the way. It is the one induction on powers that other modules need.
-/

namespace TraceMath.Power

variable {α : Type} (mul : α → α → α)

/-! ## Squares and their products -/

/-- The `i`-th repeated square of `x`. -/
def square (x : α) : ℕ → α
  | 0 => x
  | i + 1 => mul (square x i) (square x i)

/-- The squares at the positions, multiplied from the left to the right. -/
def productAt (x : α) : List ℕ → α
  | [] => x
  | i :: is => is.foldl (fun y j => mul y (square mul x j)) (square mul x i)

/-- The squares at the one bits of `n`, multiplied from the lowest bit up. -/
def product (x : α) (n : ℕ) : α := productAt mul x n.bitIndices

theorem productAt_append_singleton (x : α) {is : List ℕ} (h : is ≠ []) (j : ℕ) :
    productAt mul x (is ++ [j]) = mul (productAt mul x is) (square mul x j) := by
  cases is with
  | nil => exact absurd rfl h
  | cons i is =>
    rw [List.cons_append, productAt, List.foldl_append]
    rfl

theorem bitIndices_ne_nil {n : ℕ} (pos : 0 < n) : n.bitIndices ≠ [] := by
  intro hnil
  have hsum := Nat.sum_map_two_pow_bitIndices n
  rw [hnil] at hsum
  simp at hsum
  omega

/-- A higher bit comes behind the lower ones. -/
theorem bitIndices_two_pow_add {r i : ℕ} (h : r < 2 ^ i) :
    (2 ^ i + r).bitIndices = r.bitIndices ++ [i] := by
  induction i generalizing r with
  | zero =>
    obtain rfl : r = 0 := by omega
    simp
  | succ i ih =>
    -- `bitIndices` takes the lowest bit off, and the sum without it is `2 ^ i + r / 2`.
    rw [Nat.pow_succ] at h
    have ih := ih (r := r / 2) (by omega)
    rcases Nat.mod_two_eq_zero_or_one r with hr | hr
    · obtain ⟨m, rfl⟩ : ∃ m, r = 2 * m := ⟨r / 2, by omega⟩
      rw [show 2 ^ (i + 1) + 2 * m = 2 * (2 ^ i + m) by ring, Nat.bitIndices_two_mul,
        Nat.bitIndices_two_mul]
      rw [Nat.mul_div_cancel_left _ (by decide)] at ih
      rw [ih, List.map_append, List.map_singleton]
    · obtain ⟨m, rfl⟩ : ∃ m, r = 2 * m + 1 := ⟨r / 2, by omega⟩
      rw [show 2 ^ (i + 1) + (2 * m + 1) = 2 * (2 ^ i + m) + 1 by ring,
        Nat.bitIndices_two_mul_add_one, Nat.bitIndices_two_mul_add_one]
      rw [show (2 * m + 1) / 2 = m by omega] at ih
      rw [ih, List.map_append, List.map_singleton, List.cons_append]

@[simp] theorem product_two_pow (x : α) (i : ℕ) : product mul x (2 ^ i) = square mul x i := by
  rw [product, Nat.bitIndices_two_pow]
  rfl

/-- The square at the highest bit is the last factor. -/
theorem product_two_pow_add (x : α) {r i : ℕ} (hpos : 0 < r) (h : r < 2 ^ i) :
    product mul x (2 ^ i + r) = mul (product mul x r) (square mul x i) := by
  rw [product, bitIndices_two_pow_add h,
    productAt_append_singleton mul x (bitIndices_ne_nil hpos)]
  rfl

/-! ## Products with an effect -/

section Effect

variable {m : Type → Type} [Monad m] (mulM : α → α → m α)

theorem div_two_pos_of_ne_one {n : ℕ} (pos : 0 < n) (last : ¬n = 1) : 0 < n / 2 := by omega

theorem div_two_pos_of_even {n : ℕ} (pos : 0 < n) (even : n % 2 = 0) : 0 < n / 2 := by omega

/-- `extend`, where a product may have an effect. -/
def extendM (y x : α) (n : ℕ) (pos : 0 < n) : m α := do
  let square ← mulM x x
  if last : n = 1 then mulM y square
  else
    let y ← if n % 2 = 1 then mulM y square else pure y
    extendM y square (n / 2) (div_two_pos_of_ne_one pos last)
termination_by n
decreasing_by exact Nat.div_lt_self pos Nat.one_lt_two

/-- `positive`, where a product may have an effect. -/
def positiveM (x : α) (n : ℕ) (pos : 0 < n) : m α :=
  if even : n % 2 = 0 then do
    let square ← mulM x x
    positiveM square (n / 2) (div_two_pos_of_even pos even)
  else if last : n = 1 then pure x
  else extendM mulM x x (n / 2) (div_two_pos_of_ne_one pos last)
termination_by n
decreasing_by exact Nat.div_lt_self pos Nat.one_lt_two

end Effect

section State

/-- One computation after another, as values and states. -/
theorem run_bind_eq {σ β γ : Type} (a : StateM σ β) (f : β → StateM σ γ) (s : σ) :
    (a >>= f).run s = (f (a.run s).1).run (a.run s).2 := rfl

variable {σ : Type} {mulM : α → α → StateM σ α} (h : ∀ y z s, ((mulM y z).run s).1 = mul y z)

include h in
theorem extendM_value (y x : α) (n : ℕ) (pos : 0 < n) (s : σ) :
    ((extendM mulM y x n pos).run s).1 = extend mul y x n pos := by
  induction n using Nat.strongRecOn generalizing y x s with
  | ind n ih =>
    rw [extendM, extend, run_bind_eq, h]
    by_cases last : n = 1
    · rw [dif_pos last, dif_pos last, h]
    · rw [dif_neg last, dif_neg last]
      by_cases odd : n % 2 = 1
      · simp only [odd, if_true, run_bind_eq, h]
        exact ih (n / 2) (by omega) _ _ _ _
      · simp only [odd, if_false, pure_bind]
        exact ih (n / 2) (by omega) _ _ _ _

include h in
/-- **The effect of a product on a state leaves the result alone.** -/
theorem positiveM_value (x : α) (n : ℕ) (pos : 0 < n) (s : σ) :
    ((positiveM mulM x n pos).run s).1 = positive mul x n pos := by
  induction n using Nat.strongRecOn generalizing x s with
  | ind n ih =>
    rw [positiveM, positive]
    by_cases even : n % 2 = 0
    · rw [dif_pos even, dif_pos even, run_bind_eq, h]
      exact ih (n / 2) (by omega) _ _ _
    · rw [dif_neg even, dif_neg even]
      by_cases last : n = 1
      · rw [dif_pos last, dif_pos last]
        rfl
      · rw [dif_neg last, dif_neg last]
        exact extendM_value mul h x x (n / 2) (by omega) s

end State

/-! ## The products of a run -/

/-- Multiplies, and appends the operands to a log. -/
def logged (y z : α) : StateM (List (α × α)) α := fun log => (mul y z, log ++ [(y, z)])

@[simp] theorem logged_run (y z : α) (log : List (α × α)) :
    (logged mul y z).run log = (mul y z, log ++ [(y, z)]) := rfl

theorem positive_eq_logged (x : α) (n : ℕ) (pos : 0 < n) (log : List (α × α)) :
    positive mul x n pos = ((positiveM (logged mul) x n pos).run log).1 :=
  (positiveM_value mul (fun _ _ _ => rfl) x n pos log).symm

/-- The products after the `i`-th bit of `n`: the next square, and if it is at a one bit that is not
the lowest one, the product of the squares so far by it. -/
def formedAt (x : α) (n i : ℕ) : List (α × α) :=
  (square mul x i, square mul x i) ::
    if n.testBit (i + 1) ∧ n % 2 ^ (i + 1) ≠ 0 then
      [(product mul x (n % 2 ^ (i + 1)), square mul x (i + 1))]
    else []

/-- The products that make up the power, in order, each by its operands. -/
def formed (x : α) (n : ℕ) : List (α × α) := (List.range n.log2).flatMap (formedAt mul x n)

section Bits

variable {n i m : ℕ}

theorem mod_two_pow_succ (n i : ℕ) : n % 2 ^ (i + 1) = 2 ^ i * (n / 2 ^ i % 2) + n % 2 ^ i := by
  rw [Nat.pow_succ, Nat.mod_mul, Nat.add_comm]

theorem testBit_iff_div_mod (n i : ℕ) : n.testBit i = true ↔ n / 2 ^ i % 2 = 1 := by
  rw [Nat.testBit_eq_decide_div_mod_eq, decide_eq_true_iff]

theorem div_two_pow_succ (n i : ℕ) : n / 2 ^ (i + 1) = n / 2 ^ i / 2 := by
  rw [Nat.pow_succ, Nat.div_div_eq_div_mul]

theorem log2_of_div_eq_one (h : n / 2 ^ i = 1) : n.log2 = i := by
  have hpow := Nat.two_pow_pos i
  have hlow := Nat.mul_div_le n (2 ^ i)
  have hhigh := Nat.lt_mul_div_succ n hpow
  rw [h] at hlow hhigh
  rw [Nat.log2_eq_iff (by omega), Nat.pow_succ]
  omega

theorem lt_log2_of_one_lt_div (h : 1 < n / 2 ^ i) : i < n.log2 := by
  have hlow := (Nat.le_div_iff_mul_le (Nat.two_pow_pos i)).mp h
  have hn : n ≠ 0 := by
    rintro rfl
    simp at h
  rw [Nat.lt_iff_add_one_le, Nat.le_log2 hn, Nat.pow_succ]
  omega

end Bits

/-- The logged products from the `i`-th bit on. -/
def formedFrom (x : α) (n i : ℕ) : List (α × α) :=
  (List.range' i (n.log2 - i)).flatMap (formedAt mul x n)

theorem formedFrom_eq_nil (x : α) {n i : ℕ} (h : n.log2 = i) : formedFrom mul x n i = [] := by
  rw [formedFrom, h, Nat.sub_self]
  rfl

theorem formedFrom_eq_append (x : α) {n i : ℕ} (h : i < n.log2) :
    formedFrom mul x n i = formedAt mul x n i ++ formedFrom mul x n (i + 1) := by
  rw [formedFrom, show n.log2 - i = n.log2 - (i + 1) + 1 by omega, List.range'_succ,
    List.flatMap_cons]
  rfl

theorem formedAt_of_one (x : α) {n i : ℕ} (hbit : n / 2 ^ (i + 1) % 2 = 1)
    (hlow : n % 2 ^ (i + 1) ≠ 0) :
    formedAt mul x n i = [(square mul x i, square mul x i),
      (product mul x (n % 2 ^ (i + 1)), square mul x (i + 1))] := by
  rw [formedAt, if_pos ⟨(testBit_iff_div_mod n (i + 1)).mpr hbit, hlow⟩]

theorem formedAt_of_zero (x : α) {n i : ℕ} (h : ¬n / 2 ^ (i + 1) % 2 = 1 ∨ n % 2 ^ (i + 1) = 0) :
    formedAt mul x n i = [(square mul x i, square mul x i)] := by
  rw [formedAt, if_neg]
  rw [testBit_iff_div_mod]
  tauto

/-- Above the lowest one bit: a bit is reached with its square and the product of the squares at the
lower one bits. -/
theorem extendM_logged (x : α) {n : ℕ} (m : ℕ) {i : ℕ} (hm : n / 2 ^ (i + 1) = m) (pos : 0 < m)
    (hlow : n % 2 ^ (i + 1) ≠ 0) (log : List (α × α)) :
    (extendM (logged mul) (product mul x (n % 2 ^ (i + 1))) (square mul x i) m pos).run log =
      (product mul x n, log ++ formedFrom mul x n i) := by
  -- `n` stays as it is, and `m` and `i` say how far the run has come: the bits up to `i` are done,
  -- the product of their squares is at hand, and `m` has the bits above.
  induction m using Nat.strongRecOn generalizing i log with
  | ind m ih =>
    have hlt : n % 2 ^ (i + 1) < 2 ^ (i + 1) := Nat.mod_lt n (Nat.two_pow_pos _)
    have hproduct := product_two_pow_add mul x (Nat.pos_of_ne_zero hlow) hlt
    have hsquare : mul (square mul x i) (square mul x i) = square mul x (i + 1) := rfl
    rw [extendM, run_bind_eq, logged_run, hsquare]
    by_cases last : m = 1
    · -- Bit `i + 1` is the highest one. The low part and it make `n`, and nothing is formed after.
      have hlog := log2_of_div_eq_one (hm.trans last)
      have hn := mod_two_pow_succ n (i + 1)
      rw [hm, last, Nat.mul_one, Nat.mod_eq_of_lt (by rw [← hlog]; exact Nat.lt_log2_self)] at hn
      rw [← hn] at hproduct
      rw [dif_pos last, formedFrom_eq_append mul x (by omega), formedFrom_eq_nil mul x hlog,
        formedAt_of_one mul x (by omega) hlow, logged_run, hproduct, List.append_assoc]
      rfl
    · have hlog : i + 1 < n.log2 := lt_log2_of_one_lt_div (by omega)
      have hdiv : n / 2 ^ (i + 2) = m / 2 := by rw [div_two_pow_succ, hm]
      have hmod := mod_two_pow_succ n (i + 1)
      rw [dif_neg last, formedFrom_eq_append mul x (by omega)]
      by_cases odd : m % 2 = 1
      · -- The bit joins the low part, and its square the product.
        rw [hm, odd, Nat.mul_one] at hmod
        rw [formedAt_of_one mul x (by omega) hlow]
        simp only [odd, if_true, run_bind_eq, logged_run]
        rw [← hproduct, ← hmod, ih (m / 2) (by omega) hdiv (by omega) (by omega)]
        simp only [List.append_assoc, List.cons_append, List.nil_append]
      · -- The low part stays as it is, so only the square is formed.
        rw [hm, show m % 2 = 0 by omega, Nat.mul_zero, Nat.zero_add] at hmod
        rw [formedAt_of_zero mul x (by omega)]
        simp only [odd, if_false, pure_bind]
        rw [← hmod, ih (m / 2) (by omega) hdiv (by omega) (by omega), List.append_assoc]

/-- Up to the lowest one bit: a bit is reached with its square. -/
theorem positiveM_logged_from (x : α) {n : ℕ} (m : ℕ) {i : ℕ} (hm : n / 2 ^ i = m) (pos : 0 < m)
    (hlow : n % 2 ^ i = 0) (log : List (α × α)) :
    (positiveM (logged mul) (square mul x i) m pos).run log =
      (product mul x n, log ++ formedFrom mul x n i) := by
  induction m using Nat.strongRecOn generalizing i log with
  | ind m ih =>
    have hmod := mod_two_pow_succ n i
    rw [hm, hlow] at hmod
    rw [positiveM]
    by_cases even : m % 2 = 0
    · have hlog : i < n.log2 := lt_log2_of_one_lt_div (by omega)
      have hdiv : n / 2 ^ (i + 1) = m / 2 := by rw [div_two_pow_succ, hm]
      rw [even, Nat.mul_zero, Nat.add_zero] at hmod
      rw [dif_pos even, run_bind_eq, logged_run, formedFrom_eq_append mul x hlog,
        formedAt_of_zero mul x (.inr hmod), ← List.append_assoc]
      exact ih (m / 2) (by omega) hdiv (by omega) hmod _
    · -- The lowest one bit. Its square is the product so far, from which `extend` goes on.
      rw [dif_neg even]
      rw [show m % 2 = 1 by omega, Nat.mul_one] at hmod
      change n % 2 ^ (i + 1) = 2 ^ i at hmod
      by_cases last : m = 1
      · have hlog := log2_of_div_eq_one (hm.trans last)
        rw [Nat.mod_eq_of_lt (by rw [← hlog]; exact Nat.lt_log2_self)] at hmod
        rw [dif_pos last, formedFrom_eq_nil mul x hlog, List.append_nil, hmod, product_two_pow]
        rfl
      · have hdiv : n / 2 ^ (i + 1) = m / 2 := by rw [div_two_pow_succ, hm]
        have hpow := Nat.two_pow_pos i
        have h := extendM_logged mul x (m / 2) hdiv (by omega) (by omega) log
        rw [hmod, product_two_pow] at h
        rw [dif_neg last, h]

/-- **A run forms these products, and returns the product of the squares at the one bits.** -/
theorem positiveM_logged (x : α) (n : ℕ) (pos : 0 < n) :
    (positiveM (logged mul) x n pos).run [] = (product mul x n, formed mul x n) := by
  have h := positiveM_logged_from mul x n (i := 0) (Nat.div_one n) pos (Nat.mod_one n) []
  rw [List.nil_append, formedFrom, Nat.sub_zero, ← List.range_eq_range'] at h
  exact h

theorem positive_eq_product (x : α) (n : ℕ) (pos : 0 < n) :
    positive mul x n pos = product mul x n := by
  rw [positive_eq_logged mul x n pos [], positiveM_logged]

/-! ## What products keep -/

section Induction

variable {mul} {x : α} {n : ℕ} {P : ℕ → α → Prop} (hone : P 1 x)
  (hmul : ∀ {i j : ℕ} {y z : α}, 0 < i → 0 < j → i + j ≤ n → P i y → P j z → P (i + j) (mul y z))

include hone hmul

theorem square_induction {i : ℕ} (h : 2 ^ i ≤ n) : P (2 ^ i) (square mul x i) := by
  induction i with
  | zero => exact hone
  | succ i ih =>
    have hpow := Nat.two_pow_pos i
    rw [Nat.pow_succ, Nat.mul_two] at h ⊢
    have hi := ih (by omega)
    exact hmul hpow hpow h hi hi

/-- The highest bit is taken off, so that the square at it is the last factor. -/
theorem product_induction {r : ℕ} (pos : 0 < r) (h : r ≤ n) : P r (product mul x r) := by
  induction r using Nat.strongRecOn with
  | ind r ih =>
    obtain ⟨i, hlow, hhigh⟩ : ∃ i, 2 ^ i ≤ r ∧ r < 2 ^ (i + 1) :=
      ⟨r.log2, Nat.log2_self_le (Nat.ne_of_gt pos), Nat.lt_log2_self⟩
    have hpow := Nat.two_pow_pos i
    have hsquare := square_induction hone hmul (Nat.le_trans hlow h)
    obtain ⟨r', rfl⟩ := Nat.exists_eq_add_of_le hlow
    rw [Nat.pow_succ] at hhigh
    by_cases hzero : r' = 0
    · subst hzero
      rw [Nat.add_zero, product_two_pow]
      exact hsquare
    · rw [product_two_pow_add mul x (by omega) (by omega), Nat.add_comm]
      exact hmul (by omega) hpow (by omega) (ih r' (by omega) (by omega) (by omega)) hsquare

/-- **What holds of `x` and is kept by products holds of the power**, and of the operands of every
product on the way. -/
theorem formed_induction (pos : 0 < n) :
    P n (positive mul x n pos) ∧ ∀ p ∈ formed mul x n,
      ∃ i j, 0 < i ∧ 0 < j ∧ i + j ≤ n ∧ P i p.1 ∧ P j p.2 := by
  have hsquare {i : ℕ} (h : 2 ^ i ≤ n) := square_induction hone hmul h
  refine ⟨?_, fun p hp => ?_⟩
  · rw [positive_eq_product]
    exact product_induction hone hmul pos (Nat.le_refl n)
  · obtain ⟨i, hi, hp⟩ := List.mem_flatMap.mp hp
    rw [List.mem_range] at hi
    have hpow := Nat.two_pow_pos i
    have htop : 2 ^ (i + 1) ≤ n :=
      Nat.le_trans (Nat.pow_le_pow_right (by decide) hi) (Nat.log2_self_le (Nat.ne_of_gt pos))
    rw [formedAt, List.mem_cons] at hp
    -- Either a square is squared, or the product of the lower bits takes the next square.
    rcases hp with rfl | hp
    · rw [Nat.pow_succ] at htop
      exact ⟨2 ^ i, 2 ^ i, hpow, hpow, by omega, hsquare (by omega), hsquare (by omega)⟩
    · split at hp
      · next h =>
        obtain ⟨hbit, hlow⟩ := h
        rw [List.mem_singleton] at hp
        subst hp
        have hmod := mod_two_pow_succ n (i + 1)
        rw [(testBit_iff_div_mod n (i + 1)).mp hbit, Nat.mul_one] at hmod
        have hle := Nat.mod_le n (2 ^ (i + 1 + 1))
        exact ⟨n % 2 ^ (i + 1), 2 ^ (i + 1), by omega, by omega, by omega,
          product_induction hone hmul (by omega) (by omega), hsquare htop⟩
      · cases hp

end Induction

/-! ## Signed exponents -/

/-- The exponent's magnitude is exact, so there is a lowest one bit unless the exponent is zero. -/
theorem integer_of_ne_zero (div : α → α → α) (one x : α) {k : Int32} (h : k ≠ 0) :
    integer mul div one x k =
      if 0 < k then product mul x k.toInt.natAbs else div one (product mul x k.toInt.natAbs) := by
  rw [integer, dif_neg h, positive_eq_product, toNat_absWord]

theorem natAbs_toInt_pos {k : Int32} (h : k ≠ 0) : 0 < k.toInt.natAbs := by
  simpa only [toNat_absWord] using toNat_absWord_pos h

theorem positiveM_logged_absWord (x : α) {k : Int32} (h : k ≠ 0) :
    (positiveM (logged mul) x (absWord k).toNat (toNat_absWord_pos h)).run [] =
      (product mul x k.toInt.natAbs, formed mul x k.toInt.natAbs) := by
  simp [positiveM_logged]

/-- The exponent's magnitude is exact, so there is a lowest one bit unless the exponent is zero. -/
theorem exists_bitIndices_eq_cons {k : Int32} (h : k ≠ 0) :
    ∃ i is, k.toInt.natAbs.bitIndices = i :: is :=
  List.exists_cons_of_ne_nil (bitIndices_ne_nil (natAbs_toInt_pos h))

/-- Expressions in a number. With them as values, an equation says which operations are carried out,
and on what. -/
inductive Expression where
  | base
  | one
  | mul (y z : Expression)
  | div (y z : Expression)
deriving DecidableEq

end TraceMath.Power

namespace TraceMath

/-! ## Binary64 powers -/

namespace Binary64

variable {k : Int32} (x : Binary64)

@[simp] theorem powInt_zero : x.powInt 0 = one := by
  rw [powInt, Power.integer, dif_pos rfl]

theorem powInt_of_pos (h : 0 < k) : x.powInt k = Power.product (· * ·) x k.toInt.natAbs := by
  rw [powInt, Power.integer_of_ne_zero _ _ _ _ (Int32.ne_of_lt h).symm, if_pos h]

theorem powInt_of_neg (h : k < 0) :
    x.powInt k = one / Power.product (· * ·) x k.toInt.natAbs := by
  rw [powInt, Power.integer_of_ne_zero _ _ _ _ (Int32.ne_of_lt h), if_neg (Int32.lt_asymm h)]

end Binary64

/-- **The operations of a power, and their order**, for any multiplication and division. The power
of zero is one. Otherwise the squares at the one bits of the exponent's magnitude are multiplied
from the lowest bit up; for a negative exponent one is divided by the product. The products formed
on the way are the squares up to the one at the highest bit, and a product at each one bit above the
lowest. The first power is `x`, without an operation. Binary64 powers are a case of it. -/
theorem power_is_ordered_product :
    (∀ (α : Type) (mul div : α → α → α) (one x : α) (k : Int32),
      (k = 0 → Power.integer mul div one x k = one) ∧
      (k = 1 → Power.integer mul div one x k = x) ∧
      (k ≠ 0 → ∃ i is, k.toInt.natAbs.bitIndices = i :: is ∧
        let p := is.foldl (fun y j => mul y (Power.square mul x j)) (Power.square mul x i)
        Power.integer mul div one x k = (if 0 < k then p else div one p) ∧
        ∃ pos : 0 < (absWord k).toNat, (absWord k).toNat = k.toInt.natAbs ∧
          Power.positive mul x (absWord k).toNat pos = p ∧
          (Power.positiveM (Power.logged mul) x (absWord k).toNat pos).run [] =
            (p, Power.formed mul x k.toInt.natAbs))) ∧
    ∀ (x : Binary64) (k : Int32), x.powInt k = Power.integer (· * ·) (· / ·) .one x k := by
  refine ⟨fun α mul div one x k => ⟨fun h => ?_, fun h => ?_, fun h => ?_⟩, fun _ _ => rfl⟩
  · rw [Power.integer, dif_pos h]
  · rw [h, Power.integer_of_ne_zero mul div one x (by decide), if_pos (by decide)]
    exact Power.product_two_pow mul x 0
  · obtain ⟨i, is, hbits⟩ := Power.exists_bitIndices_eq_cons h
    have hp : Power.product mul x k.toInt.natAbs =
        is.foldl (fun y j => mul y (Power.square mul x j)) (Power.square mul x i) := by
      rw [Power.product, hbits]
      rfl
    refine ⟨i, is, hbits, ?_, toNat_absWord_pos h, toNat_absWord k, ?_, ?_⟩
    · rw [Power.integer_of_ne_zero mul div one x h, hp]
    · simp [Power.positive_eq_product, hp]
    · simp [Power.positiveM_logged, hp]

open Power.Expression in
/-- The expression for the exponent `-13`, with one bits at 0, 2 and 3, and the five products. -/
theorem power_is_ordered_product_thirteen :
    (-13 : Int32) ≠ 0 ∧
      Power.integer mul div one base (-13) =
        div one (mul (mul base (Power.square mul base 2)) (Power.square mul base 3)) ∧
      Power.formed mul base 13 =
        [(base, base), (Power.square mul base 1, Power.square mul base 1),
          (base, Power.square mul base 2), (Power.square mul base 2, Power.square mul base 2),
          (mul base (Power.square mul base 2), Power.square mul base 3)] := by
  have hne : (-13 : Int32) ≠ 0 := by decide
  obtain ⟨i, is, hbits, hpower, -⟩ :=
    (power_is_ordered_product.1 Power.Expression mul div one base (-13)).2.2 hne
  have hmagnitude : (-13 : Int32).toInt.natAbs = 2 * (2 * (2 * 1 + 1)) + 1 := by decide
  have hthirteen : (-13 : Int32).toInt.natAbs.bitIndices = [0, 2, 3] := by
    rw [hmagnitude, Nat.bitIndices_two_mul_add_one, Nat.bitIndices_two_mul,
      Nat.bitIndices_two_mul_add_one, Nat.bitIndices_one]
    rfl
  obtain ⟨rfl, rfl⟩ := List.cons.inj (hthirteen.symm.trans hbits)
  refine ⟨hne, hpower, ?_⟩
  decide

end TraceMath
