import Mathlib.Algebra.Order.Ring.Int
import TraceMath.Proofs.Power.Schedule

/-!
# Powers of two in an exponent

In general a power of a power forms other products than the power of the product exponent, and the
results may differ. A power of two is the exception. It puts zeros below the bits of the other
factor, and the recursion takes the zeros off first, one squaring for each: it comes to the other
factor with the power of the power of two.

* `Power.positiveM_two_pow_mul`: the two runs, one after the other, are the one run, whatever effect
  a product has.
* `Power.factorsTwoPowers`: so a power of two is taken out of a signed exponent, zero and the least
  word included, and a list of them one by one.
-/

namespace TraceMath

namespace Power

/-! ## The runs -/

section Effect

variable {α : Type} {m : Type → Type} [Monad m] (mulM : α → α → m α)

theorem positiveM_one (x : α) (pos : 0 < 1) : positiveM mulM x 1 pos = pure x := by
  rw [positiveM, dif_neg (by decide), dif_pos rfl]

/-- A zero bit is a squaring. -/
theorem positiveM_two_mul (x : α) {p q : ℕ} (h : p = 2 * q) (posp : 0 < p) (posq : 0 < q) :
    positiveM mulM x p posp = mulM x x >>= fun square => positiveM mulM square q posq := by
  obtain rfl : q = p / 2 := by omega
  rw [positiveM, dif_pos (by omega)]

/-- **The run above the zeros** starts with the power that the zeros stand for. -/
theorem positiveM_two_pow_mul [LawfulMonad m] (x : α) (n : ℕ) {k p q : ℕ} (hq : q = 2 ^ n)
    (hp : p = q * k) (posp : 0 < p) (posq : 0 < q) (posk : 0 < k) :
    positiveM mulM x p posp = positiveM mulM x q posq >>= fun y => positiveM mulM y k posk := by
  induction n generalizing x p q with
  | zero =>
    obtain rfl : q = 1 := hq
    obtain rfl : p = k := by omega
    rw [positiveM_one, pure_bind]
  | succ n ih =>
    have hpow := Nat.two_pow_pos n
    have hq' : q = 2 * 2 ^ n := by rw [hq, Nat.pow_succ']
    have hp' : p = 2 * (2 ^ n * k) := by rw [hp, hq', Nat.mul_assoc]
    rw [positiveM_two_mul mulM x hq' posq hpow,
      positiveM_two_mul mulM x hp' posp (Nat.mul_pos hpow posk), bind_assoc]
    congr 1
    funext square
    exact ih square rfl rfl _ _

end Effect

theorem positive_two_pow_mul {α : Type} (mul : α → α → α) (x : α) (n : ℕ) {k p q : ℕ}
    (hq : q = 2 ^ n) (hp : p = q * k) (posp : 0 < p) (posq : 0 < q) (posk : 0 < k) :
    positive mul x p posp = positive mul (positive mul x q posq) k posk := by
  let first := (positiveM (logged mul) x q posq).run []
  calc positive mul x p posp
      = ((positiveM (logged mul) x p posp).run []).1 := positive_eq_logged mul x p posp []
    _ = ((positiveM (logged mul) first.1 k posk).run first.2).1 := by
        rw [positiveM_two_pow_mul (logged mul) x n hq hp posp posq posk, run_bind_eq]
    _ = positive mul (positive mul x q posq) k posk := by
        rw [← positive_eq_logged, ← positive_eq_logged]

/-! ## Signed exponents -/

/-- A power of two in the exponent can be taken first, and several of them one after another. -/
structure FactorsTwoPowers {α : Type} (power : α → Int32 → α) : Prop where
  factor : ∀ (x : α) {n : ℕ} {e k p : Int32}, e.toInt = 2 ^ n → p.toInt = 2 ^ n * k.toInt →
    power (power x e) k = power x p
  list : ∀ (x : α) (es : List Int32) {k p : Int32}, (∀ e ∈ es, ∃ n : ℕ, e.toInt = 2 ^ n) →
    p.toInt = (es.map Int32.toInt).prod * k.toInt → (es ++ [k]).foldl power x = power x p

theorem exists_toInt_eq_two_pow {n : ℕ} (h : n ≤ 30) : ∃ e : Int32, e.toInt = 2 ^ n := by
  have hpow : 2 ^ n ≤ 2 ^ 30 := Nat.pow_le_pow_right (by decide) h
  refine ⟨Int32.ofInt (2 ^ n), Int32.toInt_ofInt_of_le ?_ ?_⟩
  · exact le_trans (by decide) (Int.le_of_lt (Int.pow_pos (by decide)))
  · exact_mod_cast Nat.lt_of_le_of_lt hpow (by decide)

/-- What is left when a power of two is taken out of a word is a word. -/
theorem exists_toInt_eq_of_two_pow_mul {n : ℕ} {p : Int32} {z : ℤ} (h : p.toInt = 2 ^ n * z) :
    ∃ q : Int32, q.toInt = z := by
  have hlow := p.le_toInt
  have hhigh := p.toInt_lt
  have hpow : (1 : ℤ) ≤ 2 ^ n := Int.pow_pos (by decide)
  have hbounds : -2 ^ 31 ≤ z ∧ z < 2 ^ 31 := by
    rcases le_or_gt 0 z with hz | hz
    · have := le_mul_of_one_le_left hz hpow
      omega
    · have := mul_le_mul_of_nonpos_right hpow hz.le
      omega
  exact ⟨Int32.ofInt z, Int32.toInt_ofInt_of_le hbounds.1 hbounds.2⟩

/-- The exponent that is left is zero if the whole one is, and has its sign. -/
theorem sign_of_two_pow_mul {n : ℕ} {p k : Int32} (hp : p.toInt = 2 ^ n * k.toInt) :
    (p = 0 ↔ k = 0) ∧ (0 < p ↔ 0 < k) := by
  have hpow : (0 : ℤ) < 2 ^ n := Int.pow_pos (by decide)
  rw [← Int32.toInt_inj, ← Int32.toInt_inj, Int32.lt_iff_toInt_lt, Int32.lt_iff_toInt_lt, hp,
    Int32.toInt_zero]
  exact ⟨mul_eq_zero.trans (or_iff_right hpow.ne'), mul_pos_iff_of_pos_left hpow⟩

section Integer

variable {α : Type} (mul div : α → α → α) (one x : α) {n : ℕ} {e k p : Int32}

/-- **One power of two** is taken out. -/
theorem integer_integer (he : e.toInt = 2 ^ n) (hp : p.toInt = 2 ^ n * k.toInt) :
    integer mul div one (integer mul div one x e) k = integer mul div one x p := by
  have he0 : 0 < e := by
    rw [Int32.lt_iff_toInt_lt, Int32.toInt_zero, he]
    exact Int.pow_pos (by decide)
  obtain ⟨hzero, hsign⟩ := sign_of_two_pow_mul hp
  have hq : (absWord e).toNat = 2 ^ n := by simp [he, Int.natAbs_pow]
  have hpq : (absWord p).toNat = (absWord e).toNat * (absWord k).toNat := by
    simp [he, hp, Int.natAbs_mul, Int.natAbs_pow]
  -- The inner exponent is positive. So the sign of `p` is that of `k`, and one division is left.
  by_cases hk : k = 0
  · rw [integer, integer.eq_1 mul div one x p, dif_pos hk, dif_pos (hzero.mpr hk)]
  · have hk0 := toNat_absWord_pos hk
    have hp0 := toNat_absWord_pos (mt hzero.mp hk)
    have heq : e ≠ 0 := (Int32.ne_of_lt he0).symm
    unfold integer
    simp only [dif_neg hk, dif_neg (mt hzero.mp hk), dif_neg heq, if_pos he0, hsign]
    rw [positive_two_pow_mul mul x n hq hpq hp0 (toNat_absWord_pos heq) hk0]

theorem factorsTwoPowers : FactorsTwoPowers (integer mul div one) where
  factor x n e k p he hp := integer_integer mul div one x he hp
  list x es k p hes hp := by
    induction es generalizing x p with
    | nil =>
      obtain rfl : p = k := Int32.toInt_inj.mp (by simpa using hp)
      rfl
    | cons e es ih =>
      obtain ⟨n, he⟩ := hes e List.mem_cons_self
      rw [List.map_cons, List.prod_cons, mul_assoc, he] at hp
      -- The product of the others is a word, too.
      obtain ⟨q, hq⟩ := exists_toInt_eq_of_two_pow_mul hp
      rw [← hq] at hp
      have hes' : ∀ e' ∈ es, ∃ n : ℕ, e'.toInt = 2 ^ n :=
        fun e' h => hes e' (List.mem_cons_of_mem e h)
      rw [List.cons_append, List.foldl_cons, ih _ _ hes' hq]
      exact integer_integer mul div one x he hp

end Integer

open Expression in
/-- Three is not taken out so: the third power of the third power is another expression than the
ninth. -/
example : product mul (product mul base 3) 3 ≠ product mul base 9 := by
  have htwo (x : Expression) {i : ℕ} (h : 1 < 2 ^ i) :
      product mul x (2 ^ i + 1) = mul x (square mul x i) := by
    rw [product_two_pow_add mul x Nat.one_pos h]
    exact congrArg (mul · (square mul x i)) (product_two_pow mul x 0)
  have hthree (x : Expression) : product mul x 3 = mul x (mul x x) := htwo x (i := 1) (by decide)
  have hnine : product mul base 9 = mul base (square mul base 3) := htwo base (i := 3) (by decide)
  rw [hthree, hthree, hnine]
  decide

end Power

open Power (FactorsTwoPowers)

/-- **Powers of two factor out of an exponent**, bit for bit, whatever the multiplication and the
division are. The powers up to `2 ^ 30` are exponents. The power of the power of two is the power of
the product, for every signed exponent whose product with it is one, and so are the powers along a
list. Of the positive powers the two runs, one after the other, are the one run, products and
effects included. -/
theorem two_powers_factor_out :
    (∀ n ≤ 30, ∃ e : Int32, e.toInt = 2 ^ n) ∧
    (∀ (α : Type) (mul div : α → α → α) (one : α),
      FactorsTwoPowers (Power.integer mul div one)) ∧
    FactorsTwoPowers Binary64.powInt ∧
    ∀ (α : Type) (m : Type → Type) [Monad m] [LawfulMonad m] (mulM : α → α → m α) (x : α) (n k : ℕ)
      (pos : 0 < k) (posTwo : 0 < 2 ^ n) (posMul : 0 < 2 ^ n * k),
      Power.positiveM mulM x (2 ^ n * k) posMul =
        Power.positiveM mulM x (2 ^ n) posTwo >>= fun y => Power.positiveM mulM y k pos := by
  refine ⟨fun n => Power.exists_toInt_eq_two_pow, fun α mul div one => ?_, ?_, ?_⟩
  · exact Power.factorsTwoPowers mul div one
  · exact Power.factorsTwoPowers (· * ·) (· / ·) Binary64.one
  · intro α m _ _ mulM x n k pos posTwo posMul
    exact Power.positiveM_two_pow_mul mulM x n rfl rfl posMul posTwo pos

open Power.Expression in
/-- Twelve is four times three, with the products of both runs in the log. Along a list the product
may leave the words on the way, if zero brings it back. The least word is the product of the zeroth
power of two and itself. -/
theorem two_powers_factor_out_twelve :
    (∃ e : Int32, e.toInt = 2 ^ 30) ∧
    ((4 : Int32).toInt = 2 ^ 2 ∧ (-12 : Int32).toInt = 2 ^ 2 * (-3 : Int32).toInt ∧
      Power.integer mul div one (Power.integer mul div one base 4) (-3) =
        Power.integer mul div one base (-12)) ∧
    ((∀ e ∈ [(1073741824 : Int32), 1073741824], ∃ n : ℕ, e.toInt = 2 ^ n) ∧
      (0 : Int32).toInt = ([(1073741824 : Int32), 1073741824].map Int32.toInt).prod *
        (0 : Int32).toInt ∧
      ([(1073741824 : Int32), 1073741824] ++ [0]).foldl Binary64.powInt .nan =
        Binary64.powInt .nan 0) ∧
    ((1 : Int32).toInt = 2 ^ 0 ∧ Int32.minValue.toInt = 2 ^ 0 * Int32.minValue.toInt ∧
      (Binary64.powInt (.infinity true) 1).powInt Int32.minValue =
        Binary64.powInt (.infinity true) Int32.minValue) ∧
    Power.positiveM (Power.logged mul) base 12 (by decide) =
      (Power.positiveM (Power.logged mul) base 4 (by decide) >>= fun y =>
        Power.positiveM (Power.logged mul) y 3 (by decide)) := by
  obtain ⟨hwords, hany, hbinary, hruns⟩ := two_powers_factor_out
  have hfour : (4 : Int32).toInt = 2 ^ 2 := by decide
  have htwelve : (-12 : Int32).toInt = 2 ^ 2 * (-3 : Int32).toInt := by decide
  have htop : ∀ e ∈ [(1073741824 : Int32), 1073741824], ∃ n : ℕ, e.toInt = 2 ^ n := by
    intro e he
    obtain rfl : e = 1073741824 := by simpa using he
    exact ⟨30, by decide⟩
  have hzero : (0 : Int32).toInt = ([(1073741824 : Int32), 1073741824].map Int32.toInt).prod *
      (0 : Int32).toInt := by decide
  have hone : (1 : Int32).toInt = 2 ^ 0 := by decide
  have hleast : Int32.minValue.toInt = 2 ^ 0 * Int32.minValue.toInt := by decide
  exact ⟨hwords 30 (by decide),
    ⟨hfour, htwelve, (hany Power.Expression mul div one).factor base hfour htwelve⟩,
    ⟨htop, hzero, hbinary.list .nan _ htop hzero⟩,
    ⟨hone, hleast, hbinary.factor (.infinity true) hone hleast⟩,
    hruns Power.Expression _ (Power.logged mul) base 2 3 (by decide) (by decide) (by decide)⟩

end TraceMath
