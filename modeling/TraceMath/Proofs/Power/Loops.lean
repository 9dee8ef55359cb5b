import Mathlib.Data.Nat.Factorization.Basic
import Mathlib.Logic.Function.Iterate
import TraceMath.Proofs.Power.Runs

/-!
# The loops of a power

`Power.positive` gets a positive exponent, which is why its recursions end. Here they are the loops
of a machine that shifts the bits out of a word. Nothing keeps the word from being zero, and from
zero both loops run for ever (`isStuck_run`).

* `LoopState.step`: a pass through a loop, or the request that starts the first one.
* `stateAt` and `run_stripping_eq`: the state after each number of steps from any other word. How
  far the loops are depends on the word alone, whatever the multiplication and the numbers are.
* `Strips` and `Course`: what that says of the exponents on the way, and of the states.
* `step_request` and `run_request`: a request starts the loops with the exact magnitude of its
  exponent, if at all, and ends with the power.
-/

namespace TraceMath

namespace Power

/-! ## The machine -/

/-- A state of the computation. In a loop, `n` is what is left of the exponent. -/
inductive LoopState (α : Type) where
  /-- A power is asked for. -/
  | request (x : α) (k : Int32)
  /-- The zero bits below the lowest one bit are shifted out. -/
  | stripping (inverse : Bool) (x : α) (n : UInt32)
  /-- The bits above the lowest one bit are shifted out. -/
  | extending (inverse : Bool) (y x : α) (n : UInt32)
  | done (power : α)
deriving DecidableEq

variable {α : Type} (mul div : α → α → α) (one : α)

/-- The power of a product, inverted for a negative exponent. -/
def finish (inverse : Bool) (p : α) : α := if inverse then div one p else p

namespace LoopState

/-- One step: the start, or the next pass through a loop. -/
def step : LoopState α → LoopState α
  | request x k =>
    if 1 < k then stripping false x k.toUInt32
    else if k = 1 then done x
    else if k = 0 then done one
    else stripping true x (-k.toUInt32)
  | stripping inverse x n =>
    if n &&& 1 = 0 then stripping inverse (mul x x) (n >>> 1)
    else if n >>> 1 = 0 then done (finish div one inverse x)
    else extending inverse x x (n >>> 1)
  | extending inverse y x n =>
    let square := mul x x
    if n = 1 then done (finish div one inverse (mul y square))
    else extending inverse (if n &&& 1 = 0 then y else mul y square) square (n >>> 1)
  | done p => done p

/-- The state after `i` steps. -/
def run (s : LoopState α) (i : ℕ) : LoopState α := (step mul div one)^[i] s

theorem run_succ (s : LoopState α) (i : ℕ) :
    run mul div one s (i + 1) = step mul div one (run mul div one s i) :=
  Function.iterate_succ_apply' _ i s

theorem run_succ' (s : LoopState α) (i : ℕ) :
    run mul div one s (i + 1) = run mul div one (step mul div one s) i := rfl

theorem run_done (p : α) (i : ℕ) : run mul div one (done p) i = done p :=
  Function.iterate_fixed rfl i

end LoopState

open LoopState

/-! ## Exponents -/

/-- The exponent after `i` passes. -/
def shifted (n : UInt32) : ℕ → UInt32
  | 0 => n
  | i + 1 => shifted n i >>> 1

theorem toNat_shiftRight_one (n : UInt32) : (n >>> 1).toNat = n.toNat / 2 := by
  rw [UInt32.toNat_shiftRight]
  rfl

theorem and_one_eq_zero_iff (n : UInt32) : n &&& 1 = 0 ↔ n.toNat % 2 = 0 := by
  rw [← UInt32.toNat_inj, UInt32.toNat_and, ← Nat.and_one_is_mod]
  rfl

theorem toNat_eq_zero_iff (n : UInt32) : n = 0 ↔ n.toNat = 0 := UInt32.toNat_inj.symm

theorem toNat_eq_one_iff (n : UInt32) : n = 1 ↔ n.toNat = 1 := UInt32.toNat_inj.symm

@[simp] theorem toNat_shifted (n : UInt32) (i : ℕ) : (shifted n i).toNat = n.toNat / 2 ^ i := by
  induction i with
  | zero => simp [shifted]
  | succ i ih => rw [shifted, toNat_shiftRight_one, ih, div_two_pow_succ]

theorem shifted_and_one_eq_zero_iff (n : UInt32) (i : ℕ) :
    shifted n i &&& 1 = 0 ↔ n.toNat / 2 ^ i % 2 = 0 := by
  rw [and_one_eq_zero_iff, toNat_shifted]

theorem div_two_pow_log2 {n : ℕ} (h : n ≠ 0) : n / 2 ^ n.log2 = 1 := by
  rw [Nat.div_eq_iff (Nat.two_pow_pos _)]
  have hlow := Nat.log2_self_le h
  have hhigh := Nat.lt_log2_self (n := n)
  rw [Nat.pow_succ] at hhigh
  omega

section Bits

variable {n : UInt32} {i : ℕ} (h : n ≠ 0)

include h

theorem shifted_ne_zero (hi : i ≤ n.toNat.log2) : shifted n i ≠ 0 := by
  rw [ne_eq, toNat_eq_zero_iff] at h ⊢
  rw [toNat_shifted]
  exact (Nat.div_pos ((Nat.le_log2 h).mp hi) (Nat.two_pow_pos i)).ne'

/-- The last exponent is one. -/
theorem shifted_eq_one_iff : shifted n i = 1 ↔ i = n.toNat.log2 := by
  rw [ne_eq, toNat_eq_zero_iff] at h
  rw [toNat_eq_one_iff, toNat_shifted]
  constructor
  · exact fun hone => (log2_of_div_eq_one hone).symm
  · rintro rfl
    exact div_two_pow_log2 h

/-- Nothing is left behind the last one. -/
theorem shifted_shiftRight_eq_zero_iff (hi : i ≤ n.toNat.log2) :
    shifted n i >>> 1 = 0 ↔ i = n.toNat.log2 := by
  have hne := shifted_ne_zero h hi
  rw [ne_eq, toNat_eq_zero_iff] at hne
  rw [← shifted_eq_one_iff h, toNat_eq_zero_iff, toNat_eq_one_iff, toNat_shiftRight_one]
  omega

end Bits

section Products

variable (x : α) {n i : ℕ}

/-- As long as the bits below are zero, the next bit decides. -/
theorem mod_two_pow_succ_eq_zero_iff (hlow : n % 2 ^ i = 0) :
    n % 2 ^ (i + 1) = 0 ↔ n / 2 ^ i % 2 = 0 := by
  have hpow := Nat.two_pow_pos i
  rw [mod_two_pow_succ, hlow, Nat.add_zero, Nat.mul_eq_zero]
  omega

/-- The square at the lowest one bit is the first product. -/
theorem product_mod_of_lowest (hlow : n % 2 ^ i = 0) (hbit : n % 2 ^ (i + 1) ≠ 0) :
    product mul x (n % 2 ^ (i + 1)) = square mul x i := by
  have hone : n / 2 ^ i % 2 = 1 := by
    have := mt (mod_two_pow_succ_eq_zero_iff hlow).mpr hbit
    omega
  rw [mod_two_pow_succ, hlow, hone, Nat.mul_one, Nat.add_zero, product_two_pow]

/-- Above it a one bit multiplies by the square there, and a zero bit does nothing. -/
theorem product_mod_of_higher (hlow : n % 2 ^ i ≠ 0) :
    product mul x (n % 2 ^ (i + 1)) =
      if n / 2 ^ i % 2 = 0 then product mul x (n % 2 ^ i)
      else mul (product mul x (n % 2 ^ i)) (square mul x i) := by
  split
  · next hbit => rw [mod_two_pow_succ, hbit, Nat.mul_zero, Nat.zero_add]
  · next hbit =>
    exact product_mod_two_pow_succ mul x ((testBit_iff_div_mod n i).mpr (by omega)) hlow

theorem product_eq_mod_log2 : product mul x n = product mul x (n % 2 ^ (n.log2 + 1)) := by
  rw [Nat.mod_eq_of_lt Nat.lt_log2_self]

end Products

/-! ## The states of a run -/

/-- The state after `i` steps from the exponent `n`: `n % 2 ^ i` are the bits that are shifted
out. -/
def stateAt (inverse : Bool) (x : α) (n : UInt32) (i : ℕ) : LoopState α :=
  if n.toNat.log2 < i then done (finish div one inverse (product mul x n.toNat))
  else if n.toNat % 2 ^ i = 0 then stripping inverse (square mul x i) (shifted n i)
  else extending inverse (product mul x (n.toNat % 2 ^ i)) (square mul x (i - 1)) (shifted n i)

section Run

variable (inverse : Bool) (x : α) {n : UInt32} {i : ℕ}

theorem step_stripping (h : n ≠ 0) (hi : i ≤ n.toNat.log2) (hlow : n.toNat % 2 ^ i = 0) :
    step mul div one (stripping inverse (square mul x i) (shifted n i)) =
      stateAt mul div one inverse x n (i + 1) := by
  simp only [step, stateAt, shifted_and_one_eq_zero_iff, ← mod_two_pow_succ_eq_zero_iff hlow,
    shifted_shiftRight_eq_zero_iff h hi]
  by_cases last : i = n.toNat.log2
  · -- The lowest one bit is the highest one, too, so the square here is the power.
    have hproduct := product_eq_mod_log2 mul x (n := n.toNat)
    have hself := Nat.mod_eq_of_lt (Nat.lt_log2_self (n := n.toNat))
    have hbit : n.toNat % 2 ^ (i + 1) ≠ 0 := by
      rw [last, hself]
      exact mt (toNat_eq_zero_iff n).mpr h
    rw [← last, product_mod_of_lowest mul x hlow hbit] at hproduct
    rw [if_neg hbit, if_pos last, if_pos (by omega), hproduct]
  · rw [if_neg last, if_neg (show ¬n.toNat.log2 < i + 1 by omega)]
    split
    · rfl
    · next hbit =>
      rw [product_mod_of_lowest mul x hlow hbit]
      rfl

theorem step_extending (h : n ≠ 0) (hi : i ≤ n.toNat.log2) (hlow : n.toNat % 2 ^ i ≠ 0) :
    step mul div one (extending inverse (product mul x (n.toNat % 2 ^ i)) (square mul x (i - 1))
      (shifted n i)) = stateAt mul div one inverse x n (i + 1) := by
  obtain ⟨j, rfl⟩ : ∃ j, i = j + 1 := Nat.exists_eq_succ_of_ne_zero (by rintro rfl; omega)
  have hlow' : n.toNat % 2 ^ (j + 1 + 1) ≠ 0 := by
    rw [mod_two_pow_succ]
    omega
  have hsquare : mul (square mul x j) (square mul x j) = square mul x (j + 1) := rfl
  simp only [step, stateAt, shifted_and_one_eq_zero_iff, shifted_eq_one_iff h, Nat.add_sub_cancel,
    hsquare, ← product_mod_of_higher mul x hlow]
  by_cases last : j + 1 = n.toNat.log2
  · -- At the highest bit, the exponent is one and its square is the last factor.
    have hbit : ¬n.toNat / 2 ^ (j + 1) % 2 = 0 := by
      rw [last, div_two_pow_log2 (mt (toNat_eq_zero_iff n).mpr h)]
      decide
    have hproduct := product_mod_of_higher mul x hlow
    rw [if_neg hbit, last, ← product_eq_mod_log2, ← last] at hproduct
    rw [if_pos last, if_pos (by omega), hproduct]
  · rw [if_neg last, if_neg (by omega), if_neg hlow']
    rfl

theorem step_stateAt (h : n ≠ 0) (i : ℕ) :
    step mul div one (stateAt mul div one inverse x n i) =
      stateAt mul div one inverse x n (i + 1) := by
  by_cases hi : n.toNat.log2 < i
  · rw [stateAt, if_pos hi, stateAt, if_pos (by omega)]
    rfl
  · rw [stateAt, if_neg hi]
    split
    · next hlow => exact step_stripping mul div one inverse x h (by omega) hlow
    · next hlow => exact step_extending mul div one inverse x h (by omega) hlow

theorem run_stripping_eq (h : n ≠ 0) (i : ℕ) :
    run mul div one (stripping inverse x n) i = stateAt mul div one inverse x n i := by
  induction i with
  | zero =>
    rw [stateAt, if_neg (Nat.not_lt_zero _), Nat.pow_zero, if_pos (Nat.mod_one _)]
    rfl
  | succ i ih => rw [run_succ, ih, step_stateAt mul div one inverse x h]

end Run

/-! ## The course of the loops -/

/-- How an exponent goes through the loops. The first loop ends after `zeros` passes, at an odd
exponent; the second one ends at one. No exponent on the way is zero. -/
structure Strips (n : UInt32) (zeros : ℕ) : Prop where
  zeros_le : zeros ≤ n.toNat.log2
  even : ∀ i < zeros, (shifted n i).toNat % 2 = 0
  odd : (shifted n zeros).toNat % 2 = 1
  ne_zero : ∀ i ≤ n.toNat.log2, shifted n i ≠ 0
  eq_one_iff : ∀ i, shifted n i = 1 ↔ i = n.toNat.log2

theorem exists_strips {n : UInt32} (h : n ≠ 0) : ∃ zeros, Strips n zeros := by
  have hn := mt (toNat_eq_zero_iff n).mpr h
  -- `n` is `2 ^ zeros` times an odd number, which is what the first loop leaves.
  obtain ⟨zeros, c, hc, heq⟩ := Nat.exists_eq_two_pow_mul_odd hn
  refine ⟨zeros, ?_, fun i hi => ?_, ?_, fun i => shifted_ne_zero h, fun i => shifted_eq_one_iff h⟩
  · rw [Nat.le_log2 hn, heq]
    exact Nat.le_mul_of_pos_right _ hc.pos
  · obtain ⟨j, rfl⟩ : ∃ j, zeros = i + (j + 1) := ⟨zeros - i - 1, by omega⟩
    rw [toNat_shifted, heq, Nat.pow_add, Nat.mul_assoc,
      Nat.mul_div_cancel_left _ (Nat.two_pow_pos i), Nat.pow_succ', Nat.mul_assoc,
      Nat.mul_mod_right]
  · rw [toNat_shifted, heq, Nat.mul_div_cancel_left _ (Nat.two_pow_pos zeros)]
    exact Nat.odd_iff.mp hc

/-- As many low bits are zero as the first loop shifts out, and no more. -/
theorem Strips.mod_two_pow_eq_zero_iff {n : UInt32} {zeros : ℕ} (h : Strips n zeros) (i : ℕ) :
    n.toNat % 2 ^ i = 0 ↔ i ≤ zeros := by
  have hlow : ∀ i ≤ zeros, n.toNat % 2 ^ i = 0 := by
    intro i hi
    induction i with
    | zero => exact Nat.mod_one _
    | succ i ih =>
      rw [mod_two_pow_succ_eq_zero_iff (ih (by omega)), ← toNat_shifted]
      exact h.even i hi
  refine ⟨fun hmod => ?_, hlow i⟩
  -- With one more zero bit the exponent behind the first loop would be even.
  by_contra hlt
  have hdvd := (pow_dvd_pow 2 (Nat.not_le.mp hlt)).trans (Nat.dvd_of_mod_eq_zero hmod)
  have hodd := h.odd
  rw [toNat_shifted] at hodd
  have heven := (mod_two_pow_succ_eq_zero_iff (hlow zeros le_rfl)).mp (Nat.mod_eq_zero_of_dvd hdvd)
  omega

/-- The states of the loops from the exponent `n` on, up to the power. -/
structure Course (inverse : Bool) (x : α) (n : UInt32) (zeros : ℕ) : Prop where
  strip : ∀ i ≤ zeros, run mul div one (stripping inverse x n) i =
    stripping inverse (square mul x i) (shifted n i)
  extend : ∀ i, zeros < i → i ≤ n.toNat.log2 → run mul div one (stripping inverse x n) i =
    extending inverse (product mul x (n.toNat % 2 ^ i)) (square mul x (i - 1)) (shifted n i)
  finish : ∀ i, n.toNat.log2 < i → ∀ pos : 0 < n.toNat, run mul div one (stripping inverse x n) i =
    done (finish div one inverse (positive mul x n.toNat pos))

/-- **The course of the loops** is fixed by the exponent. -/
theorem Strips.course {n : UInt32} {zeros : ℕ} (h : Strips n zeros) (inverse : Bool) (x : α) :
    Course mul div one inverse x n zeros := by
  have hn : n ≠ 0 := h.ne_zero 0 (Nat.zero_le _)
  have hle := h.zeros_le
  refine ⟨fun i hi => ?_, fun i hi hi' => ?_, fun i hi pos => ?_⟩
  · rw [run_stripping_eq mul div one inverse x hn, stateAt, if_neg (by omega),
      if_pos ((h.mod_two_pow_eq_zero_iff i).mpr hi)]
  · rw [run_stripping_eq mul div one inverse x hn, stateAt, if_neg (by omega),
      if_neg (mt (h.mod_two_pow_eq_zero_iff i).mp (by omega))]
  · rw [run_stripping_eq mul div one inverse x hn, stateAt, if_pos hi, positive_eq_product]

/-! ## Zero -/

/-- The state is in one of the loops, with the exponent zero. -/
def LoopState.IsStuck : LoopState α → Prop
  | stripping _ _ n => n = 0
  | extending _ _ _ n => n = 0
  | _ => False

theorem isStuck_step {s : LoopState α} (h : s.IsStuck) : (step mul div one s).IsStuck := by
  cases s with
  | request x k => exact h.elim
  | stripping inverse x n =>
    obtain rfl : n = 0 := h
    rfl
  | extending inverse y x n =>
    obtain rfl : n = 0 := h
    rfl
  | done p => exact h.elim

/-- **From the exponent zero the loops run for ever.** -/
theorem isStuck_run {s : LoopState α} (h : s.IsStuck) (i : ℕ) : (run mul div one s i).IsStuck := by
  induction i with
  | zero => exact h
  | succ i ih =>
    rw [run_succ]
    exact isStuck_step mul div one ih

/-! ## Requests -/

/-- The number of steps from a request to its power. -/
def steps (k : Int32) : ℕ := if k = 0 ∨ k = 1 then 1 else k.toInt.natAbs.log2 + 2

/-- A request starts the loops with the magnitude of its exponent, unless that needs no product. -/
theorem step_request (x : α) (k : Int32) :
    step mul div one (request x k) =
      if k = 0 then done one else if k = 1 then done x
      else stripping (decide (k < 0)) x (absWord k) := by
  have hlt : 1 < k ↔ 1 < k.toInt := Int32.lt_iff_toInt_lt
  have hneg : k < 0 ↔ k.toInt < 0 := Int32.lt_iff_toInt_lt
  have hzero : k = 0 ↔ k.toInt = 0 := Int32.toInt_inj.symm
  have hone : k = 1 ↔ k.toInt = 1 := Int32.toInt_inj.symm
  -- The request asks for `1 < k` first, so the cases are taken in its order.
  simp only [step, absWord, hlt, hneg, hzero, hone]
  by_cases h : 1 < k.toInt
  · rw [if_pos h, if_neg (by omega), if_neg (by omega), if_neg (by omega),
      decide_eq_false (by omega)]
  · rw [if_neg h]
    by_cases h1 : k.toInt = 1
    · rw [if_pos h1, if_neg (by omega), if_pos h1]
    · rw [if_neg h1, if_neg h1]
      by_cases h0 : k.toInt = 0
      · rw [if_pos h0, if_pos h0]
      · rw [if_neg h0, if_neg h0, if_pos (by omega), decide_eq_true (by omega)]

section Requests

variable (x : α) {k : Int32}

theorem absWord_ne_zero (h : k ≠ 0) : absWord k ≠ 0 := by
  have hpos := toNat_absWord_pos h
  rw [ne_eq, toNat_eq_zero_iff]
  omega

/-- The word that a request starts the loops with, as the conversions of the exponent give it. -/
theorem request_stripping {inverse : Bool} {y : α} {n : UInt32}
    (h : step mul div one (request x k) = stripping inverse y n) :
    (1 < k ∧ inverse = false ∧ n = k.toUInt32 ∨ k < 0 ∧ inverse = true ∧ n = -k.toUInt32) ∧
      y = x ∧ n.toNat = k.toInt.natAbs ∧ 1 ≤ n.toNat ∧ n.toNat ≤ 2 ^ 31 := by
  rw [step_request] at h
  split at h
  · cases h
  · next h0 =>
    split at h
    · cases h
    · next h1 =>
      obtain ⟨rfl, rfl, rfl⟩ := LoopState.stripping.inj h
      have hpos := toNat_absWord_pos h0
      have hlow := k.le_toInt
      have hhigh := k.toInt_lt
      rw [toNat_absWord] at hpos ⊢
      refine ⟨?_, rfl, rfl, hpos, by omega⟩
      by_cases hneg : k < 0
      · exact .inr ⟨hneg, decide_eq_true hneg, if_pos hneg⟩
      · refine .inl ⟨?_, decide_eq_false hneg, if_neg hneg⟩
        rw [← Int32.toInt_inj] at h0 h1
        rw [Int32.lt_iff_toInt_lt] at hneg ⊢
        simp only [Int32.toInt_zero, Int32.toInt_one] at *
        omega

theorem run_request_of_one (h : k = 0 ∨ k = 1) (i : ℕ) :
    run mul div one (request x k) (i + 1) = done (integer mul div one x k) := by
  rw [run_succ', step_request]
  rcases h with rfl | rfl
  · rw [if_pos rfl, run_done, integer, dif_pos rfl]
  · rw [if_neg (by decide), if_pos rfl, run_done, integer_of_ne_zero mul div one x (by decide),
      if_pos (by decide)]
    exact congrArg done (product_two_pow mul x 0).symm

theorem run_request_of_loops (h : ¬(k = 0 ∨ k = 1)) (i : ℕ) :
    run mul div one (request x k) (i + 1) =
      stateAt mul div one (decide (k < 0)) x (absWord k) i := by
  rw [not_or] at h
  rw [run_succ', step_request, if_neg h.1, if_neg h.2,
    run_stripping_eq mul div one _ x (absWord_ne_zero h.1)]

theorem finish_product (h : k ≠ 0) :
    finish div one (decide (k < 0)) (product mul x k.toInt.natAbs) = integer mul div one x k := by
  have hpos : 0 < k ↔ ¬k < 0 := by
    rw [ne_eq, ← Int32.toInt_inj, Int32.toInt_zero] at h
    simp only [Int32.lt_iff_toInt_lt, Int32.toInt_zero]
    omega
  rw [integer_of_ne_zero mul div one x h, finish]
  by_cases hneg : k < 0 <;> simp [hneg, hpos]

/-- **A request ends with the power**, after so many steps. -/
theorem run_request (i : ℕ) (hi : steps k ≤ i) :
    run mul div one (request x k) i = done (integer mul div one x k) := by
  unfold steps at hi
  split at hi
  · next h =>
    obtain ⟨j, rfl⟩ : ∃ j, i = j + 1 := ⟨i - 1, by omega⟩
    exact run_request_of_one mul div one x h j
  · next h =>
    obtain ⟨j, rfl⟩ : ∃ j, i = j + 1 := ⟨i - 1, by omega⟩
    rw [run_request_of_loops mul div one x h, stateAt, toNat_absWord, if_pos (by omega),
      finish_product mul div one x (not_or.mp h).1]

theorem run_request_ne_done {i : ℕ} (hi : i < steps k) (p : α) :
    run mul div one (request x k) i ≠ done p := by
  cases i with
  | zero =>
    intro h
    cases h
  | succ i =>
    unfold steps at hi
    split at hi
    · omega
    · next h =>
      rw [run_request_of_loops mul div one x h, stateAt, toNat_absWord, if_neg (by omega)]
      split <;> intro h <;> cases h

end Requests

end Power

open Power

/-- **The loops of a power end**, for any multiplication and division, after a number of steps that
the exponent alone decides. From a word other than zero the first loop stops at an odd exponent, and
the second one at the exponent one. No exponent on the way is zero, and the result is the power.
From zero, neither loop would end. A request starts the loops with a word from one to `2 ^ 31`, the
exact magnitude of the exponent, also of the least one; the exponents zero and one need no loop. -/
theorem power_loops_end :
    (∀ n : UInt32, n ≠ 0 → ∃ zeros, Strips n zeros ∧
      ∀ (α : Type) (mul div : α → α → α) (one : α) (inverse : Bool) (x : α),
        Course mul div one inverse x n zeros) ∧
    (∀ (α : Type) (mul div : α → α → α) (one : α) (s : LoopState α), s.IsStuck →
      ∀ i p, s.run mul div one i ≠ .done p) ∧
    (∀ (k : Int32) (α : Type) (mul div : α → α → α) (one x : α),
      (∀ inverse y n, LoopState.step mul div one (.request x k) = .stripping inverse y n →
        (1 < k ∧ inverse = false ∧ n = k.toUInt32 ∨ k < 0 ∧ inverse = true ∧ n = -k.toUInt32) ∧
        y = x ∧ n.toNat = k.toInt.natAbs ∧ 1 ≤ n.toNat ∧ n.toNat ≤ 2 ^ 31) ∧
      (∀ i < steps k, ∀ p, LoopState.run mul div one (.request x k) i ≠ .done p) ∧
      ∀ i, steps k ≤ i →
        LoopState.run mul div one (.request x k) i = .done (integer mul div one x k)) ∧
    ∀ (x : Binary64) (k : Int32),
      LoopState.run (· * ·) (· / ·) .one (.request x k) (steps k) = .done (x.powInt k) := by
  refine ⟨fun n hn => ?_, fun α mul div one s hs i p h => ?_,
    fun k α mul div one x => ⟨fun inverse y n h => ?_, fun i hi => ?_, fun i hi => ?_⟩,
    fun x k => ?_⟩
  · obtain ⟨zeros, hstrips⟩ := exists_strips hn
    exact ⟨zeros, hstrips, fun α mul div one inverse x => hstrips.course mul div one inverse x⟩
  · have hstuck := isStuck_run mul div one hs i
    rw [h] at hstuck
    exact hstuck
  · exact request_stripping mul div one x h
  · exact run_request_ne_done mul div one x hi
  · exact run_request mul div one x i hi
  · exact run_request (· * ·) (· / ·) Binary64.one x _ le_rfl

open Power.Expression in
/-- Twelve, with two zeros and the power after four steps; zero; and the least exponent, with the
power after thirty-three steps and not before. -/
theorem power_loops_end_least_exponent :
    ((12 : UInt32) ≠ 0 ∧ ∃ zeros, (shifted 12 zeros).toNat % 2 = 1 ∧
      LoopState.run mul div one (.stripping false base 12) zeros =
        .stripping false (square mul base zeros) (shifted 12 zeros) ∧
      LoopState.run mul div one (.stripping false base 12) 4 =
        .done (positive mul base 12 (by decide))) ∧
    ((LoopState.stripping true base 0).IsStuck ∧
      ∀ i p, LoopState.run mul div one (.stripping true base 0) i ≠ .done p) ∧
    (LoopState.step mul div one (.request base Int32.minValue) =
        .stripping true base 0x80000000 ∧
      (0x80000000 : UInt32).toNat = Int32.minValue.toInt.natAbs) ∧
    (32 < steps Int32.minValue ∧ steps Int32.minValue ≤ 33 ∧
      (∀ p, LoopState.run mul div one (.request base Int32.minValue) 32 ≠ .done p) ∧
      LoopState.run mul div one (.request base Int32.minValue) 33 =
        .done (integer mul div one base Int32.minValue)) ∧
    LoopState.run (· * ·) (· / ·) .one (.request Binary64.nan Int32.minValue) 33 =
      .done (Binary64.nan.powInt Int32.minValue) := by
  obtain ⟨hloops, hstuck, hrequest, hbinary⟩ := power_loops_end
  have htwelve : (12 : UInt32) ≠ 0 := by decide
  obtain ⟨zeros, hstrips, hcourse⟩ := hloops 12 htwelve
  have hcourse := hcourse Expression mul div one false base
  have hzero : (LoopState.stripping true base 0).IsStuck := rfl
  have hsteps : steps Int32.minValue = 33 := by decide
  have hstart : LoopState.step mul div one (.request base Int32.minValue) =
      .stripping true base 0x80000000 := by decide
  obtain ⟨hword, hbefore, hafter⟩ := hrequest Int32.minValue Expression mul div one base
  have hleast := hbinary .nan Int32.minValue
  rw [hsteps] at hleast
  exact ⟨⟨htwelve, zeros, hstrips.odd, hcourse.strip zeros le_rfl,
      hcourse.finish 4 (by decide) (by decide)⟩,
    ⟨hzero, hstuck Expression mul div one _ hzero⟩,
    ⟨hstart, (hword _ _ _ hstart).2.2.1⟩,
    ⟨by decide, by decide, hbefore 32 (by decide), hafter 33 (by decide)⟩, hleast⟩

end TraceMath
