import TraceMath.Binary64.Magnitude

/-!
# Binary64 words

A number is its word of 64 bits: a sign bit above a magnitude (`Magnitude`). The sign of zero and
the payload of a NaN are kept, so two numbers are equal exactly when their bits are.

* `ofParts`, `negative` and `magnitude` take a word apart and put it together again.
* `signedUnits` is the value of a finite word as an integer number of units of `2^-1074`.
-/

namespace TraceMath

/-- A binary64 number, given by its bits. -/
structure Binary64 where
  bits : UInt64
deriving DecidableEq, Inhabited

namespace Binary64

/-! ## Sign and magnitude -/

/-- The sign bit. -/
def negative (x : Binary64) : Bool := decide (Magnitude.signBit ≤ x.bits.toNat)

/-- The bits below the sign bit. -/
def magnitude (x : Binary64) : Nat := x.bits.toNat % Magnitude.signBit

/-- The number of a sign and a magnitude below the sign bit. -/
def ofParts (negative : Bool) (magnitude : Nat) : Binary64 :=
  ⟨UInt64.ofNat (magnitude + if negative then Magnitude.signBit else 0)⟩

@[simp] theorem magnitude_lt (x : Binary64) : x.magnitude < Magnitude.signBit :=
  Nat.mod_lt _ (by decide)

@[simp] theorem negative_ofParts {m : Nat} (s : Bool) (h : m < Magnitude.signBit) :
    (ofParts s m).negative = s := by
  unfold Magnitude.signBit at h
  cases s <;> simp [ofParts, negative, Magnitude.signBit] <;> omega

@[simp] theorem magnitude_ofParts {m : Nat} (s : Bool) (h : m < Magnitude.signBit) :
    (ofParts s m).magnitude = m := by
  unfold Magnitude.signBit at h
  cases s <;> simp [ofParts, magnitude, Magnitude.signBit] <;> omega

@[simp] theorem ofParts_negative_magnitude (x : Binary64) :
    ofParts x.negative x.magnitude = x := by
  obtain ⟨b⟩ := x
  have hb := b.toNat_lt
  rw [ofParts, Binary64.mk.injEq]
  apply UInt64.toNat_inj.mp
  simp only [negative, magnitude, decide_eq_true_eq, UInt64.toNat_ofNat']
  unfold Magnitude.signBit
  split <;> omega

/-- Numbers with equal signs and equal magnitudes are equal. -/
theorem ext_parts {x y : Binary64} (hs : x.negative = y.negative)
    (hm : x.magnitude = y.magnitude) : x = y := by
  rw [← ofParts_negative_magnitude x, ← ofParts_negative_magnitude y, hs, hm]

/-! ## Classes -/

/-- The word stands for no number. -/
abbrev IsNaN (x : Binary64) : Prop := Magnitude.infinity < x.magnitude

abbrev IsInfinite (x : Binary64) : Prop := x.magnitude = Magnitude.infinity

abbrev IsFinite (x : Binary64) : Prop := x.magnitude < Magnitude.infinity

/-- A zero of either sign. -/
abbrev IsZero (x : Binary64) : Prop := x.magnitude = 0

theorem isNaN_or_isInfinite_or_isFinite (x : Binary64) : x.IsNaN ∨ x.IsInfinite ∨ x.IsFinite := by
  simp only [IsNaN, IsInfinite, IsFinite]
  omega

/-! ## Constants -/

/-- The quiet NaN that operations without a result give. -/
def nan : Binary64 := ⟨0x7ff8000000000000⟩

def infinity (negative : Bool) : Binary64 := ofParts negative Magnitude.infinity

def zero (negative : Bool) : Binary64 := ofParts negative 0

def one : Binary64 := ⟨0x3ff0000000000000⟩

@[simp] theorem isNaN_nan : nan.IsNaN := by decide

@[simp] theorem negative_infinity (s : Bool) : (infinity s).negative = s := by simp [infinity]

@[simp] theorem magnitude_infinity (s : Bool) : (infinity s).magnitude = Magnitude.infinity := by
  simp [infinity]

@[simp] theorem negative_zero (s : Bool) : (zero s).negative = s :=
  negative_ofParts s (by decide)

@[simp] theorem magnitude_zero (s : Bool) : (zero s).magnitude = 0 :=
  magnitude_ofParts s (by decide)

@[simp] theorem negative_one : one.negative = false := by decide

/-! ## Values -/

/-- The absolute value of a finite number in units of `2^-1074`. -/
def units (x : Binary64) : Nat := Magnitude.units x.magnitude

/-- The value of a finite number in units of `2^-1074`. -/
def signedUnits (x : Binary64) : Int := if x.negative then -x.units else x.units

/-- The number of the given sign nearest to `num / den` units, ties to even. -/
def ofRatio (negative : Bool) (num den : Nat) : Binary64 :=
  ofParts negative (Magnitude.ofRatio num den)

@[simp] theorem negative_ofRatio (s : Bool) (num den : Nat) : (ofRatio s num den).negative = s := by
  simp [ofRatio]

@[simp] theorem magnitude_ofRatio (s : Bool) (num den : Nat) :
    (ofRatio s num den).magnitude = Magnitude.ofRatio num den := by
  simp [ofRatio]

/-- The number nearest to an integer; zero is positive. -/
def ofInt (n : Int) : Binary64 := ofParts (decide (n < 0)) (Magnitude.ofNat n.natAbs)

/-- The number with the other sign bit, NaN words included. -/
def neg (x : Binary64) : Binary64 := ofParts (!x.negative) x.magnitude

instance : Neg Binary64 := ⟨neg⟩

@[simp] theorem negative_neg (x : Binary64) : (-x).negative = !x.negative :=
  negative_ofParts _ x.magnitude_lt

@[simp] theorem magnitude_neg (x : Binary64) : (-x).magnitude = x.magnitude :=
  magnitude_ofParts _ x.magnitude_lt

@[simp] theorem neg_neg_self (x : Binary64) : - -x = x := by
  apply ext_parts <;> simp

/-- The number with a clear sign bit. -/
def abs (x : Binary64) : Binary64 := ofParts false x.magnitude

@[simp] theorem negative_abs (x : Binary64) : x.abs.negative = false := by simp [abs]

@[simp] theorem magnitude_abs (x : Binary64) : x.abs.magnitude = x.magnitude := by simp [abs]

/-- Keeps every number and replaces every NaN by `nan`. -/
def quiet (x : Binary64) : Binary64 := if x.IsNaN then nan else x

end Binary64

end TraceMath
