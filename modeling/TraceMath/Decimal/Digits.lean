/-!
# Decimal digits

Numbers as lists of digits, most significant first, and as text.

* `ofDigits_digits` and `digit?_digitChar`: what is written reads back.
-/

namespace TraceMath.Decimal

/-- The digits of a number; zero has one. -/
def digits (n : Nat) : List Nat := if n < 10 then [n] else digits (n / 10) ++ [n % 10]

/-- The number of digits. -/
def digitCount (n : Nat) : Nat := if n < 10 then 1 else digitCount (n / 10) + 1

/-- The number of a list of digits. -/
def ofDigits (ds : List Nat) : Nat := ds.foldl (fun n d => 10 * n + d) 0

/-- The character of a digit below ten. -/
def digitChar (d : Nat) : Char := Char.ofNat (48 + d)

/-- The digit of a character from `0` to `9`. -/
def digit? (c : Char) : Option Nat :=
  if 48 ≤ c.toNat ∧ c.toNat < 58 then some (c.toNat - 48) else none

/-- The text of a natural number. -/
def natChars (n : Nat) : List Char := (digits n).map digitChar

/-- The text of an integer, with a minus sign in front of a negative one. -/
def intChars (n : Int) : List Char :=
  if n < 0 then '-' :: natChars n.natAbs else natChars n.natAbs

/-- The digits at the front of a text, and what follows them. -/
def digitRun : List Char → List Nat × List Char
  | [] => ([], [])
  | c :: cs =>
    match digit? c with
    | some d => (d :: (digitRun cs).1, (digitRun cs).2)
    | none => ([], c :: cs)

@[simp] theorem ofDigits_append_singleton (ds : List Nat) (d : Nat) :
    ofDigits (ds ++ [d]) = 10 * ofDigits ds + d := by
  simp [ofDigits, List.foldl_append]

@[simp] theorem ofDigits_digits (n : Nat) : ofDigits (digits n) = n := by
  induction n using Nat.strongRecOn with
  | ind n ih =>
    rw [digits]
    split
    · simp [ofDigits]
    · rw [ofDigits_append_singleton, ih (n / 10) (by omega)]
      omega

theorem digits_lt (n : Nat) : ∀ d ∈ digits n, d < 10 := by
  induction n using Nat.strongRecOn with
  | ind n ih =>
    rw [digits]
    split
    · simpa
    · intro d hd
      rcases List.mem_append.mp hd with h | h
      · exact ih (n / 10) (by omega) d h
      · rw [List.mem_singleton] at h
        omega

@[simp] theorem digit?_digitChar {d : Nat} (h : d < 10) : digit? (digitChar d) = some d := by
  have hv : (48 + d).isValidChar := Or.inl (by omega)
  have hn : (digitChar d).toNat = 48 + d := by
    rw [digitChar, Char.ofNat, dif_pos hv]
    rfl
  rw [digit?, hn, if_pos (by omega)]
  simp

@[simp] theorem length_digits (n : Nat) : (digits n).length = digitCount n := by
  induction n using Nat.strongRecOn with
  | ind n ih =>
    rw [digits, digitCount]
    split
    · rfl
    · simp [ih (n / 10) (by omega)]

end TraceMath.Decimal
