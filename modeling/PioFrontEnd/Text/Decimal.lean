import PioFrontEnd.Text.Basic

/-!
# Decimal numerals of 32-bit words

Constants are words of 32 bits, read as signed numbers. A numeral is a run of ASCII digits of any
length, and it denotes its number modulo `2 ^ 32`: the run is folded from the left and every step
wraps. A word is written with the fewest digits, after a minus sign if it is negative.

* `value_eq_ofNat`: wrapping at every digit is the same as wrapping once, at the end.
* `value_write`: a word that is not negative reads back from its numeral.
-/

namespace PioFrontEnd.Text.Decimal

/-- The word that a run of digits denotes. -/
def value (digits : Text) : Int32 :=
  digits.foldl (fun n c => n * 10 + Int32.ofNat (c.toNat - '0'.toNat)) 0

/-- A word in decimal. -/
def write (n : Int32) : Text :=
  if n < 0 then '-' :: Nat.toDigits 10 n.toInt.natAbs else Nat.toDigits 10 n.toInt.natAbs

/-- Digits that are read as words come to the word of the number that they write. -/
theorem foldl_ofNat (digits : Text) (n : Nat) :
    digits.foldl (fun n c => n * 10 + Int32.ofNat (c.toNat - '0'.toNat)) (Int32.ofNat n) =
      Int32.ofNat (Nat.ofDigitChars 10 digits n) := by
  induction digits generalizing n with
  | nil => simp
  | cons c digits ih =>
    have hstep : Int32.ofNat n * 10 + Int32.ofNat (c.toNat - '0'.toNat) =
        Int32.ofNat (10 * n + (c.toNat - '0'.toNat)) := by
      rw [Int32.ofNat_add, Int32.ofNat_mul, Int32.mul_comm]
      rfl
    rw [List.foldl_cons, hstep, ih, Nat.ofDigitChars_cons]

/-- The word of a numeral is the number that it denotes, modulo `2 ^ 32`. -/
theorem value_eq_ofNat (digits : Text) :
    value digits = Int32.ofNat (Nat.ofDigitChars 10 digits 0) :=
  foldl_ofNat digits 0

/-- A word that is not negative reads back from its numeral. -/
theorem value_write {n : Int32} (h : ¬ n < 0) : value (write n) = n := by
  rw [write, if_neg h, value_eq_ofNat, Nat.ofDigitChars_toDigits (by decide) (by decide)]
  have hn : 0 ≤ n.toInt := by
    have := Int32.le_iff_toInt_le.1 (Int32.not_lt.1 h)
    simpa using this
  rw [← Int32.ofInt_eq_ofNat, Int.natAbs_of_nonneg hn, Int32.ofInt_toInt]

end PioFrontEnd.Text.Decimal
