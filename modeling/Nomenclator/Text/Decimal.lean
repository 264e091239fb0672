/-
Indices as decimal text. An index has one written form, without leading
zeroes, and fits 32 bits.
-/

namespace Nomenclator.Text.Decimal

/-- Two to the power of 32. -/
def bound : Nat := 4294967296

def write (n : Nat) : List Char := Nat.toDigits 10 n

/-- Refuses an empty text, a leading zero before other digits, and an index out of bounds. -/
def read? (digits : List Char) : Option Nat :=
  if digits ≠ [] ∧ digits.all Char.isDigit ∧ (digits = ['0'] ∨ digits.head? ≠ some '0') ∧
      Nat.ofDigitChars 10 digits 0 < bound then
    some (Nat.ofDigitChars 10 digits 0)
  else
    none

end Nomenclator.Text.Decimal
