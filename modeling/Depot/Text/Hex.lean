/-!
# Hexadecimal digits

Digits to numbers, in either case, and numbers to digits.
-/

namespace Depot.Text.Hex

/-- The value of a digit of either case. -/
def value? (c : Char) : Option Nat :=
  if c.isDigit then some (c.toNat - 48)
  else if 'a' ≤ c ∧ c ≤ 'f' then some (c.toNat - 87)
  else if 'A' ≤ c ∧ c ≤ 'F' then some (c.toNat - 55)
  else none

/-- A digit in lower case. -/
def lower (n : Nat) : Char := Char.ofNat (if n < 10 then 48 + n else 87 + n)

/-- A digit in upper case. -/
def upper (n : Nat) : Char := Char.ofNat (if n < 10 then 48 + n else 55 + n)

/-- The last `count` digits of a number, in lower case. -/
def digits : (count : Nat) → Nat → List Char
  | 0, _ => []
  | count + 1, n => digits count (n / 16) ++ [lower (n % 16)]

theorem value?_lower : ∀ n < 16, value? (lower n) = some n := by decide

end Depot.Text.Hex
