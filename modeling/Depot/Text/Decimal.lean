/-!
# Decimal numbers

Digits to numbers. `Decimal.word?` reads a run of digits as a 64-bit word; the other way, a number
is written with `Nat.repr`.
-/

namespace Depot.Text.Decimal

/-- The value of one decimal digit. -/
def digit (c : Char) : Nat := c.toNat - '0'.toNat

/-- The number written by a run of digits, leading zeros allowed. -/
def value (s : List Char) : Nat := s.foldl (fun n c => 10 * n + digit c) 0

/-- The number of values of a 64-bit word. -/
def wordLimit : Nat := Nat.pow 2 64

/-- The number written by a non-empty run of digits, when it fits a 64-bit word. -/
def word? (s : List Char) : Option Nat :=
  if !s.isEmpty && s.all Char.isDigit && value s < wordLimit then some (value s) else none

/-- Digits that stand for themselves: at least one, and no zero in front of another digit. -/
def isNumeral (s : List Char) : Bool :=
  match s with
  | [] => false
  | [c] => c.isDigit
  | c :: rest => c != '0' && c.isDigit && rest.all Char.isDigit

/-- The least number that floating point cannot hold, as it rounds up to infinity. -/
def doubleLimit : Nat := Nat.pow 2 1024 - Nat.pow 2 970

/-- Is `mantissa * 10 ^ exponent`, with a mantissa of `digits` digits, out of the range of floating
point? -/
def exceedsDouble (mantissa digits : Nat) (exponent : Int) : Bool :=
  if mantissa = 0 then false
  else if 400 < exponent then true
  else if 0 ≤ exponent then doubleLimit ≤ mantissa * Nat.pow 10 exponent.toNat
  else if digits ≤ (-exponent).toNat then false
  else doubleLimit * Nat.pow 10 (-exponent).toNat ≤ mantissa

end Depot.Text.Decimal
