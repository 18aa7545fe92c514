import Depot.Json.Basic
import Depot.Text.Decimal
import Depot.Text.Hex

/-!
# Reading JSON

`Json.parse?` reads a whole text. The recursion is on a bound for the nesting, which the length of
the text always meets: every nested call is made after at least one character has been read.
-/

namespace Depot.Json

/-- The blanks that may stand between tokens. -/
def isSpace (c : Char) : Bool := c == ' ' || c == '\n' || c == '\t' || c == '\r'

/-- The rest after leading blanks. -/
def skipSpace (s : List Char) : List Char := s.dropWhile isSpace

/-! ## Strings -/

/-- The number of four hexadecimal digits. -/
def hex4? (a b c d : Char) : Option Nat := do
  let a ← Text.Hex.value? a
  let b ← Text.Hex.value? b
  let c ← Text.Hex.value? c
  let d ← Text.Hex.value? d
  pure (((a * 16 + b) * 16 + c) * 16 + d)

/-- The character of a short escape. -/
def shortEscape? (c : Char) : Option Char :=
  if c = '"' then some '"'
  else if c = '\\' then some '\\'
  else if c = '/' then some '/'
  else if c = 'b' then some '\x08'
  else if c = 'f' then some '\x0c'
  else if c = 'n' then some '\n'
  else if c = 'r' then some '\r'
  else if c = 't' then some '\t'
  else none

/-- What one character or escape of a string gives: a character or half of a surrogate pair. -/
inductive Piece where
  | char (c : Char)
  | high (n : Nat)
  | low (n : Nat)
  deriving Repr

/-- The piece of a four-digit escape. -/
def Piece.ofCode (n : Nat) : Piece :=
  if 0xd800 ≤ n ∧ n < 0xdc00 then .high (n - 0xd800)
  else if 0xdc00 ≤ n ∧ n < 0xe000 then .low (n - 0xdc00)
  else .char (Char.ofNat n)

/-- The pieces up to the closing quote, and the rest behind it. -/
def pieces : List Char → Option (List Piece × List Char)
  | [] => none
  | '"' :: rest => some ([], rest)
  | '\\' :: 'u' :: a :: b :: c :: d :: rest =>
    match hex4? a b c d with
    | none => none
    | some n => (pieces rest).map fun (ps, rest) => (Piece.ofCode n :: ps, rest)
  | '\\' :: e :: rest =>
    match shortEscape? e with
    | none => none
    | some c => (pieces rest).map fun (ps, rest) => (Piece.char c :: ps, rest)
  | c :: rest =>
    if c.toNat < 32 then none
    else (pieces rest).map fun (ps, rest) => (Piece.char c :: ps, rest)

/-- The characters of the pieces: a high half needs a low half right behind it, and a low half one
in front. -/
def joinPieces : List Piece → Option (List Char)
  | [] => some []
  | .char c :: rest => (joinPieces rest).map (c :: ·)
  | .high h :: .low l :: rest =>
    (joinPieces rest).map (Char.ofNat (0x10000 + h * 0x400 + l) :: ·)
  | _ => none

/-- A string after its opening quote; no text when half of a surrogate pair is missing. -/
def stringBody (s : List Char) : Option (Option String × List Char) :=
  (pieces s).map fun (ps, rest) => ((joinPieces ps).map String.ofList, rest)

/-! ## Numbers -/

/-- Digits after a point, if there is one. -/
def fractionDigits : List Char → Option (List Char × List Char)
  | '.' :: rest =>
    let (digits, rest) := rest.span Char.isDigit
    if digits.isEmpty then none else some (digits, rest)
  | rest => some ([], rest)

/-- The digits of an exponent behind its mark and sign. -/
def exponentDigits (negative : Bool) (s : List Char) : Option (Option Int × List Char) :=
  let (digits, rest) := s.span Char.isDigit
  if digits.isEmpty then none
  else
    let n : Int := Text.Decimal.value digits
    some (some (if negative then -n else n), rest)

/-- The exponent, if there is one. -/
def exponent : List Char → Option (Option Int × List Char)
  | c :: rest =>
    if c = 'e' ∨ c = 'E' then
      match rest with
      | '+' :: rest => exponentDigits false rest
      | '-' :: rest => exponentDigits true rest
      | rest => exponentDigits false rest
    else some (none, c :: rest)
  | [] => some (none, [])

/-- The value of a number without fraction and exponent, when it fits 64 bits; minus zero is no
integer. -/
def integer? (negative : Bool) (digits : List Char) : Option Int :=
  let n := Text.Decimal.value digits
  if negative then if 0 < n ∧ n ≤ Nat.pow 2 63 then some (-n) else none
  else if n < Text.Decimal.wordLimit then some n else none

/-- The value of a number by its parts. -/
def numberOfParts (negative : Bool) (whole frac : List Char) (exp : Option Int) (text : List Char) :
    Json :=
  match if frac.isEmpty ∧ exp.isNone then integer? negative whole else none with
  | some n => .integer n
  | none =>
    let digits := whole ++ frac
    let mantissa := Text.Decimal.value digits
    if Text.Decimal.exceedsDouble mantissa digits.length (exp.getD 0 - frac.length) then .unusable
    else .fraction (String.ofList text)

/-- A number and the rest behind it. -/
def number (s : List Char) : Option (Json × List Char) :=
  let (negative, body) := match s with
    | '-' :: rest => (true, rest)
    | rest => (false, rest)
  let (whole, rest) := body.span Char.isDigit
  if Text.Decimal.isNumeral whole then do
    let (frac, rest) ← fractionDigits rest
    let (exp, rest) ← exponent rest
    pure (numberOfParts negative whole frac exp (s.take (s.length - rest.length)), rest)
  else none

/-! ## Values -/

/-- An object, unless one of its keys stands for no text. -/
def ofMembers (members : List (Option String × Json)) : Json :=
  match members.mapM fun (key, v) => key.map fun key => (key, v) with
  | some members => .object members
  | none => .unusable

/-- A key up to its colon. -/
def key (s : List Char) : Option (Option String × List Char) :=
  match skipSpace s with
  | '"' :: rest => do
    let (k, rest) ← stringBody rest
    match skipSpace rest with
    | ':' :: rest => some (k, rest)
    | _ => none
  | _ => none

mutual
/-- A value and the rest behind it. -/
def value : Nat → List Char → Option (Json × List Char)
  | 0, _ => none
  | bound + 1, s =>
    match skipSpace s with
    | '"' :: rest => (stringBody rest).map fun (text, rest) =>
        (match text with
          | some t => .string t
          | none => .unusable, rest)
    | '[' :: rest =>
      match skipSpace rest with
      | ']' :: rest => some (.array [], rest)
      | rest => do
        let (v, rest) ← value bound rest
        let (vs, rest) ← items bound rest
        pure (.array (v :: vs), rest)
    | '{' :: rest =>
      match skipSpace rest with
      | '}' :: rest => some (.object [], rest)
      | rest => do
        let (k, rest) ← key rest
        let (v, rest) ← value bound rest
        let (ms, rest) ← members bound rest
        pure (ofMembers ((k, v) :: ms), rest)
    | 'n' :: 'u' :: 'l' :: 'l' :: rest => some (.null, rest)
    | 't' :: 'r' :: 'u' :: 'e' :: rest => some (.bool true, rest)
    | 'f' :: 'a' :: 'l' :: 's' :: 'e' :: rest => some (.bool false, rest)
    | rest => number rest

/-- The items after the first one, up to the closing bracket. -/
def items : Nat → List Char → Option (List Json × List Char)
  | 0, _ => none
  | bound + 1, s =>
    match skipSpace s with
    | ']' :: rest => some ([], rest)
    | ',' :: rest => do
      let (v, rest) ← value bound rest
      let (vs, rest) ← items bound rest
      pure (v :: vs, rest)
    | _ => none

/-- The members after the first one, up to the closing brace. -/
def members : Nat → List Char → Option (List (Option String × Json) × List Char)
  | 0, _ => none
  | bound + 1, s =>
    match skipSpace s with
    | '}' :: rest => some ([], rest)
    | ',' :: rest => do
      let (k, rest) ← key rest
      let (v, rest) ← value bound rest
      let (ms, rest) ← members bound rest
      pure ((k, v) :: ms, rest)
    | _ => none
end

/-- The value of a whole text, blanks around it allowed. -/
def parse? (s : String) : Option Json :=
  match value (s.toList.length + 1) s.toList with
  | some (v, rest) => if (skipSpace rest).isEmpty then some v else none
  | none => none

end Depot.Json
