import Depot.Text.Decimal
import Depot.Text.Hex
import Depot.Toml.Basic

/-!
# Numbers, truth values and moments of TOML

Every value that is neither text nor a collection is one word, but for a moment whose date and time
are parted by a space. A word is read as a whole: underscores stand between digits only, a whole
number in decimal digits has no zero in front, and a moment has to be on the calendar.
-/

namespace Depot.Toml

open Text (Decimal.value)

/-- The characters of words. -/
def isWordChar (c : Char) : Bool :=
  c.isAlphanum || c == '_' || c == '-' || c == '+' || c == '.' || c == ':'

/-! ## Numbers -/

/-- Digits without the single underscores between them. -/
def digits? (isDigit : Char → Bool) : List Char → Option (List Char)
  | [] => none
  | [c] => if isDigit c then some [c] else none
  | c :: '_' :: rest => if isDigit c then (digits? isDigit rest).map (c :: ·) else none
  | c :: rest => if isDigit c then (digits? isDigit rest).map (c :: ·) else none

/-- Decimal digits without a zero in front of another digit. -/
def numeral? (s : List Char) : Option (List Char) :=
  (digits? Char.isDigit s).filter Text.Decimal.isNumeral

/-- Is there a minus sign, and the rest behind the sign? -/
def sign : List Char → Bool × List Char
  | '-' :: rest => (true, rest)
  | '+' :: rest => (false, rest)
  | s => (false, s)

/-- The number of 64-bit words with a sign that are not negative. -/
def integerLimit : Nat := Nat.pow 2 63

/-- A number in the digits of another base, which has no sign. -/
def based? (base : Nat) (s : List Char) : Option Int := do
  let isDigit (c : Char) : Bool := match Text.Hex.value? c with
    | some d => d < base
    | none => false
  let digits ← digits? isDigit s
  let n := digits.foldl (fun n c => base * n + (Text.Hex.value? c).getD 0) 0
  if n < integerLimit then some n else none

/-- A whole number. -/
def integer? : List Char → Option Int
  | '0' :: 'x' :: rest => based? 16 rest
  | '0' :: 'o' :: rest => based? 8 rest
  | '0' :: 'b' :: rest => based? 2 rest
  | s => do
    let (negative, body) := sign s
    let n := Decimal.value (← numeral? body)
    if negative then if n ≤ integerLimit then some (-n) else none
    else if n < integerLimit then some n else none

/-- The exponent behind its mark. -/
def exponent? : List Char → Option Int
  | c :: rest =>
    if c = 'e' ∨ c = 'E' then do
      let (negative, body) := sign rest
      let n := Decimal.value (← digits? Char.isDigit body)
      some (if negative then -n else n)
    else none
  | [] => none

/-- The digits behind a point and the exponent behind them, of which at least one has to be there.
-/
def fractionParts? : List Char → Option (List Char × Int)
  | '.' :: rest => do
    let (front, back) := rest.span fun c => c != 'e' && c != 'E'
    let digits ← digits? Char.isDigit front
    if back.isEmpty then some (digits, 0) else (exponent? back).map (digits, ·)
  | s => (exponent? s).map ([], ·)

/-- A number with a fraction or an exponent, in the range of floating point, or one of the words for
what is no number. -/
def isFraction (s : List Char) : Bool :=
  let (negative, body) := sign s
  if body = ['i', 'n', 'f'] ∨ body = ['n', 'a', 'n'] then true
  else
    let (front, back) := body.span fun c => c != '.' && c != 'e' && c != 'E'
    match numeral? front, fractionParts? back with
    | some whole, some (frac, exponent) =>
      let digits := whole ++ frac
      negative ||
        !Text.Decimal.exceedsDouble (Decimal.value digits) digits.length (exponent - frac.length)
    | _, _ => false

/-! ## Moments -/

/-- The number written by exactly `count` digits, if it is at most `max`. -/
def field? (count max : Nat) (s : List Char) : Option Nat :=
  if s.length = count && s.all Char.isDigit && Decimal.value s ≤ max then some (Decimal.value s)
  else none

/-- Is there a 29th of February? -/
def isLeap (year : Nat) : Bool := year % 4 == 0 && (year % 100 != 0 || year % 400 == 0)

/-- The number of days of a month. -/
def daysIn (year month : Nat) : Nat :=
  if month = 2 then if isLeap year then 29 else 28
  else if [4, 6, 9, 11].contains month then 30
  else 31

/-- A date on the calendar. -/
def isDate (s : List Char) : Bool :=
  match s.splitOn '-' with
  | [y, m, d] =>
    match field? 4 9999 y, field? 2 12 m, field? 2 31 d with
    | some year, some month, some day => 1 ≤ month && 1 ≤ day && day ≤ daysIn year month
    | _, _, _ => false
  | _ => false

/-- The seconds of a time, with or without a fraction; a leap second is allowed. -/
def isSeconds (s : List Char) : Bool :=
  let (front, back) := s.span (· != '.')
  (field? 2 60 front).isSome &&
    match back with
    | [] => true
    | _ :: frac => !frac.isEmpty && frac.all Char.isDigit

/-- A time of day. -/
def isTime (s : List Char) : Bool :=
  match s.splitOn ':' with
  | [h, m, sec] => (field? 2 23 h).isSome && (field? 2 59 m).isSome && isSeconds sec
  | _ => false

/-- The distance from universal time. -/
def isOffset (s : List Char) : Bool :=
  match s with
  | [c] => c == 'Z' || c == 'z'
  | c :: rest =>
    (c == '+' || c == '-') &&
      match rest.splitOn ':' with
      | [h, m] => (field? 2 23 h).isSome && (field? 2 59 m).isSome
      | _ => false
  | [] => false

/-- A time of day, with or without the distance from universal time. -/
def isTimeWithOffset (s : List Char) : Bool :=
  let (time, offset) := s.span fun c => c.isDigit || c == ':' || c == '.'
  isTime time && (offset.isEmpty || isOffset offset)

/-- A date and a time behind a letter. -/
def isDateTime (s : List Char) : Bool :=
  isDate (s.take 10) &&
    match s.drop 10 with
    | c :: time => (c == 'T' || c == 't') && isTimeWithOffset time
    | [] => false

/-! ## Words -/

/-- The value of a word. -/
def word? (s : List Char) : Option Toml :=
  if s = ['t', 'r', 'u', 'e'] then some (.boolean true)
  else if s = ['f', 'a', 'l', 's', 'e'] then some (.boolean false)
  else if isDate s || isTime s || isDateTime s then some (.moment (String.ofList s))
  else if isFraction s then some (.fraction (String.ofList s))
  else (integer? s).map .integer

/-- A word, or a date and a time parted by a space, and the rest behind it. -/
def scalar (s : List Char) : Option (Toml × List Char) :=
  let (word, rest) := s.span isWordChar
  let (time, behind) := (rest.drop 1).span isWordChar
  if isDate word && rest.head? = some ' ' && isTimeWithOffset time then
    some (.moment (String.ofList (word ++ ' ' :: time)), behind)
  else (word? word).map (·, rest)

end Depot.Toml
