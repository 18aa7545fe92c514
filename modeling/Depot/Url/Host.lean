import Depot.Text.Decimal
import Depot.Url.Encode

/-!
# Hosts

The host of an address. Where the scheme is special it is a domain, which does not tell cases apart,
or an address of version 4 or 6 in any of its spellings; elsewhere it is opaque, taken as written. A
host in brackets is an address of version 6 everywhere.
-/

namespace Depot.Url

/-- Why a text is no address. -/
inductive Fault where
  | noScheme
  | emptyHost
  | badPort
  | badIpv4
  | badIpv6
  | badHostCharacter
  | badDomain
  deriving DecidableEq, Repr

/-- The wording of a fault. -/
def Fault.message : Fault → String
  | .noScheme => "relative URL without a base"
  | .emptyHost => "empty host"
  | .badPort => "invalid port number"
  | .badIpv4 => "invalid IPv4 address"
  | .badIpv6 => "invalid IPv6 address"
  | .badHostCharacter => "invalid domain character"
  | .badDomain => "invalid international domain name"

/-! ## Version 4 -/

/-- Reads digits of a base. -/
def readBase (base : Nat) (s : List Char) : Option Nat :=
  s.foldl (fun n c => do
    let d ← Text.Hex.value? c
    if d < base then pure (base * (← n) + d) else none) (some 0)

/-- One number of an address of version 4: octal after a zero, hexadecimal after `0x`, else decimal.
-/
def ipv4Number? : List Char → Option Nat
  | [] => none
  | '0' :: 'x' :: rest => readBase 16 rest
  | '0' :: 'X' :: rest => readBase 16 rest
  | ['0'] => some 0
  | '0' :: rest => readBase 8 rest
  | s => readBase 10 s

/-- The parts between dots, without an empty last one. -/
def ipv4Parts (s : List Char) : List (List Char) :=
  let parts := s.splitOn '.'
  if parts.length > 1 && parts.getLast? == some [] then parts.dropLast else parts

/-- Does the last part of a domain look like a number? Such a domain has to be an address. -/
def endsInNumber (s : List Char) : Bool :=
  match (ipv4Parts s).getLast? with
  | some last => !last.isEmpty && (last.all Char.isDigit || (ipv4Number? last).isSome)
  | none => false

/-- The four bytes of an address of version 4, where the last number fills the bytes that are left.
-/
def ipv4? (s : List Char) : Option Nat := do
  let numbers ← (ipv4Parts s).mapM ipv4Number?
  let last ← numbers.getLast?
  let front := numbers.dropLast
  if 3 < front.length || front.any (255 < ·) || Nat.pow 256 (4 - front.length) ≤ last then none
  else pure (front.zipIdx.foldl (fun n (x, i) => n + x * Nat.pow 256 (3 - i)) last)

/-- An address of version 4 in its usual spelling. -/
def ipv4Text (n : Nat) : String :=
  ".".intercalate ([n / 256 / 256 / 256, n / 256 / 256 % 256, n / 256 % 256, n % 256].map toString)

/-! ## Version 6 -/

/-- A group of one to four hexadecimal digits. -/
def group? (s : List Char) : Option Nat :=
  if s.isEmpty || 4 < s.length then none else readBase 16 s

/-- A byte in decimal, without leading zeros. -/
def octet? (s : List Char) : Option Nat :=
  let n := Text.Decimal.value s
  if Text.Decimal.isNumeral s && n < 256 then some n else none

/-- The two groups that an address of version 4 stands for at the end. -/
def embedded? (s : List Char) : Option (List Nat) := do
  match ← (s.splitOn '.').mapM octet? with
  | [a, b, c, d] => pure [256 * a + b, 256 * c + d]
  | _ => none

/-- The groups between colons, of which the last may be written as an address of version 4. -/
def groups? : List (List Char) → Option (List Nat)
  | [] => some []
  | [last] => if last.contains '.' then embedded? last else (group? last).map ([·])
  | s :: rest => do pure ((← group? s) :: (← groups? rest))

/-- The groups of a text, none for the empty one. -/
def groupList? (s : List Char) : Option (List Nat) :=
  if s.isEmpty then some [] else groups? (s.splitOn ':')

/-- The text before and after the first double colon. -/
def cutDouble : List Char → Option (List Char × List Char)
  | ':' :: ':' :: rest => some ([], rest)
  | c :: rest => (cutDouble rest).map fun (front, back) => (c :: front, back)
  | [] => none

/-- The eight groups of an address of version 6. A double colon stands for one zero group or more.
-/
def ipv6? (s : List Char) : Option (List Nat) := do
  match cutDouble s with
  | none =>
    let all ← groupList? s
    if all.length = 8 then pure all else none
  | some (front, back) =>
    if front.contains '.' then none
    else
      let front ← groupList? front
      let back ← groupList? back
      if 7 < front.length + back.length then none
      else pure (front ++ List.replicate (8 - front.length - back.length) 0 ++ back)

/-- The number of zero groups in front. -/
def zeros (l : List Nat) : Nat := (l.takeWhile (· == 0)).length

/-- Where the first longest run of zero groups starts and how long it is. -/
def longestZeros (l : List Nat) : Nat × Nat :=
  (List.range l.length).foldl
    (fun best i => if best.2 < zeros (l.drop i) then (i, zeros (l.drop i)) else best) (0, 0)

/-- Groups in hexadecimal digits between colons. -/
def groupsText (l : List Nat) : String :=
  ":".intercalate (l.map fun n => String.ofList (Nat.toDigits 16 n))

/-- An address of version 6 in its usual spelling: the first longest run of two or more zero groups
is left out. -/
def ipv6Text (l : List Nat) : String :=
  let (start, count) := longestZeros l
  if count < 2 then groupsText l
  else groupsText (l.take start) ++ "::" ++ groupsText (l.drop (start + count))

/-! ## All hosts -/

/-- A host in brackets. -/
def bracketed (s : List Char) : Except Fault String :=
  match s.reverse with
  | ']' :: inner =>
    match ipv6? inner.reverse with
    | some groups => .ok ("[" ++ ipv6Text groups ++ "]")
    | none => .error .badIpv6
  | _ => .error .badIpv6

/-- Characters that no domain contains. -/
def forbiddenInDomain (c : Char) : Bool :=
  isControl c ||
    [' ', '"', '#', '%', '/', ':', '<', '>', '?', '@', '[', '\\', ']', '^', '\x60', '\x7b', '|',
      '\x7d'].contains c

/-- Characters that no opaque host contains. -/
def forbiddenInOpaque (c : Char) : Bool :=
  [Char.ofNat 0, '\t', '\n', '\r', ' ', '#', '/', ':', '<', '>', '?', '@', '[', '\\', ']', '^',
    '|'].contains c

/-- The host of an address with a special scheme. -/
def domain (s : List Char) : Except Fault String :=
  match s with
  | '[' :: rest => bracketed rest
  | _ =>
    match Text.ofUtf8? (decodeBytes s) with
    | none => .error .badDomain
    | some text =>
      let text := text.toList.map Char.toLower
      if text.isEmpty then .error .emptyHost
      else if text.any forbiddenInDomain then .error .badDomain
      else if endsInNumber text then
        match ipv4? text with
        | some n => .ok (ipv4Text n)
        | none => .error .badIpv4
      else .ok (String.ofList text)

/-- The host of an address with any other scheme. -/
def opaqueHost (s : List Char) : Except Fault String :=
  match s with
  | '[' :: rest => bracketed rest
  | _ =>
    if s.any forbiddenInOpaque then .error .badHostCharacter
    else .ok (String.ofList (encode isControl s))

end Depot.Url
