import Depot.Json.Basic
import Depot.Text.Hex

/-!
# Printing JSON

The compact form: no blanks, members in their order, and in strings only the quote, the backslash
and the control characters below the space escaped.
-/

namespace Depot.Json

/-- One character inside a string. -/
def escape (c : Char) : List Char :=
  if c = '"' then ['\\', '"']
  else if c = '\\' then ['\\', '\\']
  else if c = '\x08' then ['\\', 'b']
  else if c = '\x0c' then ['\\', 'f']
  else if c = '\n' then ['\\', 'n']
  else if c = '\r' then ['\\', 'r']
  else if c = '\t' then ['\\', 't']
  else if c.toNat < 32 then
    ['\\', 'u', '0', '0', Text.Hex.lower (c.toNat / 16), Text.Hex.lower (c.toNat % 16)]
  else [c]

/-- A string between its quotes. -/
def quote (s : String) : List Char := '"' :: (s.toList.flatMap escape ++ ['"'])

mutual
/-- The compact text of a value; an unusable one is written as `null`. -/
def render : Json → List Char
  | .null => ['n', 'u', 'l', 'l']
  | .bool true => ['t', 'r', 'u', 'e']
  | .bool false => ['f', 'a', 'l', 's', 'e']
  | .integer n => (toString n).toList
  | .fraction text => text.toList
  | .string s => quote s
  | .array [] => ['[', ']']
  | .array (v :: rest) => '[' :: (render v ++ renderItems rest)
  | .object [] => ['{', '}']
  | .object ((key, v) :: rest) => '{' :: (quote key ++ ':' :: (render v ++ renderMembers rest))
  | .unusable => ['n', 'u', 'l', 'l']

/-- The items after the first one, and the closing bracket. -/
def renderItems : List Json → List Char
  | [] => [']']
  | v :: rest => ',' :: (render v ++ renderItems rest)

/-- The members after the first one, and the closing brace. -/
def renderMembers : List (String × Json) → List Char
  | [] => ['}']
  | (key, v) :: rest => ',' :: (quote key ++ ':' :: (render v ++ renderMembers rest))
end

/-- The compact text of a value. -/
def text (v : Json) : String := String.ofList (render v)

end Depot.Json
