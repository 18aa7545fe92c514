/-!
# Blank characters

The characters of the Unicode property `White_Space`, and the text left when they are dropped from
the ends. `isBlank` is the whole table: core's `Char.isWhitespace` knows its ASCII part only, and
not all of that.
-/

namespace Depot.Text

/-- The characters of `White_Space`: the controls from tab to carriage return, the space, the next
line control and the space separators and line ends outside ASCII. -/
def isBlank (c : Char) : Bool :=
  let n := c.toNat
  (9 ≤ n && n ≤ 13) || n == 0x20 || n == 0x85 || n == 0xa0 || n == 0x1680 ||
    (0x2000 ≤ n && n ≤ 0x200a) || n == 0x2028 || n == 0x2029 || n == 0x202f || n == 0x205f ||
    n == 0x3000

/-- Without the blanks at the front. -/
def trimStart (s : List Char) : List Char := s.dropWhile isBlank

/-- Without the blanks at either end. -/
def trim (s : List Char) : List Char := (trimStart (trimStart s).reverse).reverse

/-- Nothing but blanks. -/
def allBlank (s : List Char) : Bool := s.all isBlank

end Depot.Text
