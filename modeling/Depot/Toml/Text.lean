import Depot.Text.Hex

/-!
# Characters, blanks and strings of TOML

Blanks do not end a line, line ends do; a comment may hold everything but controls. There are four
kinds of strings: with escapes between quotes, literally between apostrophes, and both over several
lines between three of these. One or two quotes right before the three closing ones still belong to
the text.
-/

namespace Depot.Toml

/-! ## Characters -/

/-- The blanks inside a line. -/
def isBlank (c : Char) : Bool := c == ' ' || c == '\t'

/-- A character that may stand for itself: no control but the tab. -/
def isPlain (c : Char) : Bool := c == '\t' || (32 ≤ c.toNat && c.toNat != 127)

/-- The rest after blanks. -/
def skipBlanks (s : List Char) : List Char := s.dropWhile isBlank

/-- The rest after a line end. -/
def afterBreak? : List Char → Option (List Char)
  | '\n' :: rest => some rest
  | '\r' :: '\n' :: rest => some rest
  | _ => none

/-- The rest of a line behind its contents: blanks, a comment, and the line end or the end of the
text. -/
def endOfLine? (s : List Char) : Option (List Char) :=
  let s := skipBlanks s
  let s := if s.head? = some '#' then s.dropWhile isPlain else s
  if s.isEmpty then some [] else afterBreak? s

/-- The rest after blanks, line ends and comments. A comment has to end with its line. -/
def skipFiller : (inComment : Bool) → List Char → List Char
  | _, '\n' :: rest => skipFiller false rest
  | _, '\r' :: '\n' :: rest => skipFiller false rest
  | inComment, c :: rest =>
    if inComment then if isPlain c then skipFiller true rest else c :: rest
    else if isBlank c then skipFiller false rest
    else if c = '#' then skipFiller true rest
    else c :: rest
  | _, [] => []

/-! ## Strings -/

/-- The character of a code that stands for one. -/
def scalar? (code : Nat) : Option Char :=
  if h : code.isValidChar then some (Char.ofNatAux code h) else none

/-- The character of an escape with digits. -/
def escaped? (digits : List Char) : Option Char := do
  let values ← digits.mapM Text.Hex.value?
  scalar? (values.foldl (fun n d => 16 * n + d) 0)

/-- The character of a short escape. -/
def shortEscape? (c : Char) : Option Char :=
  if c = 'b' then some '\x08'
  else if c = 't' then some '\t'
  else if c = 'n' then some '\n'
  else if c = 'f' then some '\x0c'
  else if c = 'r' then some '\r'
  else if c = '"' then some '"'
  else if c = '\\' then some '\\'
  else none

/-- What a string gives: its characters and the rest behind it. -/
abbrev Scan := Option (List Char × List Char)

/-- A scan with one more character in front. -/
def Scan.cons (c : Option Char) (scan : Scan) : Scan := do
  let c ← c
  let (cs, rest) ← scan
  pure (c :: cs, rest)

/-- A string with escapes, after its opening quote. -/
def quoted : List Char → Scan
  | '"' :: rest => some ([], rest)
  | '\\' :: 'u' :: a :: b :: c :: d :: rest => (quoted rest).cons (escaped? [a, b, c, d])
  | '\\' :: 'U' :: a :: b :: c :: d :: e :: f :: g :: h :: rest =>
    (quoted rest).cons (escaped? [a, b, c, d, e, f, g, h])
  | '\\' :: c :: rest => (quoted rest).cons (shortEscape? c)
  | c :: rest => if isPlain c && c != '\\' then (quoted rest).cons (some c) else none
  | [] => none

/-- A string without escapes, after its opening apostrophe. -/
def literal : List Char → Scan
  | '\'' :: rest => some ([], rest)
  | c :: rest => if isPlain c then (literal rest).cons (some c) else none
  | [] => none

/-- Does a line end before anything but blanks? -/
def endsLine (s : List Char) : Bool := (afterBreak? (skipBlanks s)).isSome

/-- A string with escapes over several lines, after its opening quotes. Behind a backslash that ends
a line, blanks and line ends are trimmed away. -/
def quotedLines : (trimming : Bool) → List Char → Scan
  | _, '"' :: '"' :: '"' :: '"' :: '"' :: rest => some (['"', '"'], rest)
  | _, '"' :: '"' :: '"' :: '"' :: rest => some (['"'], rest)
  | _, '"' :: '"' :: '"' :: rest => some ([], rest)
  | _, '\\' :: 'u' :: a :: b :: c :: d :: rest =>
    (quotedLines false rest).cons (escaped? [a, b, c, d])
  | _, '\\' :: 'U' :: a :: b :: c :: d :: e :: f :: g :: h :: rest =>
    (quotedLines false rest).cons (escaped? [a, b, c, d, e, f, g, h])
  | _, '\\' :: c :: rest =>
    if endsLine (c :: rest) then quotedLines true rest
    else (quotedLines false rest).cons (shortEscape? c)
  | trimming, '\r' :: '\n' :: rest =>
    if trimming then quotedLines true rest else (quotedLines false rest).cons (some '\n')
  | trimming, c :: rest =>
    if trimming && (isBlank c || c == '\n') then quotedLines true rest
    else if (isPlain c && c != '\\') || c == '\n' then (quotedLines false rest).cons (some c)
    else none
  | _, [] => none

/-- A string without escapes over several lines, after its opening apostrophes. -/
def literalLines : List Char → Scan
  | '\'' :: '\'' :: '\'' :: '\'' :: '\'' :: rest => some (['\'', '\''], rest)
  | '\'' :: '\'' :: '\'' :: '\'' :: rest => some (['\''], rest)
  | '\'' :: '\'' :: '\'' :: rest => some ([], rest)
  | '\r' :: '\n' :: rest => (literalLines rest).cons (some '\n')
  | c :: rest => if isPlain c || c == '\n' then (literalLines rest).cons (some c) else none
  | [] => none

/-- The text without a line end at its front. -/
def dropBreak (s : List Char) : List Char := (afterBreak? s).getD s

/-- A string on one line. -/
def lineString? : List Char → Scan
  | '"' :: rest => quoted rest
  | '\'' :: rest => literal rest
  | _ => none

/-- A string of any kind. -/
def string? : List Char → Scan
  | '"' :: '"' :: '"' :: rest => quotedLines false (dropBreak rest)
  | '\'' :: '\'' :: '\'' :: rest => literalLines (dropBreak rest)
  | s => lineString? s

end Depot.Toml
