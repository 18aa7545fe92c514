import Depot.Url.Host

/-!
# Web addresses

The address grammar of browsers: blanks around and line ends inside do not count, schemes do not
tell cases apart, and a handful of special schemes treat slashes and hosts in their own way.
`Url.parse` gives the parts, and `Url.requestText` the text under which a web server is asked.
-/

namespace Depot

/-- The parts of an address that matter here. -/
structure Url where
  scheme : String
  /-- Empty when there is none. -/
  host : String
  /-- Unless it is the usual one of the scheme. -/
  port : Option Nat
  path : String
  query : Option String
  deriving DecidableEq, Repr

namespace Url

/-- How a scheme treats what follows it. -/
inductive Style where
  | special
  | file
  | plain
  deriving DecidableEq, Repr

/-- The style of a scheme. -/
def styleOf (scheme : String) : Style :=
  if scheme = "file" then .file
  else if ["http", "https", "ws", "wss", "ftp"].contains scheme then .special
  else .plain

/-- The usual port of a scheme. -/
def usualPort? : String → Option Nat
  | "http" => some 80
  | "ws" => some 80
  | "https" => some 443
  | "wss" => some 443
  | "ftp" => some 21
  | _ => none

/-- Without controls and spaces around, and without tabs and line ends. -/
def clean (s : List Char) : List Char :=
  let isEdge (c : Char) := c.toNat ≤ 32
  let trimmed := ((s.dropWhile isEdge).reverse.dropWhile isEdge).reverse
  trimmed.filter fun c => c != '\t' && c != '\n' && c != '\r'

/-- The scheme in lower case and what follows its colon. -/
def scheme? (s : List Char) : Option (String × List Char) :=
  match s with
  | [] => none
  | first :: _ =>
    let isSchemeChar (c : Char) := c.isAlphanum || c == '+' || c == '-' || c == '.'
    match s.span isSchemeChar with
    | (name, ':' :: rest) =>
      if first.isAlpha then some (String.ofList (name.map Char.toLower), rest) else none
    | _ => none

/-- Does a character end the authority? -/
def endsAuthority (style : Style) (c : Char) : Bool :=
  c == '/' || c == '?' || c == '#' || (c == '\\' && style != .plain)

/-- What follows the last `@` of the authority, and whether there is a user or password before it.
-/
def skipUser (style : Style) (s : List Char) : Except Fault (Bool × List Char) :=
  let authority := s.takeWhile (fun c => !endsAuthority style c)
  if authority.contains '@' then
    let user := (authority.reverse.dropWhile (· != '@')).tail.reverse
    let rest := s.drop (user.length + 1)
    match user, rest with
    | [], c :: _ => if endsAuthority style c then .error .emptyHost else .ok (false, rest)
    | [], [] => .ok (false, [])
    | _, _ => .ok (user != [':'], rest)
  else .ok (false, s)

/-- The characters of a host: up to the end of the authority, or to a colon outside brackets. -/
def hostLength (style : Style) : (inBrackets : Bool) → List Char → Nat
  | _, [] => 0
  | inBrackets, c :: rest =>
    if endsAuthority style c || (c == ':' && !inBrackets) then 0
    else
      1 + hostLength style (if c == '[' then true else if c == ']' then false else inBrackets) rest

/-- The port after a colon, if there is one. -/
def portOf (scheme : String) (s : List Char) : Except Fault (Option Nat × List Char) :=
  match s with
  | ':' :: rest =>
    let (digits, rest) := rest.span Char.isDigit
    let stops := match rest with
      | [] => true
      | c :: _ => c == '/' || c == '\\' || c == '?' || c == '#'
    let n := Text.Decimal.value digits
    if !stops || 65535 < n then .error .badPort
    else .ok (if digits.isEmpty || usualPort? scheme == some n then none else some n, rest)
  | _ => .ok (none, s)

/-- The segment stands for the directory itself. -/
def isDot (s : List Char) : Bool :=
  let t := s.map Char.toLower
  t == ['.'] || t == ['%', '2', 'e']

/-- The segment stands for the directory above. -/
def isDoubleDot (s : List Char) : Bool :=
  ["..", ".%2e", "%2e.", "%2e%2e"].contains (String.ofList (s.map Char.toLower))

/-- The segments of a path without the ones that only move; the last one keeps its slash. -/
def settle : (done : List (List Char)) → List (List Char) → List (List Char)
  | done, [] => done
  | done, [last] =>
    if isDoubleDot last then done.dropLast ++ [[]]
    else if isDot last then done ++ [[]]
    else done ++ [last]
  | done, s :: rest =>
    if isDoubleDot s then settle done.dropLast rest
    else if isDot s then settle done rest
    else settle (done ++ [s]) rest

/-- Cuts where `isEnd` holds. -/
def cutAt (isEnd : Char → Bool) (s : List Char) : List (List Char) :=
  (s.map fun c => if isEnd c then '/' else c).splitOn '/'

/-- The path of a hierarchical address, encoded and with a slash in front of every segment. -/
def pathText (style : Style) (s : List Char) : List Char :=
  let isSlash (c : Char) := c == '/' || (c == '\\' && style != .plain)
  let body := match s with
    | c :: rest => if isSlash c then rest else s
    | [] => []
  if s.isEmpty && style == .plain then []
  else (settle [] (cutAt isSlash body)).flatMap fun seg => '/' :: encode inPathSet seg

/-- Path and query behind the authority; the fragment does not count. -/
def tail (style : Style) (s : List Char) : String × Option String :=
  let s := s.takeWhile (· != '#')
  let (path, query) := s.span (· != '?')
  let querySet := if style = .plain then inQuerySet else inSpecialQuerySet
  (String.ofList (pathText style path),
    match query with
    | _ :: q => some (String.ofList (encode querySet q))
    | [] => none)

/-- The parts after `//`. -/
def withAuthority (scheme : String) (style : Style) (s : List Char) : Except Fault Url := do
  let (hasUser, rest) ← skipUser style s
  let n := hostLength style false rest
  let name := rest.take n
  let rest := rest.drop n
  let host ← if style = .special then
      if name.isEmpty then .error .emptyHost else domain name
    else opaqueHost name
  if host.isEmpty && (hasUser || rest.head? == some ':') then .error .emptyHost
  else
    let (port, rest) ← portOf scheme rest
    let (path, query) := tail style rest
    pure ⟨scheme, host, port, path, query⟩

/-- A letter and a colon or bar, which is a drive and no host. -/
def isDrive : List Char → Bool
  | [c, d] => c.isAlpha && (d == ':' || d == '|')
  | _ => false

/-- The parts of a file address behind its scheme. -/
def ofFile (s : List Char) : Except Fault Url := do
  let isSlash (c : Char) := c == '/' || c == '\\'
  match s with
  | a :: b :: rest =>
    if isSlash a && isSlash b then
      let name := rest.takeWhile fun c => !endsAuthority .file c
      if name.isEmpty || isDrive name then
        let (path, query) := tail .file rest
        pure ⟨"file", "", none, path, query⟩
      else
        let host ← domain name
        let (path, query) := tail .file (rest.drop name.length)
        pure ⟨"file", if host = "localhost" then "" else host, none, path, query⟩
    else
      let (path, query) := tail .file s
      pure ⟨"file", "", none, path, query⟩
  | _ =>
    let (path, query) := tail .file s
    pure ⟨"file", "", none, path, query⟩

/-- Reads an address. -/
def parse (text : String) : Except Fault Url :=
  match scheme? (clean text.toList) with
  | none => .error .noScheme
  | some (scheme, rest) =>
    match styleOf scheme with
    | .file => ofFile rest
    | .special => withAuthority scheme .special (rest.dropWhile fun c => c == '/' || c == '\\')
    | .plain =>
      match rest with
      | '/' :: '/' :: rest => withAuthority scheme .plain rest
      | _ =>
        let (path, query) := tail .plain rest
        .ok ⟨scheme, "", none, path, query⟩

/-- The text under which a web server is asked. -/
def requestText (u : Url) : String :=
  u.scheme ++ "://" ++ u.host ++
    (match u.port with
      | some n => ":" ++ toString n
      | none => "") ++
    u.path ++
    (match u.query with
      | some q => "?" ++ q
      | none => "")

end Url

end Depot
