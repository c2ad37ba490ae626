import OffsetLogic.Toml.Document
import OffsetLogic.Toml.Number

/-!
# Reading TOML

From text to statements, and from statements to a document. Line ends are made uniform first, so a
carriage return that is left is an illegal character.

Scanners take the text that is left and answer what they read and what is left then. Values nest to
`nestingLimit` containers, which bounds the recursion on values; loops over items and lines are
bounded by the length of the text, since each round reads a character.

**The whole of the format is read**, although a configuration uses little of it: a document with
settings that nobody asks for is a configuration, and one that is malformed anywhere is none, so
every value has to be followed to its end. Strings have four forms, with escapes or without and of
one line or of several; the quotes that close a string of several lines may be preceded by one or
two of the same kind, which belong to it.

Scanners are written in `StateT` over `Option`, and what one of them consumes is read off its
equation: `peek?` consumes nothing, `mark` one given character, `run` the longest run of a class.
The bounds of the loops are lengths of what is left, and are never reached, so a text is not refused
for them.
-/

namespace OffsetLogic.Toml

/-- A reader of a part of a text; `none` if the text is malformed. -/
abbrev Scan : Type → Type := StateT (List Char) Option

/-! ### Characters -/

/-- Whether a character may stand in comments and, delimiters apart, in strings. -/
def isText (c : Char) : Bool := c == '\t' || (' ' ≤ c && c != '\x7f')

def isBlank (c : Char) : Bool := c == ' ' || c == '\t'

/-- Whether a character may stand in a key without quotes. -/
def isBare (c : Char) : Bool :=
  c.isDigit || ('a' ≤ c && c ≤ 'z') || ('A' ≤ c && c ≤ 'Z') || c == '_' || c == '-'

/-- The text with line ends written as line feeds and without a byte order mark. -/
def uniform : List Char → List Char
  | '\ufeff' :: cs => lineFeeds cs
  | cs => lineFeeds cs
where
  /-- The text with line ends written as line feeds. -/
  lineFeeds : List Char → List Char
    | '\r' :: '\n' :: cs => '\n' :: lineFeeds cs
    | c :: cs => c :: lineFeeds cs
    | [] => []

/-! ### Strings -/

/-- The character of a two-character escape. -/
def shortEscape? : Char → Option Char
  | 'b' => some '\x08'
  | 't' => some '\t'
  | 'n' => some '\n'
  | 'f' => some '\x0c'
  | 'r' => some '\r'
  | '"' => some '"'
  | '\\' => some '\\'
  | _ => none

/-- The character with a code point written in hexadecimal. -/
def codePoint? (ds : List Char) : Option Char := do
  let n ← Hex.number? ds
  if n.isValidChar then some (Char.ofNat n) else none

/-- What was read is preceded by `c`. -/
def preceded (c : Char) : List Char × List Char → List Char × List Char
  | (read, rest) => (c :: read, rest)

/-- A string after its opening quote, and the rest after its closing one. -/
def basicString : List Char → Option (List Char × List Char)
  | [] => none
  | '"' :: cs => some ([], cs)
  | '\\' :: 'u' :: a :: b :: c :: d :: cs => do
    let e ← codePoint? [a, b, c, d]
    preceded e <$> basicString cs
  | '\\' :: 'U' :: a :: b :: c :: d :: e :: f :: g :: h :: cs => do
    let e ← codePoint? [a, b, c, d, e, f, g, h]
    preceded e <$> basicString cs
  | '\\' :: c :: cs => do
    let e ← shortEscape? c
    preceded e <$> basicString cs
  | c :: cs => if isText c && c != '\\' then preceded c <$> basicString cs else none

/-- A string without escapes after its opening apostrophe, and the rest after its closing one. -/
def literalString : List Char → Option (List Char × List Char)
  | [] => none
  | '\'' :: cs => some ([], cs)
  | c :: cs => if isText c then preceded c <$> literalString cs else none

/-- What a backslash at the end of a line has done to what follows. -/
inductive Continuation where
  /-- No backslash is pending. -/
  | off
  /-- After the backslash, only blanks were read. -/
  | pending
  /-- After the backslash, the end of the line was read: blanks and line ends are passed over. -/
  | trimming

/-- A string of several lines after its opening quotes, and the rest after its closing ones. One or
two quotes may stand before the closing ones. -/
def multilineString : Continuation → List Char → Option (List Char × List Char)
  | _, [] => none
  | .pending, '\n' :: cs => multilineString .trimming cs
  | .pending, c :: cs => if isBlank c then multilineString .pending cs else none
  | .off, '"' :: '"' :: '"' :: '"' :: '"' :: '"' :: _ => none
  | .off, '"' :: '"' :: '"' :: '"' :: '"' :: cs => some (['"', '"'], cs)
  | .off, '"' :: '"' :: '"' :: '"' :: cs => some (['"'], cs)
  | .off, '"' :: '"' :: '"' :: cs => some ([], cs)
  | .off, '\\' :: 'u' :: a :: b :: c :: d :: cs => do
    let e ← codePoint? [a, b, c, d]
    preceded e <$> multilineString .off cs
  | .off, '\\' :: 'U' :: a :: b :: c :: d :: e :: f :: g :: h :: cs => do
    let e ← codePoint? [a, b, c, d, e, f, g, h]
    preceded e <$> multilineString .off cs
  | .off, '\\' :: c :: cs =>
    if c = '\n' then multilineString .trimming cs
    else if isBlank c then multilineString .pending cs
    else do
      let e ← shortEscape? c
      preceded e <$> multilineString .off cs
  | .off, c :: cs =>
    if (isText c && c != '\\') || c == '\n' then preceded c <$> multilineString .off cs else none
  | .trimming, c :: cs =>
    if isBlank c || c == '\n' then multilineString .trimming cs
    else multilineString .off (c :: cs)
termination_by k cs => (cs.length, match k with | .trimming => 1 | _ => 0)

/-- A string of several lines without escapes after its opening apostrophes, and the rest after its
closing ones. One or two apostrophes may stand before the closing ones. -/
def multilineLiteral : List Char → Option (List Char × List Char)
  | [] => none
  | '\'' :: '\'' :: '\'' :: '\'' :: '\'' :: '\'' :: _ => none
  | '\'' :: '\'' :: '\'' :: '\'' :: '\'' :: cs => some (['\'', '\''], cs)
  | '\'' :: '\'' :: '\'' :: '\'' :: cs => some (['\''], cs)
  | '\'' :: '\'' :: '\'' :: cs => some ([], cs)
  | c :: cs => if isText c || c == '\n' then preceded c <$> multilineLiteral cs else none

/-- A text without its first line end, if it begins with one. -/
def afterLineEnd : List Char → List Char
  | '\n' :: cs => cs
  | cs => cs

/-- A string of any form, with its quotes, and the rest. -/
def anyString : List Char → Option (List Char × List Char)
  | '"' :: '"' :: '"' :: cs => multilineString .off (afterLineEnd cs)
  | '"' :: cs => basicString cs
  | '\'' :: '\'' :: '\'' :: cs => multilineLiteral (afterLineEnd cs)
  | '\'' :: cs => literalString cs
  | _ => none

/-! ### Scanners -/

namespace Scan

/-- The next character, which stays. -/
def peek? : Scan (Option Char) := fun cs ↦ some (cs.head?, cs)

/-- The rest of the text. -/
def rest : Scan (List Char) := fun cs ↦ some (cs, cs)

/-- Passes over the given character, which has to come next. -/
def mark (c : Char) : Scan Unit := fun cs ↦ (Number.mark c cs).map ((), ·)

/-- Passes over the given character if it comes next, and says whether it did. -/
def skipMark (c : Char) : Scan Bool := fun
  | [] => some (false, [])
  | d :: cs => if d = c then some (true, cs) else some (false, d :: cs)

/-- The longest run of characters of a class. -/
def run (p : Char → Bool) : Scan (List Char) := fun cs ↦ some (cs.takeWhile p, cs.dropWhile p)

def blanks : Scan Unit := do let _ ← run isBlank

/-- A comment, from its sharp to the end of the line. -/
def comment : Scan Unit := do
  mark '#'
  let _ ← run isText

/-- The end of a line after its content: blanks, a comment if any, a line end or the end of the
text. -/
def lineEnd : Scan Unit := do
  blanks
  if (← peek?) = some '#' then comment
  if (← peek?).isSome then mark '\n'

/-- Blanks, comments and line ends, as between the items of an array. -/
def spacesFrom : Nat → Scan Unit
  | 0 => failure
  | n + 1 => do
    blanks
    match ← peek? with
    | some '#' => do comment; mark '\n'; spacesFrom n
    | some '\n' => do mark '\n'; spacesFrom n
    | _ => return ()

/-- Blanks, comments and line ends. -/
def spaces : Scan Unit := do spacesFrom ((← rest).length + 1)

/-! ### Keys -/

/-- A key without dots. -/
def simpleKey : Scan String := do
  match ← peek? with
  | some '"' => do mark '"'; String.ofList <$> basicString
  | some '\'' => do mark '\''; String.ofList <$> literalString
  | _ =>
    let name ← run isBare
    if name.isEmpty then failure
    return String.ofList name

/-- The parts of a dotted key. -/
def keyFrom : Nat → Scan (List String)
  | 0 => failure
  | n + 1 => do
    blanks
    let name ← simpleKey
    blanks
    if ← skipMark '.' then return name :: (← keyFrom n) else return [name]

/-- The number of parts that a dotted key, and of containers that a value, has to stay below. -/
def nestingLimit : Nat := 80

/-- A dotted key, as the path to a table and the key in it. -/
def key : Scan (List String × String) := do
  let parts ← keyFrom ((← rest).length + 1)
  match parts.getLast? with
  | some last => if parts.length < nestingLimit then return (parts.dropLast, last) else failure
  | none => failure

/-! ### Values -/

/-- The items of an array up to its end; a comma may follow the last. -/
def itemsFrom (item : Scan Node) : Nat → Scan (List Node)
  | 0 => failure
  | n + 1 => do
    spaces
    if ← skipMark ']' then return []
    let first ← item
    spaces
    if ← skipMark ',' then return first :: (← itemsFrom item n)
    mark ']'
    return [first]

/-- A key with its value. -/
def pair (value : Scan Node) : Scan (List String × String × Node) := do
  let (path, name) ← key
  mark '='
  blanks
  return (path, name, ← value)

/-- The pairs of an inline table up to its end; there is one at least. -/
def pairsFrom (value : Scan Node) : Nat → Scan (List (List String × String × Node))
  | 0 => failure
  | n + 1 => do
    let first ← pair value
    blanks
    if ← skipMark ',' then return first :: (← pairsFrom value n)
    mark '\x7d'
    return [first]

/-- The text that a scanner of the rest passes over. -/
def textOf (scan : List Char → Option (List Char)) : Scan String := fun cs ↦ do
  let rest ← scan cs
  return (String.ofList (cs.take (cs.length - rest.length)), rest)

/-- A value without parts. -/
def scalar : Scan Node := do
  match ← rest with
  | 't' :: 'r' :: 'u' :: 'e' :: cs => do set cs; return .boolean true
  | 'f' :: 'a' :: 'l' :: 's' :: 'e' :: cs => do set cs; return .boolean false
  | '"' :: _ => return .string (String.ofList (← anyString))
  | '\'' :: _ => return .string (String.ofList (← anyString))
  | cs =>
    if Number.beginsDate cs || Number.beginsTime cs then .moment <$> textOf Number.moment
    else do
      match ← Number.number with
      | some n => return .integer n
      | none => return .float (String.ofList (cs.take (cs.length - (← rest).length)))

/-- A value with at most so many containers, one within the other. -/
def value : Nat → Scan Node
  | 0 => do
    if (← peek?) = some '[' ∨ (← peek?) = some '\x7b' then failure
    scalar
  | depth + 1 => do
    match ← peek? with
    | some '[' => do
      mark '['
      return .array (← itemsFrom (value depth) ((← rest).length + 1))
    | some '\x7b' => do
      mark '\x7b'
      blanks
      if ← skipMark '\x7d' then return .table .inline []
      let pairs ← pairsFrom (value depth) ((← rest).length + 1)
      return .table .inline (← inlineEntries? pairs)
    | _ => scalar

/-! ### Statements -/

/-- A statement, which does not begin with a blank. -/
def statement : Scan Statement := do
  if ← skipMark '[' then
    if ← skipMark '[' then
      let (path, name) ← key
      mark ']'
      mark ']'
      return .element path name
    else
      let (path, name) ← key
      mark ']'
      return .header path name
  else
    let (path, name, node) ← pair (value (nestingLimit - 1))
    return .pair path name node

/-- The statements of a text, line by line. -/
def statementsFrom : Nat → Scan (List Statement)
  | 0 => failure
  | n + 1 => do
    blanks
    match ← peek? with
    | none => return []
    | some '#' => do lineEnd; statementsFrom n
    | some '\n' => do lineEnd; statementsFrom n
    | some _ => do
      let first ← statement
      lineEnd
      return first :: (← statementsFrom n)

end Scan

/-- The entries of the document that a text writes. -/
def parse? (text : String) : Option Entries := do
  let cs := uniform text.toList
  let (statements, _) ← StateT.run (Scan.statementsFrom (cs.length + 1)) cs
  ofStatements? statements

end OffsetLogic.Toml
