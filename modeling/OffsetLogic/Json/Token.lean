import OffsetLogic.Json.Quoted

/-!
# JSON tokens

A JSON text is a sequence of tokens: six punctuation marks, strings, and **words**, which are the
maximal runs of other characters that are not blank. A word is a number or one of the three names.
Numbers are told apart by what a reader can do with them: an `integer` has its value, and every
other number (with a fraction or an exponent, and negative zero) is kept as its text, as a `real`.

**Words are read first and judged afterwards.** The reader of a text goes from character to
character with a `Position` that says in which token it stands, and a word ends where something else
begins. Only then is it asked which token it is. So the state between two characters is small, and
nothing is read twice; on the other hand a word such as `01` or `nul` is refused as a whole, and not
split.

Strings end at the first quote that is not escaped, and are decoded when they end. What stands
between the quotes may be malformed without the end being in doubt, which is why `lexFrom` needs one
position for a backslash and leaves escapes to `Quoted.decode`.
-/

namespace OffsetLogic.Json

/-- A token of a JSON text. -/
inductive Token where
  | openArray | closeArray | openObject | closeObject | comma | colon
  | null | true | false
  /-- A whole number without fraction and exponent. -/
  | integer (n : Int)
  /-- Any other number, as its text. -/
  | real (text : String)
  /-- A string. -/
  | string (text : Text)
deriving DecidableEq, Inhabited

namespace Token

/-! ### Writing -/

/-- The token as it is written. -/
def text : Token → List Char
  | openArray => ['[']
  | closeArray => [']']
  | openObject => ['\x7b']
  | closeObject => ['\x7d']
  | comma => [',']
  | colon => [':']
  | null => "null".toList
  | true => "true".toList
  | false => "false".toList
  | integer n => (toString n).toList
  | real s => s.toList
  | string s => '"' :: Quoted.escape (s.getD "").toList ++ ['"']

/-! ### Words -/

/-- Whether a text is a nonempty run of digits. -/
def isDigits (cs : List Char) : Bool := !cs.isEmpty && cs.all Char.isDigit

/-- Whether a text is an exponent: `e` or `E`, a sign if any, and digits. -/
def isExponent : List Char → Bool
  | e :: '+' :: cs => (e == 'e' || e == 'E') && isDigits cs
  | e :: '-' :: cs => (e == 'e' || e == 'E') && isDigits cs
  | e :: cs => (e == 'e' || e == 'E') && isDigits cs
  | [] => .false

/-- Whether a text is a fraction, an exponent, or both. -/
def isFraction : List Char → Bool
  | '.' :: cs =>
    let rest := cs.dropWhile Char.isDigit
    isDigits (cs.takeWhile Char.isDigit) && (rest.isEmpty || isExponent rest)
  | cs => isExponent cs

/-- Whether digits write a number as the format wants it, without superfluous zeros. -/
def isCanonical : List Char → Bool
  | [] => .false
  | ['0'] => .true
  | c :: _ => c != '0'

/-- The number that a word writes. -/
def ofNumber? (word : List Char) : Option Token :=
  let (negative, magnitude) := match word with
    | '-' :: cs => (Bool.true, cs)
    | cs => (Bool.false, cs)
  let digits := magnitude.takeWhile Char.isDigit
  let rest := magnitude.dropWhile Char.isDigit
  if !isCanonical digits then none
  else if rest.isEmpty then
    if !negative then some (integer (Nat.ofDigitChars 10 digits 0))
    else if digits = ['0'] then some (real (String.ofList word))
    else some (integer (-(Nat.ofDigitChars 10 digits 0)))
  else if isFraction rest then some (real (String.ofList word))
  else none

/-- The token that a word writes. -/
def ofWord? (word : List Char) : Option Token :=
  if word = "null".toList then some null
  else if word = "true".toList then some true
  else if word = "false".toList then some false
  else ofNumber? word

/-! ### Reading -/

/-- The punctuation mark that a character is. -/
def ofPunctuation? : Char → Option Token
  | '[' => some openArray
  | ']' => some closeArray
  | '\x7b' => some openObject
  | '\x7d' => some closeObject
  | ',' => some comma
  | ':' => some colon
  | _ => none

/-- The characters that may stand between tokens. -/
def isBlank (c : Char) : Bool := c == ' ' || c == '\t' || c == '\n' || c == '\r'

/-- Where the reader of a text stands. What it has read of an unfinished token is kept reversed. -/
inductive Position where
  /-- Between tokens. -/
  | between
  /-- Within a word. -/
  | word (read : List Char)
  /-- Within a string. -/
  | quoted (read : List Char)
  /-- Within a string, after a backslash. -/
  | escaped (read : List Char)

/-- The tokens of a text that is read from a position on. -/
def lexFrom : Position → List Char → Option (List Token)
  | .between, [] => some []
  | .word w, [] => return [← ofWord? w.reverse]
  | .quoted _, [] => none
  | .escaped _, [] => none
  | .between, c :: cs =>
    if isBlank c then lexFrom .between cs
    else if c = '"' then lexFrom (.quoted []) cs
    else match ofPunctuation? c with
      | some t => return t :: (← lexFrom .between cs)
      | none => lexFrom (.word [c]) cs
  | .word w, c :: cs =>
    if isBlank c then return (← ofWord? w.reverse) :: (← lexFrom .between cs)
    else if c = '"' then return (← ofWord? w.reverse) :: (← lexFrom (.quoted []) cs)
    else match ofPunctuation? c with
      | some t => return (← ofWord? w.reverse) :: t :: (← lexFrom .between cs)
      | none => lexFrom (.word (c :: w)) cs
  | .quoted w, c :: cs =>
    if c = '"' then return string (← Quoted.decode w.reverse) :: (← lexFrom .between cs)
    else if c = '\\' then lexFrom (.escaped (c :: w)) cs
    else lexFrom (.quoted (c :: w)) cs
  | .escaped w, c :: cs => lexFrom (.quoted (c :: w)) cs

/-- The tokens of a text. -/
def lex (cs : List Char) : Option (List Token) := lexFrom .between cs

end Token

end OffsetLogic.Json
