import OffsetLogic.CheckedInt
import OffsetLogic.Hex

/-!
# Numbers and moments of TOML

The lexical forms of integers, floats, dates and times. Each reader takes the text from where the
value begins and answers what it read together with the rest of the text; `none` means that no such
value begins there or that it is malformed.

Underscores may stand between two digits. Integers have 64 bits. A positive float beyond the largest
double is refused; a negative one stands for negative infinity.

**Floats are recognized and not computed.** No setting has a float for its value, so what matters of
a float is where it ends and whether the text is refused. For the second question `isInfinite`
compares the digits with the point half way between the largest double and what would follow it, in
whole numbers, after it has set aside the exponents that decide by themselves.

A date or a time is told from a number by the dash or the colon that follows its first digits,
before any of it is read. Days are checked against the month and the year. The value of a moment is
not needed either, so these readers answer the rest of the text only.
-/

namespace OffsetLogic.Toml.Number

/-! ### Runs of digits -/

/-- The further digits of a run and the rest; an underscore has to be followed by a digit. -/
def moreDigits (isDigit : Char → Bool) : List Char → Option (List Char × List Char)
  | '_' :: c :: cs =>
    if isDigit c then (moreDigits isDigit cs).map fun (ds, r) ↦ (c :: ds, r) else none
  | ['_'] => none
  | c :: cs =>
    if isDigit c then (moreDigits isDigit cs).map fun (ds, r) ↦ (c :: ds, r) else some ([], c :: cs)
  | [] => some ([], [])

/-- A run of digits, at least one, and the rest. -/
def digits (isDigit : Char → Bool) : List Char → Option (List Char × List Char)
  | c :: cs =>
    if isDigit c then (moreDigits isDigit cs).map fun (ds, r) ↦ (c :: ds, r) else none
  | [] => none

/-- A decimal run without superfluous zeros, and the rest. -/
def wholeDigits : List Char → Option (List Char × List Char)
  | '0' :: cs => some (['0'], cs)
  | cs => digits Char.isDigit cs

def isBinaryDigit (c : Char) : Bool := c == '0' || c == '1'

def isOctalDigit (c : Char) : Bool := '0' ≤ c && c ≤ '7'

/-- The number that decimal digits write. -/
def ofDigits (ds : List Char) : Nat := Nat.ofDigitChars 10 ds 0

/-! ### Floats -/

/-- The exponent part of a float, with its value, and the rest. -/
def exponent : List Char → Option (Int × List Char)
  | '+' :: cs => (digits Char.isDigit cs).map fun (ds, r) ↦ ((ofDigits ds : Int), r)
  | '-' :: cs => (digits Char.isDigit cs).map fun (ds, r) ↦ (-(ofDigits ds : Int), r)
  | cs => (digits Char.isDigit cs).map fun (ds, r) ↦ ((ofDigits ds : Int), r)

/-- Whether `m * 10 ^ e` rounds to a value beyond the largest double. -/
def isInfinite (m : Nat) (e : Int) : Bool :=
  let bound := Nat.pow 2 1024 - Nat.pow 2 970
  let width : Int := (Nat.toDigits 10 m).length + e
  if m = 0 ∨ width < 0 then false
  else if 400 < width then true
  else if 0 ≤ e then bound ≤ m * Nat.pow 10 e.toNat
  else bound * Nat.pow 10 (-e).toNat ≤ m

/-- What follows the whole digits of a float: a fraction, an exponent or both. Answers the digits
of the fraction, the exponent and the rest. -/
def fractional : List Char → Option (List Char × Int × List Char)
  | '.' :: cs => do
    let (fraction, rest) ← digits Char.isDigit cs
    match rest with
    | c :: more =>
      if c = 'e' ∨ c = 'E' then
        let (e, rest) ← exponent more
        return (fraction, e, rest)
      else return (fraction, 0, rest)
    | [] => return (fraction, 0, [])
  | c :: cs => if c = 'e' ∨ c = 'E' then (exponent cs).map fun (e, r) ↦ ([], e, r) else none
  | [] => none

/-! ### Numbers -/

/-- A number: a 64-bit integer, or a float, which has no integer value. -/
abbrev Numeral : Type := Option Int64

/-- The words for values that are not finite, and the rest. -/
def nonFinite : List Char → Option (List Char)
  | 'i' :: 'n' :: 'f' :: cs => some cs
  | 'n' :: 'a' :: 'n' :: cs => some cs
  | _ => none

/-- A 64-bit integer of given value. -/
def integer (n : Int) (rest : List Char) : Option (Numeral × List Char) :=
  (Int64.ofInt? n).map fun k ↦ (some k, rest)

/-- A decimal number after its sign. -/
def decimal (negative : Bool) (cs : List Char) : Option (Numeral × List Char) :=
  match nonFinite cs with
  | some rest => some (none, rest)
  | none => do
    let (whole, rest) ← wholeDigits cs
    let isFloat := match rest with
      | c :: _ => c == '.' || c == 'e' || c == 'E'
      | [] => false
    if isFloat then
      let (fraction, e, rest) ← fractional rest
      if !negative && isInfinite (ofDigits (whole ++ fraction)) (e - fraction.length) then none
      else return (none, rest)
    else
      let n : Int := ofDigits whole
      integer (if negative then -n else n) rest

/-- A number and the rest. -/
def number : List Char → Option (Numeral × List Char)
  | '+' :: cs => decimal false cs
  | '-' :: cs => decimal true cs
  | '0' :: 'x' :: cs => do
    let (ds, rest) ← digits Hex.isDigit cs
    integer (← Hex.number? ds) rest
  | '0' :: 'o' :: cs => do
    let (ds, rest) ← digits isOctalDigit cs
    integer (Nat.ofDigitChars 8 ds 0) rest
  | '0' :: 'b' :: cs => do
    let (ds, rest) ← digits isBinaryDigit cs
    integer (Nat.ofDigitChars 2 ds 0) rest
  | cs => decimal false cs

/-! ### Dates and times -/

/-- Two digits whose value is at most `limit`, and the rest. -/
def twoDigits (limit : Nat) : List Char → Option (Nat × List Char)
  | a :: b :: cs =>
    let n := ofDigits [a, b]
    if a.isDigit && b.isDigit && n ≤ limit then some (n, cs) else none
  | _ => none

/-- A given character, and the rest. -/
def mark (c : Char) : List Char → Option (List Char)
  | d :: cs => if d = c then some cs else none
  | [] => none

/-- The fraction of a second, if there is one; the rest. -/
def secondFraction : List Char → List Char
  | '.' :: cs =>
    if (cs.takeWhile Char.isDigit).isEmpty then '.' :: cs else cs.dropWhile Char.isDigit
  | cs => cs

/-- A time of day; the rest. -/
def time (cs : List Char) : Option (List Char) := do
  let (_, cs) ← twoDigits 23 cs
  let (_, cs) ← twoDigits 59 (← mark ':' cs)
  let (_, cs) ← twoDigits 60 (← mark ':' cs)
  return secondFraction cs

/-- The offset of a time from universal time, if there is one; the rest. -/
def zone : List Char → Option (List Char)
  | c :: cs =>
    if c = 'Z' ∨ c = 'z' then some cs
    else if c = '+' ∨ c = '-' then do
      let (_, cs) ← twoDigits 23 cs
      let (_, cs) ← twoDigits 59 (← mark ':' cs)
      return cs
    else some (c :: cs)
  | [] => some []

/-- The number of days of a month. -/
def daysIn (year month : Nat) : Nat :=
  if month = 2 then
    if year % 4 = 0 ∧ (year % 100 ≠ 0 ∨ year % 400 = 0) then 29 else 28
  else if month = 4 ∨ month = 6 ∨ month = 9 ∨ month = 11 then 30
  else 31

/-- Month and day after the year and its dash; the rest. -/
def monthDay (year : Nat) (cs : List Char) : Option (List Char) := do
  let (month, cs) ← twoDigits 12 cs
  if month = 0 then none
  let (day, cs) ← twoDigits (daysIn year month) (← mark '-' cs)
  if day = 0 then none
  return cs

/-- Whether a time of day begins here, told by its first colon. -/
def beginsTime : List Char → Bool
  | a :: b :: ':' :: _ => a.isDigit && b.isDigit
  | _ => false

/-- The time after a date and its separator, if there is one; the rest. -/
def timeAfterDate : List Char → Option (List Char)
  | c :: cs =>
    if (c = 'T' ∨ c = 't' ∨ c = ' ') ∧ beginsTime cs then do zone (← time cs) else some (c :: cs)
  | [] => some []

/-- Whether a date begins here, told by the dash after the year. -/
def beginsDate : List Char → Bool
  | a :: b :: c :: d :: '-' :: _ => a.isDigit && b.isDigit && c.isDigit && d.isDigit
  | _ => false

/-- A date, a time, or both; the rest. -/
def moment (cs : List Char) : Option (List Char) :=
  if beginsDate cs then do timeAfterDate (← monthDay (ofDigits (cs.take 4)) (cs.drop 5))
  else time cs

end OffsetLogic.Toml.Number
