import OffsetLogic.Hex

/-!
# Quoted JSON strings

The text between the quotes of a JSON string. Writing escapes the quote, the backslash and the
control characters, and nothing else (`escape`). Reading undoes every escape of the format
(`unescape`), and has two stages, because an escape `\uXXXX` need not be a character: it may be half
of a surrogate pair. Undoing the escapes gives code units, and `assemble` joins the pairs. A string
with an unpaired surrogate is well-formed JSON that stands for no text.

So there are two kinds of failure, and `Text` keeps them apart: `decode` is `none` for a string that
is malformed, and `some none` for one that is well-formed and stands for no text. The second kind is
an error only where a text is asked for, and a member that is passed over may have such a string in
it.

Characters beyond the basic plane that are not escaped are code units of their own here and are not
split; they are no surrogates, so `assemble` leaves them alone.
-/

namespace OffsetLogic.Json

/-- The text that a string stands for; `none` if it has an unpaired surrogate. -/
abbrev Text : Type := Option String

namespace Quoted

/-! ### Writing -/

/-- A character as it is written between quotes. -/
def escapeChar (c : Char) : List Char :=
  if c = '"' then ['\\', '"']
  else if c = '\\' then ['\\', '\\']
  else if c = '\x08' then ['\\', 'b']
  else if c = '\x0c' then ['\\', 'f']
  else if c = '\n' then ['\\', 'n']
  else if c = '\r' then ['\\', 'r']
  else if c = '\t' then ['\\', 't']
  else if c.toNat < 0x20 then
    ['\\', 'u', '0', '0', Nat.digitChar (c.toNat / 16), Nat.digitChar (c.toNat % 16)]
  else [c]

/-- A text as it is written between quotes. -/
def escape (cs : List Char) : List Char := cs.flatMap escapeChar

/-! ### Reading -/

/-- The character of a two-character escape, given what follows the backslash. -/
def shortEscape? : Char → Option Char
  | '"' => some '"'
  | '\\' => some '\\'
  | '/' => some '/'
  | 'b' => some '\x08'
  | 'f' => some '\x0c'
  | 'n' => some '\n'
  | 'r' => some '\r'
  | 't' => some '\t'
  | _ => none

/-- The code units of the text between quotes; `none` if an escape is malformed or a control
character stands unescaped. -/
def unescape : List Char → Option (List Nat)
  | [] => some []
  | '\\' :: 'u' :: a :: b :: c :: d :: cs =>
    return (← Hex.number? [a, b, c, d]) :: (← unescape cs)
  | '\\' :: e :: cs => return (← shortEscape? e).toNat :: (← unescape cs)
  | c :: cs => if c.toNat < 0x20 ∨ c = '\\' then none else return c.toNat :: (← unescape cs)

/-- Whether a code unit is the first half of a surrogate pair. -/
def isHighSurrogate (n : Nat) : Bool := 0xD800 ≤ n && n ≤ 0xDBFF

/-- Whether a code unit is the second half of a surrogate pair. -/
def isLowSurrogate (n : Nat) : Bool := 0xDC00 ≤ n && n ≤ 0xDFFF

/-- The characters that code units stand for, surrogate pairs joined; `none` if a surrogate is
unpaired. -/
def assemble : List Nat → Option (List Char)
  | [] => some []
  | m :: n :: ns =>
    if isHighSurrogate m && isLowSurrogate n then
      return Char.ofNat (0x10000 + (m - 0xD800) * 0x400 + (n - 0xDC00)) :: (← assemble ns)
    else if isHighSurrogate m || isLowSurrogate m then none
    else return Char.ofNat m :: (← assemble (n :: ns))
  | [m] => if isHighSurrogate m || isLowSurrogate m then none else some [Char.ofNat m]

/-- What the text between quotes stands for; `none` if it is malformed. -/
def decode (cs : List Char) : Option Text :=
  (unescape cs).map fun units ↦ (assemble units).map String.ofList

end Quoted

end OffsetLogic.Json
