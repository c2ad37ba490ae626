/-!
# Hexadecimal numbers

Sixteen digits, letters of either case. Decimal numbers are read by `Nat.ofDigitChars`. Two formats
escape characters as hexadecimal numbers in a field of fixed width; how wide it is, and which
numbers are characters, is their own affair.

A list of characters writes a number exactly when all of them are digits (`isSome_number?_iff`); the
empty list writes zero, and no reader asks for it.
-/

namespace OffsetLogic.Hex

/-- The value of a hexadecimal digit. -/
def digit? (c : Char) : Option Nat :=
  if '0' ≤ c ∧ c ≤ '9' then some (c.toNat - '0'.toNat)
  else if 'a' ≤ c ∧ c ≤ 'f' then some (c.toNat - 'a'.toNat + 10)
  else if 'A' ≤ c ∧ c ≤ 'F' then some (c.toNat - 'A'.toNat + 10)
  else none

/-- Whether a character is a hexadecimal digit. -/
def isDigit (c : Char) : Bool := (digit? c).isSome

/-- The number that hexadecimal digits write; `none` if there is another character among them. -/
def number? (cs : List Char) : Option Nat :=
  cs.foldlM (fun n c ↦ (digit? c).map (16 * n + ·)) 0

/-- The lists that write a number are those of hexadecimal digits alone. -/
theorem isSome_number?_iff {cs : List Char} :
    (number? cs).isSome = true ↔ ∀ c ∈ cs, isDigit c = true := by
  suffices h : ∀ n, (cs.foldlM (fun n c ↦ (digit? c).map (16 * n + ·)) n).isSome = true
      ↔ ∀ c ∈ cs, isDigit c = true from h 0
  induction cs with
  | nil => simp
  | cons c cs ih =>
    intro n
    simp only [List.foldlM_cons, List.forall_mem_cons, isDigit]
    cases digit? c with
    | none => simp
    | some d => simpa [isDigit] using ih (16 * n + d)

end OffsetLogic.Hex
