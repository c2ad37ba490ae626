import OffsetLogic.Derivation
import OffsetLogic.Verdict

/-!
# Display texts

How values, terms, clauses, substitutions and derivations are written for people. A variable is
marked by `?` and followed by its signed offset unless that is zero; negated literals are marked by
`¬`, and the empty clause is `⊥`.

The texts are made for reading and are not read back. Different terms may have one text, since a
symbol is written as it is and may look like a variable or an application; the form that can be read
back is the one in JSON.

What is written follows the order of the data: literals by sign and then ascending, bindings in the
order in which the names were bound, steps of a derivation numbered from one with the number in
three columns. The messages of errors are here as well, since they quote terms.
-/

namespace OffsetLogic

instance : ToString Value where
  toString
    | .int n => toString n
    | .symbol s => s

namespace Term

/-- The signed offset of a variable; zero is not written. -/
def offsetText (k : Int64) : String :=
  if k = 0 then "" else if 0 < k then s!"+{k}" else toString k

mutual

/-- The text of a term: `?x+1`, `f(a, b)`, `p()`. -/
def text : Term → String
  | .const v => toString v
  | .var x k => "?" ++ x ++ offsetText k
  | .app g ts => g ++ "(" ++ ", ".intercalate (textArgs ts) ++ ")"

/-- The texts of an argument list. -/
def textArgs : List Term → List String
  | [] => []
  | t :: ts => t.text :: textArgs ts

end

instance : ToString Term := ⟨text⟩

end Term

/-- Literals joined by `∨`, positive ones first. -/
instance : ToString Clause where
  toString c :=
    if c.isEmpty then "⊥"
    else " ∨ ".intercalate
      (c.pos.toList.map Term.text ++ c.neg.toList.map fun t ↦ "¬" ++ t.text)

/-- The bindings in order, in braces. -/
instance : ToString Substitution where
  toString s :=
    "\x7b" ++ ", ".intercalate (s.bindings.map fun b ↦ s!"{b.1} ↦ {b.2}") ++ "\x7d"

instance : ToString Step where
  toString s := s!"{s.left}  ,  {s.right}  ⊢  {s.resolvent}"

/-- A number right-aligned in three columns. -/
def alignedNumber (n : Nat) : String :=
  let digits := toString n
  "".pushn ' ' (3 - digits.length) ++ digits

/-- One line for each step, numbered from one. -/
instance : ToString Derivation where
  toString d :=
    "".intercalate (d.steps.zipIdx.map fun (s, i) ↦ s!"{alignedNumber (i + 1)}. {s}\n")

/-- The text of a shift error. -/
def ShiftError.message (e : ShiftError) : String :=
  s!"Cannot offset {e.term} by {e.offset} when substituting variable {e.name}"

/-- The text of an error that ended a search. -/
def SearchError.message : SearchError → String
  | shift e => e.message
  | limit rounds clauses =>
    s!"Saturation stopped after {rounds} rounds with {clauses} clauses: resource limit reached"

end OffsetLogic
