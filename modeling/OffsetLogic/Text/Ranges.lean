/-!
# Classes of characters

A class of characters is given by the closed ranges of its code points. The tables of such ranges
are data of a standard, so each is checked for its order and for the number of its characters.

The two checks catch what goes wrong in a table that is written down: ranges that are out of order,
overlap or touch, and a range that is missing or has a wrong end. Membership does not need them,
since `contains` looks at every range; `size` counts right only for ranges that are apart.
-/

namespace OffsetLogic.Text

/-- Closed ranges of code points. -/
abbrev Ranges : Type := List (Nat × Nat)

namespace Ranges

/-- Whether a character is in one of the ranges. -/
def contains (rs : Ranges) (c : Char) : Bool := rs.any fun r ↦ r.1 ≤ c.toNat && c.toNat ≤ r.2

/-- Whether the ranges are nonempty, ascending and apart. -/
def areAscending : Ranges → Bool
  | [] => true
  | [r] => r.1 ≤ r.2
  | r :: s :: rs => r.1 ≤ r.2 && r.2 + 1 < s.1 && areAscending (s :: rs)

/-- The number of code points in ranges that are apart. -/
def size (rs : Ranges) : Nat := rs.foldl (fun n r ↦ n + (r.2 + 1 - r.1)) 0

/-- A character is in the class when its code point is in one of the ranges. -/
theorem contains_iff {rs : Ranges} {c : Char} :
    rs.contains c = true ↔ ∃ r ∈ rs, r.1 ≤ c.toNat ∧ c.toNat ≤ r.2 := by
  simp [contains]

end Ranges

end OffsetLogic.Text
