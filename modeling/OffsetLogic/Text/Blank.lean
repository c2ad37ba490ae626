import OffsetLogic.Text.Ranges

/-!
# Blank characters

The characters with the Unicode property `White_Space`. The class extends the one of ASCII
(`isBlank_of_isWhitespace`). The directives of a filter may be preceded by blanks, which are told by
this class and so may be of any script. The formats that are read elsewhere allow a few characters
of ASCII between their tokens, and have definitions of their own.
-/

namespace OffsetLogic.Text

/-- The ranges of blank characters. -/
def blankRanges : Ranges :=
  [(0x9, 0xD), (0x20, 0x20), (0x85, 0x85), (0xA0, 0xA0), (0x1680, 0x1680), (0x2000, 0x200A),
   (0x2028, 0x2029), (0x202F, 0x202F), (0x205F, 0x205F), (0x3000, 0x3000)]

example : blankRanges.areAscending = true := by decide

example : blankRanges.size = 25 := by decide

/-- Whether a character is blank. -/
def isBlank (c : Char) : Bool := blankRanges.contains c

/-- The blanks of ASCII are blank. -/
theorem isBlank_of_isWhitespace {c : Char} (h : c.isWhitespace = true) : isBlank c = true := by
  change (c = ' ' || c = '\t' || c = '\r' || c = '\n') = true at h
  simp only [Bool.or_eq_true, decide_eq_true_eq] at h
  rcases h with ((rfl | rfl) | rfl) | rfl <;> decide

end OffsetLogic.Text
