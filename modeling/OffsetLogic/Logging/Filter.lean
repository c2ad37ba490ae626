import OffsetLogic.Event
import OffsetLogic.Text.Alphanumeric
import OffsetLogic.Text.Blank

/-!
# Filters of events

A filter is a comma-separated list of directives. A directive gives a threshold to the targets that
begin with its own target, or, without a target, to all. **The longest target decides** for an
event, and of directives with one target the last; an event that no directive covers is off.

A directive is `level`, `target`, or `target=level`. Levels are `off`, the names of `Level`, or the
numbers from 0 for `off` to 5 for `trace`; a target alone lets everything through. Blanks are not
passed over: they belong to the target or the level that they stand in, and before a directive they
make it a target without a level. A filter without directives is well-formed and lets nothing
through.

A threshold is `Option Level`, where `none` is off, so a directive that turns a target off is as
good a match as any and hides the less specific ones. Targets are compared as beginnings of texts
and not part by part: a directive for `deduce` covers `deduce_kb` too. How specific a directive is
counts bytes, with one more for having a target at all, so an empty target still prevails over none.
-/

namespace OffsetLogic.Logging

/-- The least severe level that passes; `none` is off. -/
abbrev Threshold : Type := Option Level

/-- The threshold of a number. -/
def Threshold.ofNumber? : Nat → Option Threshold
  | 0 => some none
  | 1 => some (some .error)
  | 2 => some (some .warn)
  | 3 => some (some .info)
  | 4 => some (some .debug)
  | 5 => some (some .trace)
  | _ => none

/-- The threshold of a name; letters of either case. -/
def Threshold.ofName? (name : String) : Option Threshold :=
  match name.toLower with
  | "off" => some none
  | "error" => some (some .error)
  | "warn" => some (some .warn)
  | "info" => some (some .info)
  | "debug" => some (some .debug)
  | "trace" => some (some .trace)
  | _ => none

/-- The threshold of a word: of a decimal number, which a plus sign may precede, or of a name. -/
def Threshold.ofWord? (word : String) : Option Threshold :=
  let digits := match word.toList with
    | '+' :: ds => ds
    | ds => ds
  if !digits.isEmpty && digits.all Char.isDigit then ofNumber? (Nat.ofDigitChars 10 digits 0)
  else ofName? word

/-- Whether an event of a level passes a threshold. -/
def Threshold.passes (threshold : Threshold) (level : Level) : Bool :=
  threshold.any fun least ↦ (compare least level).isLE

/-- A threshold for the targets that begin with `target`. -/
structure Directive where
  /-- What covered targets begin with; all are covered if absent. -/
  target : Option String
  /-- The threshold for them. -/
  threshold : Threshold

namespace Directive

/-- Whether a directive may begin with a character, blanks apart. -/
def mayBegin (c : Char) : Bool := Text.isAlphanumeric c || c == '-' || c == ':' || c == '_'

/-- The directive that a text writes. -/
def parse? (text : String) : Option Directive :=
  let content := text.toList.dropWhile Text.isBlank
  if !content.head?.any mayBegin then none
  else match text.splitOn "=" with
    | [word] =>
      match Threshold.ofWord? word with
      | some threshold => some ⟨none, threshold⟩
      | none => some ⟨some word, some .trace⟩
    | target :: words =>
      if content.length < text.length then none
      else match "=".intercalate words with
        | "" => some ⟨some target, some .trace⟩
        | word => (Threshold.ofWord? word).map (⟨some target, ·⟩)
    | [] => none

/-- Whether a directive covers a target. -/
def covers (d : Directive) (target : String) : Bool :=
  d.target.all fun t ↦ t.toList.isPrefixOf target.toList

/-- How specific a directive is: the length of its target. -/
def specificity (d : Directive) : Nat := d.target.elim 0 fun t ↦ t.utf8ByteSize + 1

end Directive

/-- A list of directives. -/
abbrev Filter : Type := List Directive

namespace Filter

/-- The filter that a text writes; nothing need stand between two commas. -/
def parse? (text : String) : Option Filter :=
  ((text.splitOn ",").filter (· ≠ "")).mapM Directive.parse?

/-- The threshold of a target: that of the most specific directive, and of those the last. -/
def threshold (f : Filter) (target : String) : Threshold :=
  let most := (f.filter (·.covers target)).foldl (fun best d ↦
    match best with
    | some b => if b.specificity ≤ d.specificity then some d else some b
    | none => some d) (none : Option Directive)
  most.bind (·.threshold)

/-- Whether an event passes. -/
def passes (f : Filter) (target : String) (level : Level) : Bool :=
  (f.threshold target).passes level

end Filter

end OffsetLogic.Logging
