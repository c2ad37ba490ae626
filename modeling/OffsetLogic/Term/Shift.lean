import OffsetLogic.CheckedInt
import OffsetLogic.Term.Order

/-!
# Shifting a term by an offset

A variable absorbs an offset and an integer constant moves by it, both checked. Symbols and
applications have no successor: they can be shifted by zero only. Where a substitution needs a shift
that does not exist, it fails with a `ShiftError`, which records the occurrence that asked for the
shift and the term that could not move.

`shifted` says which term the shift gives, and `shiftFor` is the same with the error in the place of
`none`. They are kept apart because unification also shifts what a variable is bound to, and there a
shift that does not exist is no error: it means that there is no unifier.

A shift by zero is the term itself, for every kind of term. That case comes first in the definition,
so a symbol or an application can be put in the place of a plain variable.
-/

namespace OffsetLogic

/-- A variable occurrence with an offset that the term put in its place cannot absorb. -/
structure ShiftError where
  /-- The variable that was being replaced. -/
  name : String
  /-- The offset of its occurrence. -/
  offset : Int64
  /-- The term that has no such shift. -/
  term : Term
deriving DecidableEq, Inhabited

namespace Term

/-- The term moved by `k`, if there is such a term. -/
def shifted (t : Term) (k : Int64) : Option Term :=
  if k = 0 then some t
  else match t with
    | .var x j => (j.add? k).map (.var x)
    | .const (.int n) => (n.add? k).map fun m ↦ .const (.int m)
    | .const (.symbol _) => none
    | .app .. => none

/-- Every term can be shifted by zero. -/
@[simp] theorem shifted_zero (t : Term) : t.shifted 0 = some t := if_pos rfl

@[simp] theorem shifted_var (x : String) (j k : Int64) :
    (var x j).shifted k = (j.add? k).map (var x) := by
  by_cases hk : k = 0
  · simp [hk]
  · simp [shifted, hk]

@[simp] theorem shifted_int (n k : Int64) :
    (const (.int n)).shifted k = (n.add? k).map fun m ↦ const (.int m) := by
  by_cases hk : k = 0
  · simp [hk]
  · simp [shifted, hk]

/-- A shift moves offsets and integers and leaves the names where they are. -/
theorem occurrences_shifted {t u : Term} {k : Int64} (h : t.shifted k = some u) :
    u.occurrences = t.occurrences := by
  unfold shifted at h
  split at h
  · rw [Option.some.inj h]
  · split at h
    · obtain ⟨l, -, rfl⟩ := Option.map_eq_some_iff.1 h
      rfl
    · obtain ⟨l, -, rfl⟩ := Option.map_eq_some_iff.1 h
      rfl
    · cases h
    · cases h

/-- The term to put in the place of the occurrence `x + k` when `x` stands for `t`. -/
def shiftFor (x : String) (k : Int64) (t : Term) : Except ShiftError Term :=
  match t.shifted k with
  | some u => .ok u
  | none => .error ⟨x, k, t⟩

/-- The term with every occurrence `x + k` of the variable `x` replaced by `r + k`; the leftmost
occurrence for which `r` has no such shift is reported. -/
def replace (t : Term) (x : String) (r : Term) : Except ShiftError Term :=
  t.bindM fun y k ↦ if y = x then shiftFor y k r else .ok (.var y k)

end Term

end OffsetLogic
