import OffsetLogic.Clause.Basic

/-!
# Canonical variable names

Clauses that differ only in the names of their variables say the same, and the search should meet
them once. `canonicalize` names the variables `_0`, `_1`, … in the order of their first occurrence,
where the literals are taken by sign and then by **shape**, which is the literal with all variable
names blanked out. Literals of one sign and shape keep the order of the clause, so clauses that have
such literals may keep more than one canonical form.

**Arranging by shape is what makes the names canonical.** The literals of a clause stand in the
order of terms, in which the names of the variables take part; read in that order, a renaming would
change which variable occurs first. A shape has no names, so variants have their literals arranged
alike wherever the shapes tell the literals apart. The sort is stable, and where two literals have
one shape it falls back on the order of the clause, and with it on the names.

Resolvents are factored before they are named, and in a factored clause the shapes do tell the
literals of one sign apart. That is why the gap does not show among the clauses that a search
derives (`OffsetLogic.Proofs.Renaming.Canonical`), although it does in clauses that are given.

The canonical names are taken for the variables of the clause alone, so the names of two clauses
overlap, and resolving them renames them apart again.
-/

namespace OffsetLogic

namespace Term

/-- The term with all variable names blanked out. -/
def shape (t : Term) : Term := t.rename fun _ ↦ ""

end Term

/-- Atoms arranged by shape; atoms of one shape keep their order. -/
def arrangeByShape (atoms : List Term) : List Term :=
  atoms.mergeSort fun t u ↦ (compare t.shape u.shape).isLE

/-- The `i`-th canonical variable name. -/
def canonicalName (i : Nat) : String := "_" ++ toString i

namespace Clause

/-- The variable names of a clause in the order of their first occurrence, its literals arranged by
sign and shape. -/
def namesByOccurrence (c : Clause) : List String :=
  ((arrangeByShape c.pos.toList ++ arrangeByShape c.neg.toList).flatMap Term.occurrences).eraseDups

/-- The clause with its variables named `_0`, `_1`, … in the order of their first occurrence. -/
def canonicalize (c : Clause) : Clause :=
  c.rename fun x ↦ canonicalName (c.namesByOccurrence.idxOf x)

end Clause

end OffsetLogic
