import OffsetLogic.Substitution.Apply

/-!
# Clauses

A clause is a disjunction of literals, kept as the set of its positive atoms and the set of its
negated ones. Being sets, they forget order and repetition: clauses with the same literals are equal
(`Clause.ofLists_eq_ofLists_iff`). Every operation that touches the atoms rebuilds the sets, so
literals that become equal merge.

**Merging is silent.** A substitution that makes two literals of one sign equal gives a clause with
fewer literals, and nothing records that there were two. That is what factoring relies on: it looks
for a unifier and applies it, and the size of the result says whether the literals became one.
Literals of different signs never merge, since they are in different sets, and an atom may well be
in both.

The order of the atoms matters where they are enumerated: a substitution that fails at several
literals reports the first of them, positive ones first, and pairs of literals are tried for
factoring in ascending order. Everything else is stated through membership.

The clause without literals is `∅`, the contradiction that a search looks for.
-/

open Std

namespace OffsetLogic

/-- The disjunction of the atoms of `pos` and the negations of the atoms of `neg`. -/
structure Clause where
  /-- The atoms that occur positively. -/
  pos : SortedSet Term
  /-- The atoms that occur negated. -/
  neg : SortedSet Term
deriving DecidableEq, Inhabited

namespace Clause

/-- Clauses are ordered by their positive atoms, then by their negated ones. -/
instance : Ord Clause := ⟨fun c d ↦ (compare c.pos d.pos).then (compare c.neg d.neg)⟩

/-- The clause of given positive and negated atoms. -/
def ofLists (pos neg : List Term) : Clause := ⟨.ofList pos, .ofList neg⟩

/-- The clause without literals, a contradiction. -/
instance : EmptyCollection Clause := ⟨⟨∅, ∅⟩⟩

def isEmpty (c : Clause) : Bool := c.pos.isEmpty && c.neg.isEmpty

/-- The number of literals. -/
def size (c : Clause) : Nat := c.pos.size + c.neg.size

/-- Whether the clause has exactly one literal. -/
def isUnit (c : Clause) : Bool := c.size == 1

/-- Whether the clause has at most one positive literal. -/
def isHorn (c : Clause) : Bool := c.pos.size ≤ 1

/-- The atoms, positive ones first, each sign in ascending order. -/
def atoms (c : Clause) : List Term := c.pos.toList ++ c.neg.toList

/-- Whether no literal contains a variable. -/
def isGround (c : Clause) : Bool := c.atoms.all Term.isGround

/-- The set of variable names of the clause. -/
def variableNames (c : Clause) : SortedSet String := .ofList (c.atoms.flatMap Term.occurrences)

/-- The clause with the signs of all literals changed. For a unit clause this is its negation; a
disjunction becomes the negation of the conjunction of its literals. -/
def negate (c : Clause) : Clause := ⟨c.neg, c.pos⟩

/-- The clause with `f` applied to every variable name. -/
def rename (f : String → String) (c : Clause) : Clause :=
  ⟨c.pos.map (Term.rename f), c.neg.map (Term.rename f)⟩

/-- The clause with every variable marked with a suffix. -/
def renameSuffix (suffix : String) (c : Clause) : Clause := c.rename (Term.suffixed suffix)

/-- The clause with a substitution applied to every literal, positive ones first. -/
def apply (s : Substitution) (c : Clause) : Except ShiftError Clause := do
  let pos ← c.pos.toList.mapM s.apply
  let neg ← c.neg.toList.mapM s.apply
  return ofLists pos neg

/-! ### Clauses are determined by their literals -/

/-- Clauses made from lists are equal when the lists have the same members, sign by sign. -/
theorem ofLists_eq_ofLists_iff {p p' n n' : List Term} :
    ofLists p n = ofLists p' n' ↔ (∀ t, t ∈ p ↔ t ∈ p') ∧ ∀ t, t ∈ n ↔ t ∈ n' := by
  simp only [ofLists, mk.injEq, SortedSet.ofList_eq_ofList_iff]

/-- The empty clause is the only one without literals. -/
theorem isEmpty_iff {c : Clause} : c.isEmpty = true ↔ c = ∅ := by
  rw [isEmpty, Bool.and_eq_true, SortedSet.isEmpty_iff, SortedSet.isEmpty_iff]
  cases c
  exact ⟨fun ⟨hp, hn⟩ ↦ by subst hp hn; rfl, fun h ↦ by cases h; exact ⟨rfl, rfl⟩⟩

@[simp] theorem mem_variableNames {c : Clause} {x : String} :
    x ∈ c.variableNames ↔ ∃ t, t ∈ c.atoms ∧ x ∈ t.occurrences := by
  simp [variableNames]

@[simp] theorem negate_negate (c : Clause) : c.negate.negate = c := rfl

end Clause

end OffsetLogic
