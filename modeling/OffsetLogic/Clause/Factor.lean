import OffsetLogic.Clause.Basic
import OffsetLogic.Unification

/-!
# Factoring and tautologies

Two literals of one sign that unify can be **merged**: the unifier is applied to the whole clause,
in which they become one literal. `factor` merges as long as there is a pair whose merging makes the
clause smaller, taking the first such pair each time. Not every unifier shrinks the clause, because
without an occurs check the two literals may stay apart, so the size is tested.

**The test is carried by the type.** `merge?` answers a clause together with the fact that it is
smaller than the one it was made from, so the recursion of `factor` is justified by what it was
handed, and no proof about unification is needed to define it. That it is needed to know when a
merge succeeds is another matter, and is left to the modules on factoring.

Factoring is done **in place**: the factored clause takes the place of the one it was made from,
which is not kept. A merge is an instance and may say less, so what a search derives depends on it.
The order of the pairs matters for the same reason. Positive literals come first, and each literal
is tried with those after it, from the smallest on.

A clause is called **tautological** when some positive literal unifies with some negated one. The
literals need not be equal, so such a clause is not valid in general; the name says what the search
does with it.
-/

namespace OffsetLogic

/-- The pairs of a list, each member with every later one. -/
def orderedPairs {α : Type} : List α → List (α × α)
  | [] => []
  | a :: l => l.map (a, ·) ++ orderedPairs l

namespace Clause

/-- The clause with the literals `e.1` and `e.2` merged, if they unify and that makes it smaller. -/
def merge? (n : Nat) (c : Clause) (e : Term × Term) :
    ExceptT ShiftError Budgeted (Option { d : Clause // d.size < c.size }) := do
  match ← mgu? n e.1 e.2 with
  | none => return none
  | some s =>
    let d ← c.apply s
    return if h : d.size < c.size then some ⟨d, h⟩ else none

/-- The clause with the first pair of literals merged whose merging makes it smaller; pairs of
positive literals come first. -/
def mergeFirst? (n : Nat) (c : Clause) :
    ExceptT ShiftError Budgeted (Option { d : Clause // d.size < c.size }) :=
  (orderedPairs c.pos.toList ++ orderedPairs c.neg.toList).findSomeM? (c.merge? n)

/-- The clause with literals of one sign merged until no merging makes it smaller. -/
def factor (n : Nat) (c : Clause) : ExceptT ShiftError Budgeted Clause := do
  match ← c.mergeFirst? n with
  | none => return c
  | some ⟨d, _⟩ => d.factor n
termination_by c.size

/-- Whether some positive literal unifies with some negated one. -/
def isTautological (n : Nat) (c : Clause) : Budgeted Bool :=
  c.pos.toList.anyM fun p ↦ c.neg.toList.anyM fun q ↦ unifiable n p q

end Clause

end OffsetLogic
