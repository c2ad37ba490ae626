import OffsetLogic.Clause.Basic

/-!
# Derivations

A search keeps every clause together with how it was obtained, as a **proof tree**: a given clause,
or a resolvent with the trees of its two parents. A **derivation** is the linear form of a tree: the
list of its resolution steps, parents before children and each resolvent once. Given clauses have no
step.

Trees share subtrees without saying so, and written out as a tree a proof can be much longer than
the search that found it. `stepsAfter` therefore takes the steps that are there already, and adds
those of a tree that are missing, left parent first. Whether a step is missing is asked of its
resolvent alone. That is sound because a search knows each clause once: two trees of one search with
the same clause at the root are the same tree.

A search that does not record derivations makes every resolvent a `given` clause, so the derivation
of its refutation is the last step only. It is the same data with less in it, and no other part of a
search looks at the trees below their roots.
-/

namespace OffsetLogic

/-- A single resolution step. -/
structure Step where
  /-- The first parent. -/
  left : Clause
  /-- The second parent. -/
  right : Clause
  /-- The clause resolved from them. -/
  resolvent : Clause
deriving DecidableEq, Inhabited

/-- A sequence of resolution steps, parents before children. -/
structure Derivation where
  /-- The steps in order. -/
  steps : List Step
deriving DecidableEq, Inhabited

namespace Derivation

instance : EmptyCollection Derivation := ⟨⟨[]⟩⟩

def length (d : Derivation) : Nat := d.steps.length

def isEmpty (d : Derivation) : Bool := d.steps.isEmpty

/-- The final step. -/
def last? (d : Derivation) : Option Step := d.steps.getLast?

end Derivation

/-- A clause with how it was obtained. -/
inductive ProofTree where
  /-- A clause without recorded parents. -/
  | given (clause : Clause)
  /-- A clause resolved from two others. -/
  | resolved (left right : ProofTree) (clause : Clause)
deriving Inhabited

namespace ProofTree

/-- The clause at the root. -/
def clause : ProofTree → Clause
  | given c => c
  | resolved _ _ c => c

/-- The steps `done` followed by those of a tree that they lack, a node after its parents. -/
def stepsAfter (done : List Step) : ProofTree → List Step
  | given _ => done
  | resolved l r c =>
    if done.any (·.resolvent = c) then done
    else r.stepsAfter (l.stepsAfter done) ++ [⟨l.clause, r.clause, c⟩]

/-- The derivation of the empty clause that ends by resolving the roots of two trees. -/
def refutation (l r : ProofTree) : Derivation :=
  ⟨r.stepsAfter (l.stepsAfter []) ++ [⟨l.clause, r.clause, ∅⟩]⟩

end ProofTree

end OffsetLogic
