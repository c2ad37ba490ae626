import OffsetLogic.Clause.Factor
import OffsetLogic.Clause.Canonical

/-!
# Binary resolution

From `C ∨ p` and `D ∨ ¬q`, where `s` unifies `p` and `q`, resolution infers `(C ∨ D)` under `s`. Two
clauses are resolved in both directions and upon every complementary pair of their literals, after
their variables have been renamed apart. Each conclusion is factored and canonically named, and a
tautological one is marked, so that a search can drop it.

The answer is the list of **inferences in the order they were drawn**, and the shift error that cut
it short, if there was one. Everything else is read off it: the resolvents (`Resolution.resolvents`,
without tautologies and repetitions), and what a search counts and reports.

**An error ends the list and keeps what was drawn before.** A shift error can come up when the
unifier is applied to the other literals or when the conclusion is factored. It is not the error of
one inference only: resolving stops there, and a search that meets it stops as well, after it has
counted the inferences before.

The clashing literals are removed from the clause they stand in, each on its own side, and the rest
is united. Where the other clause has the same atom with the same sign it stays (`Clash.remainder`):
it is a literal of its own, which the clash has not accounted for.

Renaming apart is done only for clauses that share a variable, with the suffixes `l` and `r`. The
suffixes take part in the order of the literals, and hence in the order in which a conclusion is
factored, so exchanging the two clauses can change the resolvents.
-/

namespace OffsetLogic

/-- One application of the rule. -/
structure Inference where
  /-- The positive literal resolved upon. -/
  positive : Term
  /-- The atom of the negated literal resolved upon. -/
  negated : Term
  /-- The conclusion, factored and canonically named. -/
  resolvent : Clause
  /-- Whether the conclusion is tautological. -/
  isTautology : Bool

/-- What resolving two clauses gives. -/
structure Resolution where
  /-- The inferences in the order they were drawn. -/
  inferences : List Inference
  /-- The error at which the drawing of inferences ended, if it did not complete. -/
  fault : Option ShiftError

/-- The distinct resolvents that are not tautological, in the order found. -/
def Resolution.resolvents (r : Resolution) : List Clause :=
  ((r.inferences.filter (!·.isTautology)).map (·.resolvent)).eraseDups

namespace Clause

/-- Two clauses as they are, or, if they share a variable, marked with different suffixes. -/
def standardizeApart (c d : Clause) : Clause × Clause :=
  if c.variableNames.isDisjoint d.variableNames then (c, d)
  else (c.renameSuffix "l", d.renameSuffix "r")

end Clause

/-- Two clauses with a positive literal of the first and a negated literal of the second. -/
structure Clash where
  /-- The clause of the positive literal. -/
  left : Clause
  /-- The clause of the negated literal. -/
  right : Clause
  /-- The positive literal. -/
  positive : Term
  /-- The atom of the negated literal. -/
  negated : Term

namespace Clash

/-- The clashes of the positive literals of `c` with the negated literals of `d`. -/
def between (c d : Clause) : List Clash :=
  c.pos.toList.flatMap fun p ↦ d.neg.toList.map fun q ↦ ⟨c, d, p, q⟩

/-- The literals of both clauses except the clashing ones. -/
def remainder (k : Clash) : Clause :=
  ⟨k.left.pos.erase k.positive ∪ k.right.pos, k.left.neg ∪ k.right.neg.erase k.negated⟩

/-- The inference from a clash, if its literals unify. -/
def infer? (n : Nat) (k : Clash) : ExceptT ShiftError Budgeted (Option Inference) := do
  match ← mgu? n k.positive k.negated with
  | none => return none
  | some s =>
    let c ← k.remainder.apply s
    let c := (← c.factor n).canonicalize
    return some ⟨k.positive, k.negated, c, ← c.isTautological n⟩

end Clash

/-- The inferences from a list of clashes, up to the first error. -/
def inferFrom (n : Nat) : List Clash → Budgeted Resolution
  | [] => return ⟨[], none⟩
  | k :: ks => do
    match ← (k.infer? n).run with
    | .error e => return ⟨[], some e⟩
    | .ok none => inferFrom n ks
    | .ok (some i) =>
      let r ← inferFrom n ks
      return { r with inferences := i :: r.inferences }

/-- All inferences from two clauses: first upon positive literals of the first, then upon positive
literals of the second. -/
def resolve (n : Nat) (c d : Clause) : Budgeted Resolution :=
  let (c, d) := c.standardizeApart d
  inferFrom n (Clash.between c d ++ Clash.between d c)

/-- The resolvents of two clauses, or the error met. -/
def resolvents (n : Nat) (c d : Clause) : Budgeted (Except ShiftError (List Clause)) := do
  let r ← resolve n c d
  return match r.fault with
    | some e => .error e
    | none => .ok r.resolvents

end OffsetLogic
