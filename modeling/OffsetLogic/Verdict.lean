import OffsetLogic.Derivation
import OffsetLogic.Term.Shift

/-!
# Verdicts of a search

A search ends with a verdict, which is that the clauses are refuted, with a derivation of the empty
clause, or saturated, or with an error: a shift error of substitution, or a limit that was reached.
In every case it has counted its work (`Stats`).

**Saturated does not mean satisfiable.** It says that a round found nothing new, under a rule that
factors in place and drops conclusions as tautological; when clauses that are saturated have a model
is a theorem with conditions, and no part of the verdict.

The counts are made as the search goes, so a search that ends within a round has counted that round
as begun. The number of clauses retained is that of the clauses known when the search ended, and a
search that met a shift error has not counted them.
-/

namespace OffsetLogic

/-- What a search has counted. -/
structure Stats where
  /-- Rounds begun. -/
  rounds : Nat := 0
  /-- Pairs of clauses resolved. -/
  pairsExamined : Nat := 0
  /-- Inferences drawn. -/
  resolventsGenerated : Nat := 0
  /-- Inferences dropped because their conclusion is tautological. -/
  tautologiesRemoved : Nat := 0
  /-- Clauses known when the search stopped. -/
  clausesRetained : Nat := 0
  /-- Whether the empty clause was found. -/
  emptyClauseFound : Bool := false
deriving DecidableEq, Inhabited

/-- How a completed search ended. -/
inductive Verdict where
  /-- The empty clause was derived. -/
  | refuted (derivation : Derivation) (stats : Stats)
  /-- A round gave no new clause; so many clauses are known. -/
  | saturated (clauses : Nat) (stats : Stats)
deriving DecidableEq, Inhabited

namespace Verdict

def isRefuted : Verdict → Bool
  | refuted .. => true
  | saturated .. => false

def stats : Verdict → Stats
  | refuted _ s => s
  | saturated _ s => s

end Verdict

/-- Why a search gave up. -/
inductive SearchError where
  /-- A unifier asks for a shift that does not exist. -/
  | shift (error : ShiftError)
  /-- A limit stopped the search. -/
  | limit (rounds clauses : Nat)
deriving DecidableEq

end OffsetLogic
