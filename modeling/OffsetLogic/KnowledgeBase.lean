import OffsetLogic.Saturation

/-!
# The knowledge base

An append-only store of clauses that answers queries by refutation. Each clause that is told has its
variables marked with the number of clauses told before it, its **generation**, so no two stored
clauses share a variable; the variables of a query are marked with `q`. A query is negated and
searched for a contradiction together with the stored clauses, which it never changes.

A positive query `a ∨ b` asks for the conjunction of its literals, and a negative one asks whether
its atoms are false. A query with literals of both signs has no single reading and is not searched.

**Negating a query changes the signs and keeps one clause.** The negation of a disjunction would be
several clauses; `a ∨ b` becomes `¬a ∨ ¬b`, which contradicts the stored clauses when both atoms
follow from them. That is the reading as a conjunction, and it is settled by the negation, not by
the search. The empty query would become the empty clause and make every store contradictory, so it
is left out of the working set: asking it asks whether the stored clauses are contradictory by
themselves.

An inquiry answers with a verdict, which says how the search ended, and `ask` keeps of it whether
the clauses were refuted. A search that meets a limit or a shift error has no verdict, and so there
is no answer either; the error is what is returned.
-/

namespace OffsetLogic

/-- The answer to a query. -/
inductive Answer where
  /-- The negated query contradicts the stored clauses. -/
  | proved
  /-- The search was completed without a contradiction. -/
  | notProved
  /-- The query has literals of both signs. -/
  | undetermined
deriving DecidableEq, Inhabited

namespace Answer

/-- The answer as a truth value, if the query has a reading. -/
def toOption : Answer → Option Bool
  | proved => some true
  | notProved => some false
  | undetermined => none

/-- The answer that a verdict gives; there is none for a query that was not searched. -/
def ofVerdict? : Option Verdict → Answer
  | none => undetermined
  | some v => if v.isRefuted then proved else notProved

end Answer

/-- A store of clauses with the limits under which its queries are searched. -/
structure KnowledgeBase where
  /-- The stored clauses in the order they were told. -/
  clauses : List Clause := []
  /-- The number of clauses told so far, which marks the next one. -/
  generation : Nat := 0
  /-- The limits of searches. -/
  config : Config := {}

/-- What asking a query gives: the verdict, if the query was searched, and the events. -/
structure Inquiry where
  /-- The verdict, or the error; no verdict for a query with literals of both signs. -/
  result : Except SearchError (Option Verdict)
  /-- What was logged, in order. -/
  events : Array Event

/-- The answer of an inquiry, or the error. -/
def Inquiry.answer (i : Inquiry) : Except SearchError Answer := Answer.ofVerdict? <$> i.result

namespace KnowledgeBase

/-- The suffix that marks the variables of a query. -/
def querySuffix : String := "q"

variable (kb : KnowledgeBase)

/-- The clause as it is stored when told next. -/
def mark (c : Clause) : Clause := c.renameSuffix (toString kb.generation)

/-- The store with one more clause. -/
def tell (c : Clause) : KnowledgeBase :=
  { kb with clauses := kb.clauses ++ [kb.mark c], generation := kb.generation + 1 }

/-- The store with each clause of a list told in turn. -/
def tellAll (cs : List Clause) : KnowledgeBase := cs.foldl tell kb

/-- The event of telling a clause. -/
def tellEvent (c : Clause) : Event := .told (kb.mark c) (kb.generation + 1)

/-- The events of telling the clauses of a list in turn. -/
def tellAllEvents (kb : KnowledgeBase) : List Clause → List Event
  | [] => []
  | c :: cs => kb.tellEvent c :: (kb.tell c).tellAllEvents cs

/-- The store of given axioms. -/
def ofAxioms (config : Config) (axioms : List Clause) : KnowledgeBase :=
  tellAll { config } axioms

/-- The clauses that are searched for a query: those stored and the negated query. The empty query
is left out, since it would negate to a contradiction. -/
def workingSet (query : Clause) : List Clause :=
  if query.isEmpty then kb.clauses
  else kb.clauses ++ [(query.renameSuffix querySuffix).negate]

/-- Search for a proof of a query. -/
def prove (n : Nat) (query : Clause) : Budgeted Inquiry :=
  if !query.pos.isEmpty && !query.neg.isEmpty then
    return ⟨.ok none, #[.mixedQuery query]⟩
  else do
    let report ← refute n kb.config (kb.workingSet query)
    return match report.result with
      | .error e => ⟨.error e, report.events⟩
      | .ok v => ⟨.ok (some v), report.events.push (.asked query v.isRefuted v.stats.rounds)⟩

/-- Ask whether a query follows from the stored clauses. -/
def ask (n : Nat) (query : Clause) : Budgeted (Except SearchError Answer) :=
  Inquiry.answer <$> kb.prove n query

end KnowledgeBase

end OffsetLogic
