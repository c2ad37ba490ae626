import OffsetLogic.Display

/-!
# Events of the reasoning core

What the core reports while it works. An event carries the data it is about; its level, its target
(the part of the core it comes from), its message and the text of its fields are read off it.

**Events are results.** The core does not write a log: a search and an inquiry answer with the list
of their events, in order, and what becomes of them is decided elsewhere. So statements about a run
can speak of what it has logged, and a count of finished rounds is a count of events. The fields of
an event hold clauses and terms, and become texts only when they are asked for.

The beginning of a search opens a span and has no message of its own. The other events are messages,
at three levels: every resolvent at `trace`, a limit at `warn`, and the rest at `debug`.
-/

namespace OffsetLogic

/-- Levels of detail, from the most detailed to the most severe. -/
inductive Level where
  | trace | debug | info | warn | error
deriving DecidableEq, Inhabited, Ord

namespace Level

def all : List Level := [trace, debug, info, warn, error]

/-- The name of a level in filters. -/
def name : Level → String
  | trace => "trace"
  | debug => "debug"
  | info => "info"
  | warn => "warn"
  | error => "error"

end Level

/-- A report of the reasoning core. -/
inductive Event where
  /-- A clause was stored as `clause`; `generation` clauses have been told. -/
  | told (clause : Clause) (generation : Nat)
  /-- A query has literals of both signs. -/
  | mixedQuery (query : Clause)
  /-- A query was searched to the end. -/
  | asked (query : Clause) (refuted : Bool) (rounds : Nat)
  /-- A search begins, on so many distinct clauses. -/
  | searching (clauses : Nat)
  /-- The empty clause is given. -/
  | emptyInput
  /-- The empty clause was derived. -/
  | contradiction (round : Nat)
  /-- A round ended that knew `known` clauses and added `new` ones. -/
  | roundFinished (round known new : Nat)
  /-- The search stopped at a limit. -/
  | limitReached (rounds clauses : Nat)
  /-- A clause was resolved upon the literals `positive` and `¬ negated`. -/
  | resolved (positive negated : Term) (resolvent : Clause)

namespace Event

/-- The part of the core that searches. -/
def searchTarget : String := "deduce_kb::resolution"

/-- The part of the core that stores and asks. -/
def storeTarget : String := "deduce_kb::knowledge_base"

def level : Event → Level
  | resolved .. => .trace
  | limitReached .. => .warn
  | _ => .debug

def target : Event → String
  | told .. | mixedQuery .. | asked .. => storeTarget
  | _ => searchTarget

/-- The message; the beginning of a search is a span and has none. -/
def message? : Event → Option String
  | told .. => some "tell"
  | mixedQuery .. => some "query mixes positive and negative literals"
  | asked .. => some "ask"
  | searching .. => none
  | emptyInput => some "empty clause among the inputs"
  | contradiction .. => some "derived the empty clause"
  | roundFinished .. => some "saturation round finished"
  | limitReached .. => some "saturation stopped at resource limit"
  | resolved .. => some "resolvent"

/-- The name of the span that the event opens. -/
def span? : Event → Option String
  | searching .. => some "refute"
  | _ => none

/-- The texts of the fields. -/
def fields : Event → List (String × String)
  | told c g => [("clause", toString c), ("generation", toString g)]
  | mixedQuery q => [("query", toString q)]
  | asked q refuted rounds =>
    [("query", toString q), ("refuted", toString refuted), ("rounds", toString rounds)]
  | searching n => [("clauses", toString n)]
  | emptyInput => []
  | contradiction round => [("round", toString round)]
  | roundFinished round known new =>
    [("round", toString round), ("known", toString known), ("new", toString new)]
  | limitReached rounds clauses =>
    [("rounds", toString rounds), ("clauses", toString clauses)]
  | resolved p q c => [("p", toString p), ("n", toString q), ("resolvent", toString c)]

end Event

end OffsetLogic
