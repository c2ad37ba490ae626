import OffsetLogic.Config.Basic
import OffsetLogic.Event
import OffsetLogic.Resolution
import OffsetLogic.Verdict

/-!
# Saturation

To refute a list of clauses, all pairs of known clauses are resolved and the new resolvents are
added, **round by round**, until the empty clause appears, a round adds nothing, or a limit is
passed. Clauses are known in the order in which they were found.

**Only new pairs are resolved.** A search keeps the known clauses in two parts, `settled` and
`recent`. All pairs of settled clauses were resolved in earlier rounds, so a round examines the
pairs with a recent member: each recent clause with everything before it (`newPairs`).

**Every ending is a report.** A search that stops within a round stops with its verdict or error and
with what it has counted and logged so far, so the steps of a round live in `ExceptT Report`: a
report is thrown, and a search that goes on is returned. The rule that resolves two clauses is a
parameter of the search (`refuteWith`); `refute` instantiates it with `resolve`.

Rounds can go on without end, and so can unification within them, so a search has a budget, which
bounds the number of rounds and the depth of each unification. The budget is no limit of the search:
a search that runs out of it has no report, while one beyond a limit has a report that says so.
`OffsetLogic.Proofs.Search.Budget` shows that the budget decides whether there is a report and never
which.

The steps are small, so that what each of them does to a search can be said in one equation. `begin`
counts a round and tests the first limit, `examine` resolves one pair, `absorb` adds one resolvent,
`finish` makes what was found known and tests the second limit. A resolvent that is found within a
round is looked for among all clauses, those of the round included, so nothing is known twice; but
it is not resolved before the next round.
-/

namespace OffsetLogic

/-- The events of a resolution: one for each conclusion that is not tautological. -/
def Resolution.events (r : Resolution) : List Event :=
  (r.inferences.filter (!·.isTautology)).map fun i ↦ .resolved i.positive i.negated i.resolvent

/-- The number of inferences whose conclusion is tautological. -/
def Resolution.tautologies (r : Resolution) : Nat := r.inferences.countP (·.isTautology)

/-- How a search ended, with its counts and its events. -/
structure Report where
  /-- What was counted. -/
  stats : Stats
  /-- What was logged, in order. -/
  events : Array Event
  /-- The verdict, or the error. -/
  result : Except SearchError Verdict

/-- The state of a search. -/
structure Search where
  /-- Known clauses all of whose pairs were resolved in earlier rounds. -/
  settled : List ProofTree
  /-- Known clauses that came in the round before. -/
  recent : List ProofTree
  /-- Clauses found in this round. -/
  fresh : List ProofTree := []
  /-- What was counted so far. -/
  stats : Stats := {}
  /-- What was logged so far. -/
  events : Array Event := #[]

/-- The pairs of `recent` clauses with everything before them, in order of the later member. -/
def newPairs {α : Type} (settled : List α) : List α → List (α × α)
  | [] => []
  | a :: recent => settled.map (·, a) ++ newPairs (settled ++ [a]) recent

namespace Search

variable (st : Search)

/-- The clauses known before this round, in the order found. -/
def known : List ProofTree := st.settled ++ st.recent

/-- Whether a clause is known or was found in this round. -/
def contains (c : Clause) : Bool :=
  st.settled.any (·.clause = c) || st.recent.any (·.clause = c) || st.fresh.any (·.clause = c)

/-- The search with one more event. -/
def log (e : Event) : Search := { st with events := st.events.push e }

/-! ### Endings -/

/-- The report of a search that ends with so many clauses. -/
def refutedBy (derivation : Derivation) (clauses : Nat) : Report :=
  let stats := { st.stats with emptyClauseFound := true, clausesRetained := clauses }
  ⟨stats, st.events, .ok (.refuted derivation stats)⟩

/-- The report of a search whose round gave nothing new. -/
def saturatedReport : Report :=
  let stats := { st.stats with clausesRetained := st.known.length }
  ⟨stats, st.events, .ok (.saturated st.known.length stats)⟩

/-- The report of a search beyond a limit. -/
def limitReport : Report :=
  let clauses := st.known.length
  let st := st.log (.limitReached st.stats.rounds clauses)
  ⟨{ st.stats with clausesRetained := clauses }, st.events, .error (.limit st.stats.rounds clauses)⟩

/-- The report of a search that met a shift error. -/
def faultReport (e : ShiftError) : Report := ⟨st.stats, st.events, .error (.shift e)⟩

/-! ### Steps -/

/-- The search with a resolution counted and logged. -/
def record (r : Resolution) : Search :=
  { st with
    stats := { st.stats with
      pairsExamined := st.stats.pairsExamined + 1
      resolventsGenerated := st.stats.resolventsGenerated + r.inferences.length
      tautologiesRemoved := st.stats.tautologiesRemoved + r.tautologies }
    events := st.events ++ r.events }

/-- The search with the resolvent `c` of `l` and `r` added, unless it is there already; the empty
clause ends it. -/
def absorb (config : Config) (l r : ProofTree) (st : Search) (c : Clause) :
    Except Report Search :=
  if c.isEmpty then
    .error ((st.log (.contradiction st.stats.rounds)).refutedBy (ProofTree.refutation l r)
      (st.known.length + st.fresh.length))
  else if st.contains c then .ok st
  else .ok { st with
    fresh := st.fresh ++ [if config.recordDerivation then .resolved l r c else .given c] }

/-- The search with one pair of clauses resolved. -/
def examine (infer : Clause → Clause → Budgeted Resolution) (config : Config) (st : Search)
    (pair : ProofTree × ProofTree) : ExceptT Report Budgeted Search := do
  let resolution ← infer pair.1.clause pair.2.clause
  let st := st.record resolution
  match resolution.fault with
  | some e => throw (st.faultReport e)
  | none => (resolution.resolvents.foldlM (absorb config pair.1 pair.2) st : Except Report Search)

/-- The search at the beginning of its next round, unless that is beyond the limit. -/
def begin (config : Config) (st : Search) : Except Report Search :=
  let st := { st with stats := { st.stats with rounds := st.stats.rounds + 1 } }
  if Config.exceeds st.stats.rounds config.maxRounds then .error st.limitReport else .ok st

/-- The search at the end of a round: what was found becomes known, unless nothing was found or
that is beyond the limit. -/
def finish (config : Config) (st : Search) : Except Report Search :=
  let st := st.log (.roundFinished st.stats.rounds st.known.length st.fresh.length)
  if st.fresh.isEmpty then .error st.saturatedReport
  else
    let st := { st with settled := st.known, recent := st.fresh, fresh := [] }
    if Config.exceeds st.known.length config.maxClauses then .error st.limitReport else .ok st

/-- The search after one more round. -/
def round (infer : Clause → Clause → Budgeted Resolution) (config : Config) (st : Search) :
    ExceptT Report Budgeted Search := do
  let st ← st.begin config
  let st ← (newPairs st.settled st.recent).foldlM (examine infer config) st
  st.finish config

/-- Rounds until the search ends; the budget bounds their number. -/
def saturate (infer : Clause → Clause → Budgeted Resolution) (config : Config) :
    Nat → Search → Budgeted Report
  | 0, _ => none
  | n + 1, st => do
    match ← (st.round infer config).run with
    | .error report => return report
    | .ok st => saturate infer config n st

/-- The search that begins with the distinct clauses of a list. -/
def start (clauses : List Clause) : Search :=
  let st : Search := { settled := [], recent := clauses.eraseDups.map .given }
  st.log (.searching st.recent.length)

end Search

/-- Search for the empty clause among the consequences of a list of clauses under a rule that
resolves two clauses; the budget bounds the number of rounds. -/
def refuteWith (infer : Clause → Clause → Budgeted Resolution) (config : Config) (n : Nat)
    (clauses : List Clause) : Budgeted Report :=
  let st := Search.start clauses
  if clauses.any Clause.isEmpty then
    return (st.log .emptyInput).refutedBy ∅ st.recent.length
  else Search.saturate infer config n st

/-- Search for the empty clause among the consequences of a list of clauses. -/
def refute (n : Nat) (config : Config) (clauses : List Clause) : Budgeted Report :=
  refuteWith (resolve n) config n clauses

end OffsetLogic
