import OffsetLogic.Json.Shape
import OffsetLogic.KnowledgeBase

/-!
# The JSON forms of the library's types

Each type has a writer `toJson` and a reader `ofJson?`. Records are written as objects with their
fields in the order below, variants under their name, sets as arrays in ascending order, bindings as
an object in binding order; limits that are not set are left out. Reading follows
`OffsetLogic.Json.Shape`: sets may come in any order, and a name that is bound twice keeps its first
place and its last term.

Every reader takes the number of containers that it may still enter (`Json.depthLimit` for a whole
document), which also bounds the recursion on terms.

**Readers are more liberal than writers.** A record may be an array of its fields, its members may
come in any order and with others among them, an answer may be an object with its name and null, and
an absent limit may be null. No writer makes use of that, so a reader is not the inverse of a writer
on all documents; it is one on those that are written (`OffsetLogic.Proofs.Json.RoundTrip`).

The depth is counted in containers that a typed reader enters, and not in levels of the document: a
variant and the record under it are two, the array of arguments is the third, and members that are
passed over are none. That is why the cases below match on `depth + 1`, `depth + 2` and `depth + 3`,
each with the number of containers that their form has.
-/

namespace OffsetLogic

open Json (tagged str)

/-! ### Values and terms -/

namespace Value

def toJson : Value → Json
  | int n => tagged "Int" (.integer n.toInt)
  | symbol s => tagged "Symbol" (str s)

def ofJson? : Nat → Json → Option Value
  | 0, _ => none
  | _ + 1, j =>
    match j.variant? with
    | some ("Int", some v) => int <$> v.int64?
    | some ("Symbol", some v) => symbol <$> v.text?
    | _ => none

end Value

namespace Term

mutual

def toJson : Term → Json
  | .const v => tagged "Constant" v.toJson
  | .var x k => tagged "Variable" (.record [("name", str x), ("offset", .integer k.toInt)])
  | .app g ts => tagged "Function" (.record [("name", str g), ("args", .array (toJsonArgs ts))])

/-- The forms of an argument list. -/
def toJsonArgs : List Term → List Json
  | [] => []
  | t :: ts => t.toJson :: toJsonArgs ts

end

def ofJson? : Nat → Json → Option Term
  | 0, _ => none
  | depth + 1, j =>
    match depth, j.variant? with
    | _, some ("Constant", some v) => const <$> Value.ofJson? depth v
    | _ + 1, some ("Variable", some v) =>
      match v.record? ["name", "offset"] with
      | some [x, k] => return .var (← x.text?) (← k.int64?)
      | _ => none
    | depth + 2, some ("Function", some v) =>
      match v.record? ["name", "args"] with
      | some [g, ts] => return .app (← g.text?) (← (← ts.items?).mapM (ofJson? depth))
      | _ => none
    | _, _ => none

end Term

/-! ### Clauses and substitutions -/

namespace Clause

def toJson (c : Clause) : Json :=
  .record [("pos", .array (c.pos.toList.map Term.toJson)),
    ("neg", .array (c.neg.toList.map Term.toJson))]

def ofJson? : Nat → Json → Option Clause
  | depth + 2, j =>
    match j.record? ["pos", "neg"] with
    | some [p, n] =>
      return ofLists (← (← p.items?).mapM (Term.ofJson? depth))
        (← (← n.items?).mapM (Term.ofJson? depth))
    | _ => none
  | _, _ => none

end Clause

namespace Substitution

def toJson (s : Substitution) : Json :=
  .record [("bindings", .record (s.bindings.map fun b ↦ (b.1, b.2.toJson)))]

def ofJson? : Nat → Json → Option Substitution
  | depth + 2, j =>
    match j.record? ["bindings"] with
    | some [bs] =>
      return ofList (← (← bs.members?).mapM fun m ↦ (m.1, ·) <$> Term.ofJson? depth m.2)
    | _ => none
  | _, _ => none

end Substitution

/-! ### Derivations and verdicts -/

namespace Step

def toJson (s : Step) : Json :=
  .record [("left", s.left.toJson), ("right", s.right.toJson), ("resolvent", s.resolvent.toJson)]

def ofJson? : Nat → Json → Option Step
  | 0, _ => none
  | depth + 1, j =>
    match j.record? ["left", "right", "resolvent"] with
    | some [l, r, c] =>
      return ⟨← Clause.ofJson? depth l, ← Clause.ofJson? depth r, ← Clause.ofJson? depth c⟩
    | _ => none

end Step

namespace Derivation

def toJson (d : Derivation) : Json := .record [("steps", .array (d.steps.map Step.toJson))]

def ofJson? : Nat → Json → Option Derivation
  | depth + 2, j =>
    match j.record? ["steps"] with
    | some [steps] => return ⟨← (← steps.items?).mapM (Step.ofJson? depth)⟩
    | _ => none
  | _, _ => none

end Derivation

namespace Stats

def toJson (s : Stats) : Json :=
  .record [("rounds", .integer s.rounds), ("pairs_examined", .integer s.pairsExamined),
    ("resolvents_generated", .integer s.resolventsGenerated),
    ("tautologies_removed", .integer s.tautologiesRemoved),
    ("clauses_retained", .integer s.clausesRetained),
    ("empty_clause_found", .bool s.emptyClauseFound)]

def ofJson? : Nat → Json → Option Stats
  | 0, _ => none
  | _ + 1, j =>
    match j.record? ["rounds", "pairs_examined", "resolvents_generated", "tautologies_removed",
        "clauses_retained", "empty_clause_found"] with
    | some [rounds, pairs, generated, removed, retained, found] =>
      return ⟨← rounds.count?, ← pairs.count?, ← generated.count?, ← removed.count?,
        ← retained.count?, ← found.bool?⟩
    | _ => none

end Stats

namespace Verdict

def toJson : Verdict → Json
  | refuted d s => tagged "Refuted" (.record [("derivation", d.toJson), ("stats", s.toJson)])
  | saturated n s => tagged "Saturated" (.record [("clauses", .integer n), ("stats", s.toJson)])

def ofJson? : Nat → Json → Option Verdict
  | depth + 2, j =>
    match j.variant? with
    | some ("Refuted", some v) =>
      match v.record? ["derivation", "stats"] with
      | some [d, s] => return refuted (← Derivation.ofJson? depth d) (← Stats.ofJson? depth s)
      | _ => none
    | some ("Saturated", some v) =>
      match v.record? ["clauses", "stats"] with
      | some [n, s] => return saturated (← n.count?) (← Stats.ofJson? depth s)
      | _ => none
    | _ => none
  | _, _ => none

end Verdict

/-! ### Answers and configurations -/

namespace Answer

/-- The name of an answer. -/
def name : Answer → String
  | proved => "Proved"
  | notProved => "NotProved"
  | undetermined => "Undetermined"

/-- The answer of a name. -/
def ofName? : String → Option Answer
  | "Proved" => some proved
  | "NotProved" => some notProved
  | "Undetermined" => some undetermined
  | _ => none

def toJson (a : Answer) : Json := str a.name

/-- An answer is its name, or an object with its name and null. -/
def ofJson? (depth : Nat) (j : Json) : Option Answer :=
  match depth, j.variant? with
  | _, some (x, none) => ofName? x
  | _ + 1, some (x, some .null) => ofName? x
  | _, _ => none

end Answer

namespace Config

def toJson (c : Config) : Json :=
  .record ((c.maxRounds.toList.map fun n ↦ ("max_rounds", .integer n))
    ++ (c.maxClauses.toList.map fun n ↦ ("max_clauses", .integer n))
    ++ [("record_derivation", .bool c.recordDerivation)])

/-- An absent field has its default. -/
def ofJson? : Nat → Json → Option Config
  | 0, _ => none
  | _ + 1, j =>
    match j.fields? ["max_rounds", "max_clauses", "record_derivation"] with
    | some [rounds, clauses, record] => do
      let default : Config := {}
      return ⟨← rounds.elim (some default.maxRounds) Json.optionalCount?,
        ← clauses.elim (some default.maxClauses) Json.optionalCount?,
        ← record.elim (some default.recordDerivation) Json.bool?⟩
    | _ => none

end Config

/-- Reads a whole document as a value of some type and writes it again. -/
def Json.reprint? {α : Type} (ofJson? : Nat → Json → Option α) (toJson : α → Json)
    (document : String) : Option String := do
  let j ← parse? document
  let a ← ofJson? depthLimit j
  return (toJson a).render

end OffsetLogic
