/-!
# Limits of a search

Saturation need not end, so a search can be capped by rounds and by clauses. Counts are natural
numbers; the files and texts that a configuration is read from have ranges of their own.

A limit is passed, and not merely reached, when a count is **greater** than it (`Config.exceeds`),
so a search with a limit of `r` rounds may complete `r` of them. The two limits are tested at
different places of a round: the rounds when one begins, the clauses when one ends. A list of
clauses that is longer than the limit to begin with is therefore searched for one round at least,
and saturates if that round finds nothing.

Whether derivations are recorded changes what a refutation reports, and nothing about which clauses
are found or how the search ends (`OffsetLogic.Proofs.Search.Limits`).
-/

namespace OffsetLogic

/-- Limits and bookkeeping options of a search. -/
structure Config where
  /-- The number of rounds that may be completed; no limit if absent. -/
  maxRounds : Option Nat := none
  /-- The number of clauses that may be known after a round; no limit if absent. -/
  maxClauses : Option Nat := none
  /-- Whether resolvents remember their parents, so that a refutation has its whole derivation. -/
  recordDerivation : Bool := true
deriving DecidableEq, Inhabited

namespace Config

/-- Whether any limit is set. -/
def isBounded (c : Config) : Bool := c.maxRounds.isSome || c.maxClauses.isSome

/-- Whether a count is beyond a limit. -/
def exceeds (count : Nat) : Option Nat → Bool
  | none => false
  | some limit => limit < count

end Config

end OffsetLogic
