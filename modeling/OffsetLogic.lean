import OffsetLogic.CheckedInt
import OffsetLogic.Hex
import OffsetLogic.Text.Ranges
import OffsetLogic.Text.Alphanumeric
import OffsetLogic.Text.Blank
import OffsetLogic.SortedSet
import OffsetLogic.Term.Basic
import OffsetLogic.Term.Order
import OffsetLogic.Term.Shift
import OffsetLogic.Substitution.Basic
import OffsetLogic.Substitution.Apply
import OffsetLogic.Unification
import OffsetLogic.Clause.Basic
import OffsetLogic.Clause.Factor
import OffsetLogic.Clause.Canonical
import OffsetLogic.Resolution
import OffsetLogic.Derivation
import OffsetLogic.Verdict
import OffsetLogic.Display
import OffsetLogic.Event
import OffsetLogic.Config.Basic
import OffsetLogic.Saturation
import OffsetLogic.KnowledgeBase
import OffsetLogic.Json.Quoted
import OffsetLogic.Json.Token
import OffsetLogic.Json.Value
import OffsetLogic.Json.Shape
import OffsetLogic.Json.Forms
import OffsetLogic.Toml.Document
import OffsetLogic.Toml.Number
import OffsetLogic.Toml.Parser
import OffsetLogic.Config.File
import OffsetLogic.Logging.Filter
import OffsetLogic.Logging.Logger
import OffsetLogic.Proofs.Clause.Literals
import OffsetLogic.Proofs.Config.RoundTrip
import OffsetLogic.Proofs.Ground.Query
import OffsetLogic.Proofs.Ground.Resolution
import OffsetLogic.Proofs.Ground.Search
import OffsetLogic.Proofs.Json.Printed
import OffsetLogic.Proofs.Json.RoundTrip
import OffsetLogic.Proofs.Query.Ask
import OffsetLogic.Proofs.Query.Repeated
import OffsetLogic.Proofs.Renaming.Apart
import OffsetLogic.Proofs.Renaming.Canonical
import OffsetLogic.Proofs.Renaming.Merging
import OffsetLogic.Proofs.Renaming.Variant
import OffsetLogic.Proofs.Resolution.Factoring
import OffsetLogic.Proofs.Resolution.Flat
import OffsetLogic.Proofs.Resolution.Inference
import OffsetLogic.Proofs.Resolution.OffsetFree
import OffsetLogic.Proofs.Resolution.Symmetry
import OffsetLogic.Proofs.Resolution.Total
import OffsetLogic.Proofs.Resolution.Vocabulary
import OffsetLogic.Proofs.Rules.Facts
import OffsetLogic.Proofs.Rules.Herbrand
import OffsetLogic.Proofs.Rules.Image
import OffsetLogic.Proofs.Rules.Query
import OffsetLogic.Proofs.Rules.Renaming
import OffsetLogic.Proofs.Search.Bounded
import OffsetLogic.Proofs.Search.Budget
import OffsetLogic.Proofs.Search.Cap
import OffsetLogic.Proofs.Search.Derivation
import OffsetLogic.Proofs.Search.Flat
import OffsetLogic.Proofs.Search.Keeping
import OffsetLogic.Proofs.Search.Known
import OffsetLogic.Proofs.Search.Limits
import OffsetLogic.Proofs.Search.Naive
import OffsetLogic.Proofs.Search.OffsetFree
import OffsetLogic.Proofs.Search.Pairs
import OffsetLogic.Proofs.Search.Run
import OffsetLogic.Proofs.Search.Termination
import OffsetLogic.Proofs.Semantics.Acyclic
import OffsetLogic.Proofs.Semantics.Assignment
import OffsetLogic.Proofs.Semantics.Free
import OffsetLogic.Proofs.Semantics.Model
import OffsetLogic.Proofs.Semantics.Small
import OffsetLogic.Proofs.Semantics.Soundness
import OffsetLogic.Proofs.Substitution.Applied
import OffsetLogic.Proofs.Substitution.Expansion
import OffsetLogic.Proofs.Substitution.Replaced
import OffsetLogic.Proofs.Substitution.Resolved
import OffsetLogic.Proofs.Term.Places
import OffsetLogic.Proofs.Text.Decimal
import OffsetLogic.Proofs.Toml.Lines
import OffsetLogic.Proofs.Unification.Alias
import OffsetLogic.Proofs.Unification.Classes
import OffsetLogic.Proofs.Unification.Complete
import OffsetLogic.Proofs.Unification.Extension
import OffsetLogic.Proofs.Unification.Image
import OffsetLogic.Proofs.Unification.Matching
import OffsetLogic.Proofs.Unification.Renamed
import OffsetLogic.Proofs.Unification.Shape
import OffsetLogic.Proofs.Unification.Success
import OffsetLogic.Proofs.Unification.Symmetry
