import Mathlib.Algebra.Group.Nat.Defs
import OffsetLogic.Config.File
import OffsetLogic.Proofs.Toml.Lines

/-!
# Configurations are read back

A configuration is written in lines, one for each limit that is set and one for its option, and a
limit that is not set leaves no line. It comes back all the same, because what a document does not
set has its default, and the default of a limit is to be absent. So each limit is written and read
by itself (`Config.exists_limitLines`), whatever its value is, and the document is read as one of
lines with different keys.

The integers of the format are signed words of 64 bits. A limit beyond them has no line, and then
there is no document (`Config.toToml?_eq_none`).

**The text is not looked at here.** That a document of lines is read as the entries of its lines,
whatever keys they have and whatever they set, is a theorem of `OffsetLogic.Proofs.Toml.Lines`. What
is left is to see a configuration as such a list of lines (`lines`), which keys come first and which
are missing, and to look the three keys up in it (`lookup_lines`). So a change of the format of
documents does not touch this module, and a new setting adds a line and a lookup.
-/

namespace OffsetLogic.Config

open Toml

/-- The limits that are set. -/
def limits (c : Config) : List Nat := c.maxRounds.toList ++ c.maxClauses.toList

variable {key : String} {limit : Option Nat} {c : Config}

/-! ### Limits -/

/-- The line that sets a limit, if it is set. -/
def limitLines (key : String) (bare : isBareKey key = true) (k : Option Int64) : List Line :=
  (k.map (.integer key bare)).toList

/-- The integers of the format go up to `2 ^ 63 - 1`. -/
theorem ofInt?_eq_none_iff {n : Nat} : Int64.ofInt? n = none ↔ 2 ^ 63 - 1 < n := by
  rw [Int64.ofInt?_eq_none_iff, show Int64.minValue.toInt = -2 ^ 63 from rfl,
    show Int64.maxValue.toInt = 2 ^ 63 - 1 from rfl]
  omega

/-- A limit that is in range has a line, and the entry of the line sets the same limit. -/
theorem exists_limitLines (key : String) (bare : isBareKey key = true)
    (h : ∀ n ∈ limit, n ≤ 2 ^ 63 - 1) :
    ∃ k, limitLine? key limit = some (document (limitLines key bare k)) ∧
      limitOf? (k.map .integer) = some limit := by
  cases limit with
  | none => exact ⟨none, rfl, rfl⟩
  | some n =>
    obtain ⟨k, hk⟩ := Option.ne_none_iff_exists'.1
      (mt ofInt?_eq_none_iff.1 (Nat.not_lt.2 (h n rfl)))
    have hvalue : k.toInt = n := Int64.ofInt?_eq_some_iff.1 hk
    refine ⟨some k, ?_, ?_⟩
    · rw [limitLine?, hk]
      exact congrArg some String.append_empty.symm
    · simp [limitOf?, hvalue]

/-- A limit beyond the integers of the format has no line. -/
theorem limitLine?_eq_none {n : Nat} (h : 2 ^ 63 - 1 < n) : limitLine? key (some n) = none := by
  rw [limitLine?, ofInt?_eq_none_iff.2 h]
  rfl

/-- A configuration with a limit beyond the integers of the format cannot be written, whichever
limit it is. -/
theorem toToml?_eq_none {n : Nat} (hn : n ∈ c.limits) (h : 2 ^ 63 - 1 < n) : c.toToml? = none := by
  rw [toToml?]
  rcases List.mem_append.1 hn with hn | hn
  · rw [Option.mem_toList.1 hn, limitLine?_eq_none h]
    rfl
  · rw [Option.mem_toList.1 hn, limitLine?_eq_none h]
    cases limitLine? "max_rounds" c.maxRounds <;> rfl

/-! ### Documents -/

/-- The lines of a configuration with given limits. -/
def lines (rounds clauses : Option Int64) (recordDerivation : Bool) : List Line :=
  limitLines "max_rounds" (by decide) rounds ++ (limitLines "max_clauses" (by decide) clauses ++
    [.boolean "record_derivation" (by decide) recordDerivation])

/-- The lines set different keys, and each entry is found under its key. -/
theorem lookup_lines (rounds clauses : Option Int64) (b : Bool) :
    ((lines rounds clauses b).map Line.key).Nodup ∧
      ((lines rounds clauses b).map Line.entry).lookup "max_rounds" = rounds.map .integer ∧
      ((lines rounds clauses b).map Line.entry).lookup "max_clauses" = clauses.map .integer ∧
      ((lines rounds clauses b).map Line.entry).lookup "record_derivation" = some (.boolean b) := by
  cases rounds <;> cases clauses <;> refine ⟨?_, rfl, rfl, rfl⟩ <;>
    simp [lines, limitLines, Line.integer, Line.boolean]

/-- **A configuration is read back from what it is written as.** When all limits that are set are in
the range of the integers of the format, there is a document, and it is read as the same
configuration, whichever limits are set; and when some limit is not in range, there is none. -/
theorem ofToml_toToml? (c : Config) :
    ((∀ n ∈ c.limits, n ≤ 2 ^ 63 - 1) →
      ∃ document, c.toToml? = some document ∧ ofToml document = .ok c) ∧
    ((∃ n ∈ c.limits, 2 ^ 63 - 1 < n) → c.toToml? = none) := by
  refine ⟨fun h ↦ ?_, fun ⟨n, hn, h⟩ ↦ toToml?_eq_none hn h⟩
  obtain ⟨hmaxRounds, hmaxClauses⟩ := List.forall_mem_append.1 h
  obtain ⟨rounds, hrounds, hrounds'⟩ := exists_limitLines "max_rounds" (by decide) fun n hn ↦
    hmaxRounds n (Option.mem_toList.2 hn)
  obtain ⟨clauses, hclauses, hclauses'⟩ := exists_limitLines "max_clauses" (by decide) fun n hn ↦
    hmaxClauses n (Option.mem_toList.2 hn)
  obtain ⟨hnodup, hfirst, hsecond, hthird⟩ := lookup_lines rounds clauses c.recordDerivation
  have hentries :
      ofEntries? ((lines rounds clauses c.recordDerivation).map Line.entry) = some c := by
    rw [ofEntries?, hfirst, hrounds', hsecond, hclauses', hthird]
    rfl
  refine ⟨document (lines rounds clauses c.recordDerivation), ?_, ?_⟩
  · rw [toToml?, hrounds, hclauses, lines, document_append, document_append]
    show some _ = some _
    rw [document, document, String.append_empty, String.append_assoc]
    rfl
  · rw [ofToml, parse?_document hnodup, Option.bind_some, hentries]

/-- The limits `0` and `9223372036854775807` are written and read back, and so is a configuration
without limits; the limit `9223372036854775808` cannot be written. -/
theorem ofToml_toToml?_maxValue :
    let c : Config := ⟨some 0, some (2 ^ 63 - 1), false⟩
    let text := "max_rounds = 0\nmax_clauses = 9223372036854775807\nrecord_derivation = false\n"
    (c.toToml? = some text ∧ ofToml text = .ok c) ∧
      (∃ text, toToml? {} = some text ∧ ofToml text = .ok {}) ∧
      toToml? ⟨some (2 ^ 63), none, true⟩ = none := by
  intro c text
  have hc : c.toToml? = some text := by decide +kernel
  refine ⟨⟨hc, ?_⟩, (ofToml_toToml? {}).1 (by decide), (ofToml_toToml? _).2 ?_⟩
  · obtain ⟨text', htext', h⟩ := (ofToml_toToml? c).1 (by decide)
    cases hc.symm.trans htext'
    exact h
  · exact ⟨2 ^ 63, List.mem_singleton_self _, by decide⟩

end OffsetLogic.Config
