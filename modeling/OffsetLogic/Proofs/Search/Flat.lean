import OffsetLogic.Proofs.Ground.Search
import OffsetLogic.Proofs.Resolution.Vocabulary
import OffsetLogic.Proofs.Search.Budget
import OffsetLogic.Proofs.Semantics.Soundness

/-!
# Searches in flat clauses end

A search without limits in flat clauses without offsets comes to a verdict, although every step of
it makes new names. What it derives is **factored and canonically named**, and over the vocabulary
of the given clauses there are only finitely many such clauses, so together with the given ones they
are a universe that the search does not leave (`Vocabulary.closedIn`). The rest is the theorem about
searches in a finite universe.

Each condition has its use. Flat literals unify without making terms deeper, so the symbols of the
given clauses are enough to write down all conclusions, and two clauses are resolved on a budget of
two. Without offsets no application fails. Factoring bounds the number of literals with one
predicate and sign, as literals that unify are merged; without it conclusions could have ever more
of them. Canonical names make the number of names depend on the number of places. That the given
clauses need not be factored or canonically named is why they are added to the universe, and not
assumed to be in it.

The rule is a variable of `Vocabulary.exists_verdict`, which asks only that it does not leave the
universe. So the search that keeps tautologies ends for the same reason.

The bound is the size of the universe, and no number is stated for it: it is exponential in the size
of the vocabulary, and a search ends long before. What is stated is that the report is one and the
same on all large budgets, and that there is no other.
-/

namespace OffsetLogic

namespace Vocabulary

variable {V : Vocabulary} {clauses : List Clause}

/-- The given clauses, and all clauses over the vocabulary with canonical names. -/
def clauseUniverse (V : Vocabulary) (clauses : List Clause) : List Clause :=
  clauses ++ clausesOver (V.literals V.names)

theorem covers_of_mem_clauseUniverse (hV : ∀ c ∈ clauses, V.Covers c) :
    ∀ c ∈ V.clauseUniverse clauses, V.Covers c := by
  intro c hc
  rcases List.mem_append.1 hc with hc | hc
  · exact hV c hc
  · exact fun t ht ↦ (mem_literals.1 (mem_clausesOver.1 hc t ht)).1

/-- Resolving two clauses of the universe completes, and all conclusions are in the universe. -/
theorem exists_resolve (hV : ∀ c ∈ clauses, V.Covers c) (n : Nat) {a b : Clause}
    (ha : a ∈ V.clauseUniverse clauses) (hb : b ∈ V.clauseUniverse clauses) :
    ∃ r, resolve (n + 2) a b = some r ∧ r.fault = none ∧
      ∀ i ∈ r.inferences, i.resolvent ∈ V.clauseUniverse clauses := by
  have ha := covers_of_mem_clauseUniverse hV a ha
  have hb := covers_of_mem_clauseUniverse hV b hb
  obtain ⟨r, hr, hf⟩ := exists_resolve_of_isFlat ha.isFlat hb.isFlat n
  refine ⟨r, hr, hf, fun i hi ↦ List.mem_append_right _ (mem_clausesOver.2 ?_)⟩
  obtain ⟨k, hk, hinfer⟩ := exists_of_mem_inferFrom hr hi
  obtain ⟨hleft, hright, hp, hn⟩ := sides_of_mem_clashes (P := V.Covers) hk
    (fun f _ h ↦ h.rename f) ha hb
  obtain ⟨d, hd, hshapes, heq⟩ := Covers.infer? hinfer hleft hright hp hn
  rw [heq]
  exact hd.over_canonicalize hshapes

/-- The universe is closed under resolution, on any budget from two on. -/
theorem closedIn (hV : ∀ c ∈ clauses, V.Covers c) (n : Nat) :
    Search.ClosedIn (resolve (n + 2)) (V.clauseUniverse clauses) := by
  intro a ha b hb
  obtain ⟨r, hr, hf, hall⟩ := exists_resolve hV n ha hb
  refine ⟨r, hr, hf, fun c hc ↦ ?_⟩
  obtain ⟨i, hi, -, rfl⟩ := mem_resolvents.1 hc
  exact hall i hi

/-- A search under a rule that does not leave the universe ends with a verdict. -/
theorem exists_verdict {infer : Nat → Clause → Clause → Budgeted Resolution} {config : Config}
    (hinfer : ∀ n, Search.ClosedIn (infer (n + 2)) (V.clauseUniverse clauses))
    (hconfig : config.isBounded = false) :
    ∃ n report verdict, refuteWith (infer n) config n clauses = some report ∧
      report.result = .ok verdict := by
  obtain ⟨hrounds, hclauses⟩ : config.maxRounds = none ∧ config.maxClauses = none := by
    simpa [Config.isBounded] using hconfig
  -- a budget that exceeds the universe by two is enough for the rounds and for the unifications
  exact ⟨_, exists_verdict_of_finite (List.subset_append_left clauses _)
    (hinfer (V.clauseUniverse clauses).length) hrounds hclauses
    (Nat.lt_add_of_pos_right Nat.two_pos)⟩

/-- The vocabulary of the given clauses is that of all their literals together. -/
theorem covers_ofLiterals (hflat : ∀ c ∈ clauses, c.isFlat .zero = true) :
    ∀ c ∈ clauses, (ofLiterals (clauses.flatMap Clause.atoms)).Covers c := by
  intro c hc t ht
  have hmem : t ∈ c.atoms := List.mem_append.2 ht
  refine isLiteral_ofLiterals (List.mem_flatMap.2 ⟨c, hc, hmem⟩) ?_
  exact List.all_eq_true.1 (hflat c hc) t hmem

end Vocabulary

/-- **A search without limits in flat clauses without offsets ends with a verdict.** From some
budget on it gives one report, and no budget gives another. -/
theorem exists_verdict_of_isFlat {config : Config} {clauses : List Clause}
    (hflat : ∀ c ∈ clauses, c.isFlat .zero = true) (hconfig : config.isBounded = false) :
    ∃ report verdict, report.result = .ok verdict ∧
      (∃ m, ∀ n, m ≤ n → refute n config clauses = some report) ∧
      ∀ n report', refute n config clauses = some report' → report' = report := by
  obtain ⟨m, report, verdict, hreport, hresult⟩ := @Vocabulary.exists_verdict _ _ resolve _
    (Vocabulary.closedIn (Vocabulary.covers_ofLiterals hflat)) hconfig
  have hreport : refute m config clauses = some report := hreport
  exact ⟨report, verdict, hresult, ⟨m, fun n hn ↦ refute_le hn config clauses _ hreport⟩,
    fun n report' ↦ refute_unique hreport⟩

/-- The clauses `p(a, b)`, `p(x, z) ← p(x, y), p(y, z)` and `¬p(b, a)`. -/
def transitive : List Clause :=
  [.ofLists [.app "p" [.const (.symbol "a"), .const (.symbol "b")]] [],
    .ofLists [.app "p" [.var "x" 0, .var "z" 0]] [.app "p" [.var "x" 0, .var "y" 0],
      .app "p" [.var "y" 0, .var "z" 0]],
    .ofLists [] [.app "p" [.const (.symbol "b"), .const (.symbol "a")]]]

/-- The relation that holds of `a` and `b` only, as a model in which offsets change nothing. -/
def onlyPair : Model String where
  shift d _ := d
  shift_zero _ := rfl
  shift_shift _ _ _ := rfl
  int _ := ""
  shift_int _ _ := rfl
  symbol a := a
  app _ ds := if ds = ["a", "b"] then "true" else "false"
  Holds d := d = "true"

/-- No two pairs of the relation can be chained, so the relation is transitive. -/
theorem satisfies_transitive : ∀ c ∈ transitive, onlyPair.Satisfies c := by
  intro c hc v
  simp only [transitive, List.mem_cons, List.not_mem_nil, or_false] at hc
  rcases hc with rfl | rfl | rfl
  · exact .inl ⟨_, SortedSet.mem_ofList.2 (List.mem_singleton_self _), rfl⟩
  · by_cases hxy : v "x" = "a" ∧ v "y" = "b"
    · refine .inr ⟨.app "p" [.var "y" 0, .var "z" 0], SortedSet.mem_ofList.2 (by simp), ?_⟩
      simp [Model.eval, Model.evalArgs, onlyPair, hxy.2]
    · refine .inr ⟨.app "p" [.var "x" 0, .var "y" 0], SortedSet.mem_ofList.2 (by simp), ?_⟩
      simp [Model.eval, Model.evalArgs, onlyPair, hxy]
  · exact .inr ⟨_, SortedSet.mem_ofList.2 (List.mem_singleton_self _),
      by simp [Model.eval, Model.evalArgs, onlyPair]⟩

/-- The search in these clauses saturates. They are satisfiable, so the verdict cannot be that they
are refuted. -/
theorem exists_verdict_transitive : ∃ report clauses stats,
    report.result = .ok (.saturated clauses stats) ∧
    (∃ m, ∀ n, m ≤ n → refute n {} transitive = some report) ∧
    ∀ n report', refute n {} transitive = some report' → report' = report := by
  obtain ⟨report, verdict, hresult, ⟨m, hreport⟩, hunique⟩ :=
    @exists_verdict_of_isFlat {} transitive (by decide +kernel) rfl
  cases verdict with
  | saturated clauses stats => exact ⟨report, clauses, stats, hresult, ⟨m, hreport⟩, hunique⟩
  | refuted derivation stats =>
    exact absurd satisfies_transitive (not_satisfies_of_refuted (hreport m (Nat.le_refl m)) hresult
      fun _ ↦ acyclic_of_runUnifier (by decide +kernel))

end OffsetLogic
