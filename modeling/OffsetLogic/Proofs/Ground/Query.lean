import OffsetLogic.Proofs.Ground.Search
import OffsetLogic.Proofs.Query.Ask
import OffsetLogic.Proofs.Search.Budget

/-!
# Queries about ground clauses are decided

A search in ground clauses decides whether they hold together in an assignment
(`exists_verdict_of_ground`), and a query is searched as its negation, together with the stored
clauses. Asking a ground query therefore **decides entailment** (`KnowledgeBase.Decides`).

What an answer means depends on the signs of the query, so `Decides` has one field for each case. A
query with literals of both signs is left undetermined, and no other one is. A query of one sign is
proved exactly when each of its literals follows from the stored clauses, a negative one when its
atoms are false; that a disjunction is read as a conjunction is seen in `holdsIn_negate_iff`. The
empty query is proved exactly when the stored clauses hold in no assignment.

Entailment is stated with assignments of truth values to terms. For ground clauses that is no loss:
no literal of them has an instance but itself, so what a model says about their atoms is an
assignment, and every assignment to finitely many atoms comes about in this way.

The answer is the same on every budget that gives one, and every larger budget gives it too. So the
statement has one answer and two bounds on when it is given, where an existential budget alone would
allow a search that changes its mind.
-/

namespace OffsetLogic

/-! ### Answers to ground queries -/

namespace KnowledgeBase

variable {kb : KnowledgeBase} {query : Clause} {I : Term → Prop}

/-- All stored clauses hold in the assignment. -/
def HoldsIn (kb : KnowledgeBase) (I : Term → Prop) : Prop := ∀ c ∈ kb.clauses, c.HoldsIn I

/-- The answer says what follows from the stored clauses. -/
structure Decides (kb : KnowledgeBase) (query : Clause) (answer : Answer) : Prop where
  /-- Only queries with literals of both signs are left undetermined. -/
  undetermined_iff : answer = .undetermined ↔ query.pos ≠ ∅ ∧ query.neg ≠ ∅
  /-- A query of one sign is proved when every assignment in which the stored clauses hold makes all
  its literals true. -/
  proved_iff : query ≠ ∅ → query.pos = ∅ ∨ query.neg = ∅ → (answer = .proved ↔
    ∀ I, kb.HoldsIn I → (∀ t, t ∈ query.pos → I t) ∧ ∀ t, t ∈ query.neg → ¬ I t)
  /-- The empty query is proved when the stored clauses hold in no assignment. -/
  proved_empty_iff : query = ∅ → (answer = .proved ↔ ¬ ∃ I, kb.HoldsIn I)
  /-- A query that is neither undetermined nor proved is not proved. -/
  eq_notProved : ¬ (query.pos ≠ ∅ ∧ query.neg ≠ ∅) → answer ≠ .proved → answer = .notProved

/-- The negation of a query of one sign holds where not all of its literals are true. -/
theorem holdsIn_negate_iff {c : Clause} (hc : c.pos = ∅ ∨ c.neg = ∅) :
    c.negate.HoldsIn I ↔ ¬ ((∀ t, t ∈ c.pos → I t) ∧ ∀ t, t ∈ c.neg → ¬ I t) := by
  rcases hc with hc | hc <;> simp [Clause.HoldsIn, Clause.negate, hc]

/-- The working set of a ground query holds where the stored clauses do and the query does not. -/
theorem holdsIn_workingSet_iff (hground : query.isGround = true) (hquery : query ≠ ∅)
    (hsign : query.pos = ∅ ∨ query.neg = ∅) : (∀ c ∈ kb.workingSet query, c.HoldsIn I) ↔
      kb.HoldsIn I ∧ ¬ ((∀ t, t ∈ query.pos → I t) ∧ ∀ t, t ∈ query.neg → ¬ I t) := by
  have hempty : ¬ query.isEmpty = true := fun h ↦ hquery (Clause.isEmpty_iff.1 h)
  rw [workingSet, if_neg hempty, List.forall_mem_append, List.forall_mem_singleton,
    Clause.renameSuffix, Clause.rename_eq_self _ hground, holdsIn_negate_iff hsign]
  exact Iff.rfl

/-- A ground query adds a ground clause to the working set. -/
theorem isGround_of_mem_workingSet (hkb : ∀ c ∈ kb.clauses, c.isGround = true)
    (hground : query.isGround = true) : ∀ c ∈ kb.workingSet query, c.isGround = true := by
  intro c hc
  rw [workingSet] at hc
  split at hc
  · exact hkb c hc
  · rcases List.mem_append.1 hc with hc | hc
    · exact hkb c hc
    · rw [List.mem_singleton.1 hc, Clause.renameSuffix, Clause.rename_eq_self _ hground]
      exact Clause.isGround_iff.2 fun t ht ↦ Clause.isGround_iff.1 hground t ht.symm

/-- On ground clauses some budget gives an answer, and that is the right one. -/
theorem exists_ask_decides (hkb : ∀ c ∈ kb.clauses, c.isGround = true)
    (hground : query.isGround = true) (hrounds : kb.config.maxRounds = none)
    (hclauses : kb.config.maxClauses = none) :
    ∃ n answer, kb.ask n query = some (.ok answer) ∧ kb.Decides query answer := by
  by_cases hmixed : query.pos ≠ ∅ ∧ query.neg ≠ ∅
  -- nothing is searched, so no budget is needed
  · refine ⟨0, .undetermined, ask_mixed hmixed.1 hmixed.2, iff_of_true rfl hmixed, ?_, ?_, ?_⟩
    · exact fun _ h ↦ absurd h fun h ↦ h.elim hmixed.1 hmixed.2
    · rintro rfl
      exact absurd rfl hmixed.1
    · exact fun h ↦ absurd hmixed h
  · have hsign : query.pos = ∅ ∨ query.neg = ∅ := by
      by_cases hpos : query.pos = ∅
      · exact .inl hpos
      · exact .inr (Decidable.byContradiction fun hneg ↦ hmixed ⟨hpos, hneg⟩)
    obtain ⟨n, report, verdict, hreport, hresult, hiff⟩ := exists_verdict_of_ground
      (fun _ _ ↦ propositional_resolve) (isGround_of_mem_workingSet hkb hground) hrounds hclauses
    have hreport : refute n kb.config (kb.workingSet query) = some report := hreport
    refine ⟨n, Answer.ofVerdict? (some verdict), ?_, ?_, ?_, ?_, ?_⟩
    · rw [ask_eq hsign, hreport, Option.map_some, hresult]
      rfl
    · refine iff_of_false (fun h ↦ ?_) hmixed
      rw [Answer.ofVerdict?] at h
      split at h <;> cases h
    · intro hquery _
      rw [ofVerdict?_eq_proved_iff, hiff]
      simp only [holdsIn_workingSet_iff hground hquery hsign, not_exists, not_and_not_right]
    · rintro rfl
      rw [ofVerdict?_eq_proved_iff, hiff]
      exact Iff.rfl
    · intro _ h
      rw [ofVerdict?_eq_notProved_iff]
      exact Bool.eq_false_iff.2 fun hr ↦ h (ofVerdict?_eq_proved_iff.2 hr)

/-- **Asking ground queries decides entailment.** When all clauses that were told and the query are
ground, asking comes to one answer on every budget that suffices, it never fails, and the answer
says what follows from the stored clauses. -/
theorem decides_of_ground {told : List Clause} {query : Clause}
    (htold : ∀ c ∈ told, c.isGround = true) (hquery : query.isGround = true) :
    ∃ answer, (∃ N, ∀ n ≥ N, (ofAxioms {} told).ask n query = some (.ok answer)) ∧
      (∀ n result, (ofAxioms {} told).ask n query = some result → result = .ok answer) ∧
      (ofAxioms {} told).Decides query answer := by
  have hkb : ∀ c ∈ (ofAxioms {} told).clauses, c.isGround = true := by
    intro c hc
    obtain ⟨d, hd, suffix, rfl⟩ := mem_clauses_ofAxioms hc
    exact Clause.isGround_rename _ (htold d hd)
  obtain ⟨N, answer, hask, hdecides⟩ := exists_ask_decides hkb hquery
    (by rw [config_ofAxioms]) (by rw [config_ofAxioms])
  have hbudget : ∀ n ≥ N, (ofAxioms {} told).ask n query = some (.ok answer) := fun n hn ↦
    ask_le hn _ query _ hask
  refine ⟨answer, ⟨N, hbudget⟩, fun n result hresult ↦ ?_, hdecides⟩
  -- both answers are answers on the larger of the two budgets
  have hmax := ask_le (Nat.le_max_left n N) _ query _ hresult
  rw [hbudget _ (Nat.le_max_right n N)] at hmax
  exact (Option.some.inj hmax).symm

/-- From `a ∨ b` and `¬a` the query `b` is proved, and so it is true wherever both hold. -/
theorem decides_disjunction : ∃ answer,
    (∃ N, ∀ n ≥ N, (ofAxioms {} [.ofLists [.app "a" [], .app "b" []] [],
      .ofLists [] [.app "a" []]]).ask n (.ofLists [.app "b" []] []) = some (.ok answer)) ∧
    answer = .proved := by
  have htold : ∀ c ∈ [Clause.ofLists [.app "a" [], .app "b" []] [], .ofLists [] [.app "a" []]],
      c.isGround = true := by decide +kernel
  have hquery : (Clause.ofLists [.app "b" []] []).isGround = true := by decide +kernel
  obtain ⟨answer, hbudget, hsame, -⟩ := decides_of_ground htold hquery
  have hask : (ofAxioms {} [.ofLists [.app "a" [], .app "b" []] [],
      .ofLists [] [.app "a" []]]).ask 5 (.ofLists [.app "b" []] []) = some (.ok .proved) :=
    ask_eq_ok_of_toOption (by decide +kernel)
  exact ⟨answer, hbudget, (Except.ok.inj (hsame _ _ hask)).symm⟩

end KnowledgeBase

end OffsetLogic
