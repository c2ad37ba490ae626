import OffsetLogic.KnowledgeBase

/-!
# Queries as searches

What a store holds after it was told a list of clauses (`mem_clauses_ofAxioms`), and what asking a
query comes to: a query with literals of both signs is not searched, and the answer to another one
is read off the search of the working set (`ask_eq`).

A query is asked in layers, each of which can end it: the test of its signs, the budget, the error
of a search, the verdict. **Every other module on queries goes through the equations here** and
opens none of the layers again. From an answer the way leads back to the search that gave it. An
error of asking is the error of the inquiry, and that is the error of the search
(`exists_prove_of_ask`, `exists_refute_of_prove`); the answer that a query is not proved is a search
that saturated (`exists_saturated_of_notProved`).

Of the stored clauses only this is said here: each is a clause that was told, with its variables
marked. That is enough for properties which renaming respects. Which mark it is, and that the marks
keep the clauses apart, is the subject of `OffsetLogic.Proofs.Renaming.Apart`.
-/

namespace OffsetLogic.KnowledgeBase

variable {kb : KnowledgeBase} {config : Config} {told : List Clause} {query c : Clause} {n : Nat}

/-! ### Telling -/

theorem config_tellAll (kb : KnowledgeBase) (told : List Clause) :
    (kb.tellAll told).config = kb.config := by
  induction told generalizing kb with
  | nil => rfl
  | cons c told ih => exact ih (kb.tell c)

/-- What a store holds it held before, or it was told since and has its variables marked. -/
theorem mem_clauses_tellAll (h : c ∈ (kb.tellAll told).clauses) :
    c ∈ kb.clauses ∨ ∃ d ∈ told, ∃ suffix, c = d.renameSuffix suffix := by
  induction told generalizing kb with
  | nil => exact .inl h
  | cons d told ih =>
    have hstored : c ∈ ((kb.tell d).tellAll told).clauses := h
    rcases ih hstored with h | ⟨d', hd', hc⟩
    · rcases List.mem_append.1 h with h | h
      · exact .inl h
      · exact .inr ⟨d, List.mem_cons_self, _, List.mem_singleton.1 h⟩
    · exact .inr ⟨d', List.mem_cons_of_mem _ hd', hc⟩

/-- A stored clause is a told clause with its variables marked. -/
theorem mem_clauses_ofAxioms (h : c ∈ (ofAxioms config told).clauses) :
    ∃ d ∈ told, ∃ suffix, c = d.renameSuffix suffix :=
  (mem_clauses_tellAll h).resolve_left List.not_mem_nil

@[simp] theorem config_ofAxioms : (ofAxioms config told).config = config := config_tellAll _ _

/-! ### Asking -/

/-- An answer is decided by comparing answers, whatever the errors are. -/
theorem ask_eq_ok_of_toOption {answer : Answer}
    (h : (kb.ask n query).map Except.toOption = some (some answer)) :
    kb.ask n query = some (.ok answer) := by
  obtain ⟨result, hresult, h⟩ := Option.map_eq_some_iff.1 h
  cases result with
  | error e => cases h
  | ok a => rw [hresult, Option.some.inj h]

/-- Proved means that the search refuted its clauses. -/
theorem ofVerdict?_eq_proved_iff {v : Verdict} :
    Answer.ofVerdict? (some v) = .proved ↔ v.isRefuted = true := by
  rw [Answer.ofVerdict?]
  split <;> simp_all

/-- Not proved means that the search ended without refuting its clauses. -/
theorem ofVerdict?_eq_notProved_iff {v : Verdict} :
    Answer.ofVerdict? (some v) = .notProved ↔ v.isRefuted = false := by
  rw [Answer.ofVerdict?]
  split <;> simp_all

/-- A query with literals of both signs is not searched. -/
theorem ask_mixed (hpos : query.pos ≠ ∅) (hneg : query.neg ≠ ∅) :
    kb.ask n query = some (.ok .undetermined) := by
  have hmixed : (!query.pos.isEmpty && !query.neg.isEmpty) = true := by
    simp [← Bool.not_eq_true, SortedSet.isEmpty_iff, hpos, hneg]
  rw [ask, prove, if_pos hmixed]
  rfl

/-- Another query is answered by searching the working set. -/
theorem ask_eq (h : query.pos = ∅ ∨ query.neg = ∅) :
    kb.ask n query = (refute n kb.config (kb.workingSet query)).map fun report ↦
      (fun v ↦ Answer.ofVerdict? (some v)) <$> report.result := by
  have hmixed : ¬ (!query.pos.isEmpty && !query.neg.isEmpty) = true := by
    rcases h with h | h <;> simp [SortedSet.isEmpty_iff.2 h]
  rw [ask, prove, if_neg hmixed]
  cases refute n kb.config (kb.workingSet query) with
  | none => rfl
  | some report =>
    obtain ⟨stats, events, e | v⟩ := report <;> rfl

/-- An inquiry fails with the error of its search. -/
theorem exists_refute_of_prove {inquiry : Inquiry} {e : SearchError}
    (h : kb.prove n query = some inquiry) (he : inquiry.result = .error e) :
    ∃ report, refute n kb.config (kb.workingSet query) = some report ∧
      report.result = .error e := by
  rw [prove] at h
  split at h
  · cases h
    cases he
  · obtain ⟨⟨stats, events, e' | v⟩, hreport, h⟩ := Option.bind_eq_some_iff.1 h
    · obtain rfl := Option.some.inj h
      obtain rfl := Except.error.inj he
      exact ⟨_, hreport, rfl⟩
    · obtain rfl := Option.some.inj h
      cases he

/-- Asking fails with the error of the inquiry. -/
theorem exists_prove_of_ask {e : SearchError} (h : kb.ask n query = some (.error e)) :
    ∃ inquiry, kb.prove n query = some inquiry ∧ inquiry.result = .error e := by
  obtain ⟨⟨e' | v, events⟩, hinquiry, h⟩ := Option.map_eq_some_iff.1 h
  · cases h
    exact ⟨_, hinquiry, rfl⟩
  · cases h

/-- A query of one sign is not proved only when the search saturates. -/
theorem exists_saturated_of_notProved (h : query.pos = ∅ ∨ query.neg = ∅)
    (hask : kb.ask n query = some (.ok .notProved)) :
    ∃ report k stats, refute n kb.config (kb.workingSet query) = some report ∧
      report.result = .ok (.saturated k stats) := by
  rw [ask_eq h] at hask
  obtain ⟨report, hreport, hask⟩ := Option.map_eq_some_iff.1 hask
  cases hresult : report.result with
  | error e =>
    rw [hresult] at hask
    cases hask
  | ok verdict =>
    rw [hresult] at hask
    cases verdict with
    | refuted => cases hask
    | saturated k stats => exact ⟨report, k, stats, hreport, hresult⟩

end OffsetLogic.KnowledgeBase
