import OffsetLogic.Proofs.Search.Known

/-!
# Searches in a finite universe

When all clauses that can be inferred lie in a finite list, and inferring never fails, a search
without limits comes to a verdict. Known clauses are distinct, so there are never more of them than
the universe has, and a round that does not end the search makes one more clause known. A budget
beyond the size of the universe is therefore enough (`exists_verdict_of_finite`).

The universe is a list and a variable of the theorem, and so is the rule. Whoever uses it says what
the universe is and shows that the rule does not leave it (`Search.ClosedIn`): the clauses over some
atoms for ground clauses, and the clauses over a vocabulary with canonical names for flat ones.

A step of such a search concludes (`Search.Concludes`): it goes on, or it ends the search with a
verdict. There is no third case, since the rule answers without an error, so what remains is that
rounds come to an end. The induction is on the budget, and its measure is the number of clauses that
are not yet known.
-/

namespace OffsetLogic

namespace Search

variable {infer : Clause → Clause → Budgeted Resolution} {config : Config} {n : Nat}
variable {clauses all : List Clause} {st st' : Search} {pair : ProofTree × ProofTree}
variable {todo : List (ProofTree × ProofTree)}

/-- Resolving members of the list completes, and gives members of it. -/
def ClosedIn (infer : Clause → Clause → Budgeted Resolution) (all : List Clause) : Prop :=
  ∀ a ∈ all, ∀ b ∈ all, ∃ r, infer a b = some r ∧ r.fault = none ∧ r.resolvents ⊆ all

/-- A step of a search gives an answer, and if it ends the search, it ends it with a verdict. -/
def Concludes {α : Type} (step : Budgeted (Except Report α)) : Prop :=
  (∃ a, step = some (.ok a)) ∨ ∃ report verdict, step = some (.error report) ∧
    report.result = .ok verdict

/-- All clauses of a run stay in the list. -/
theorem Reached.mem_of_closedIn (h : Reached infer config clauses st todo) (hall : clauses ⊆ all)
    (hclosed : ClosedIn infer all) : ∀ t ∈ st.trees, t.clause ∈ all := by
  refine h.clause_induction (P := (· ∈ all)) hall fun st pair todo c _ ha hb hc ↦ ?_
  obtain ⟨r, hr, -, hmem⟩ := hc
  obtain ⟨r', hr', -, hsub⟩ := hclosed _ ha _ hb
  rw [hr] at hr'
  cases hr'
  exact hsub hmem

/-- Resolving a pair completes, so a search that ends at it has met the empty clause. -/
theorem concludes_examine (hclosed : ClosedIn infer all) (hl : pair.1.clause ∈ all)
    (hr : pair.2.clause ∈ all) : Concludes (st.examine infer config pair).run := by
  obtain ⟨r, hinfer, hf, -⟩ := hclosed _ hl _ hr
  rw [examine_run, hinfer, Option.map_some, hf]
  dsimp only
  cases h : r.resolvents.foldlM (absorb config pair.1 pair.2) (st.record r) with
  | ok st' => exact .inl ⟨st', rfl⟩
  | error report =>
    obtain ⟨-, _, hreport⟩ := foldlM_absorb_eq_error h
    exact .inr ⟨report, _, rfl, hreport⟩

/-- The pairs of a round are examined one after another; each is a pair of known clauses when its
turn comes, which lie in the universe. -/
theorem concludes_foldlM (hall : clauses ⊆ all) (hclosed : ClosedIn infer all)
    (h : Reached infer config clauses st todo) :
    Concludes (todo.foldlM (Search.examine infer config) st).run := by
  induction todo generalizing st with
  | nil => exact .inl ⟨st, rfl⟩
  | cons pair todo ih =>
    have hpair := h.consistent.mem_known
    have hknown := st.known_subset_trees
    have hmem := h.mem_of_closedIn hall hclosed
    rw [List.foldlM_cons, ExceptT.run_bind]
    have hfirst : Concludes (st.examine infer config pair).run :=
      concludes_examine hclosed (hmem _ (hknown hpair.1)) (hmem _ (hknown hpair.2))
    obtain ⟨st₁, hst₁⟩ | ⟨report, verdict, hreport, hverdict⟩ := hfirst
    · rw [hst₁]
      exact ih (h.examine hst₁)
    · rw [hreport]
      exact .inr ⟨report, verdict, rfl, hverdict⟩

/-- There are no more known clauses than there are in the universe. -/
theorem Reached.length_trees_le (h : Reached infer config clauses st todo) (hall : clauses ⊆ all)
    (hclosed : ClosedIn infer all) : st.trees.length ≤ all.length := by
  have hsub : st.trees.map ProofTree.clause ⊆ all := by
    intro c hc
    obtain ⟨t, ht, rfl⟩ := List.mem_map.1 hc
    exact h.mem_of_closedIn hall hclosed t ht
  simpa using h.consistent.nodup.length_le_of_subset hsub

/-- Without a limit of clauses a round that ends the search has found nothing. -/
theorem concludes_finish (hclauses : config.maxClauses = none) (st : Search) :
    (∃ st', st.finish config = .ok st') ∨ ∃ report verdict, st.finish config = .error report ∧
      report.result = .ok verdict := by
  unfold finish
  dsimp only
  split
  · exact .inr ⟨_, _, rfl, rfl⟩
  · rw [hclauses]
    exact .inl ⟨_, rfl⟩

/-- Rounds end with a verdict when the budget exceeds the number of clauses that are not yet
known. -/
theorem exists_verdict_of_saturate (hall : clauses ⊆ all) (hclosed : ClosedIn infer all)
    (hrounds : config.maxRounds = none) (hclauses : config.maxClauses = none)
    (hst : Ready infer config clauses st)
    (hn : all.length < n + st.known.length) :
    ∃ report verdict, saturate infer config n st = some report ∧ report.result = .ok verdict := by
  induction n generalizing st with
  | zero =>
    -- without budget, more clauses would be known than the universe has
    have hbegin : st.begin config = .ok _ :=
      begin_eq_ok_iff.2 ⟨by rw [hrounds, Config.exceeds], rfl⟩
    have hlen := (hst.begin hbegin).length_trees_le hall hclosed
    rw [trees, List.length_append] at hlen
    have : st.known.length ≤ all.length := Nat.le_trans (Nat.le_add_right _ _) hlen
    omega
  | succ n ih =>
    obtain ⟨st₁, hst₁⟩ : ∃ st₁, st.begin config = .ok st₁ :=
      ⟨_, begin_eq_ok_iff.2 ⟨by rw [hrounds, Config.exceeds], rfl⟩⟩
    have hknown : st₁.known = st.known := by
      obtain ⟨-, rfl⟩ := begin_eq_ok_iff.1 hst₁
      rfl
    rw [saturate, round_run, hst₁]
    dsimp only
    obtain ⟨st₂, hst₂⟩ | ⟨report, verdict, hreport, hverdict⟩ :=
      concludes_foldlM hall hclosed (hst.begin hst₁)
    · have hreach := (hst.begin hst₁).of_foldlM hst₂
      rw [hst₂, Option.map_some]
      obtain ⟨st₃, hst₃⟩ | ⟨report, verdict, hreport, hverdict⟩ := concludes_finish hclauses st₂
      · obtain ⟨hfresh, -, rfl⟩ := finish_eq_ok_iff.1 hst₃
        -- a round that goes on has found a clause, so less budget is needed
        have hmore : st.known.length < st₂.advance.known.length := by
          rw [known_advance, trees, List.length_append, known_of_foldlM hst₂, hknown]
          exact Nat.lt_add_of_pos_right (List.length_pos_iff.2 hfresh)
        simp only [Except.bind, hst₃]
        exact ih (.next hreach hst₃) (by omega)
      · simp only [Except.bind, hreport]
        exact ⟨report, verdict, rfl, hverdict⟩
    · rw [hreport]
      exact ⟨report, verdict, rfl, hverdict⟩

end Search

/-- **A search in a finite universe comes to a verdict**, on any budget beyond its size. -/
theorem exists_verdict_of_finite {infer : Clause → Clause → Budgeted Resolution} {config : Config}
    {n : Nat} {clauses all : List Clause} (hall : clauses ⊆ all)
    (hclosed : Search.ClosedIn infer all) (hrounds : config.maxRounds = none)
    (hclauses : config.maxClauses = none) (hn : all.length < n) :
    ∃ report verdict, refuteWith infer config n clauses = some report ∧
      report.result = .ok verdict := by
  unfold refuteWith
  dsimp only
  split
  · exact ⟨_, _, rfl, rfl⟩
  · rename_i hempty
    exact Search.exists_verdict_of_saturate hall hclosed hrounds hclauses
      (.start (by simpa using hempty)) (by omega)

end OffsetLogic
