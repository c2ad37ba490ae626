import OffsetLogic.Proofs.Ground.Resolution
import OffsetLogic.Proofs.Query.Ask

/-!
# Telling what is known

A store keeps whatever it is told, also what it holds already, and a search begins with the
**distinct** clauses of its working set, in the order of their first occurrence. So a list of
clauses may name a clause again, anywhere behind its first occurrence, without any effect on the
search (`refuteWith_append_cons`).

A clause that is told again is in general not named again: it is stored with another mark on its
variables. A **ground** clause has none to be marked, so it is stored as it was, before the negated
query, and every inquiry is the same as before (`KnowledgeBase.prove_tell_of_mem`).

That the clause is told after the others matters. The negated query comes last in the working set,
so it may be equal to the clause that is told again, and then it is the query that is named again
and not the clause; in both cases the distinct clauses are those of before, in the same order. The
theorem is therefore about whole inquiries: the verdict with its derivation and its counts, the
error if there is one, and the events are the same. The store is not, since it counts the clause.
-/

namespace OffsetLogic

/-! ### Clauses that are named again -/

/-- To name a member again does not change the distinct members. -/
theorem eraseDups_append_cons {α : Type} [DecidableEq α] {l : List α} {a : α} (ha : a ∈ l)
    (l' : List α) : (l ++ a :: l').eraseDups = (l ++ l').eraseDups := by
  have hnew : (a :: l').removeAll l = l'.removeAll l :=
    List.filter_cons_of_neg (by simpa using ha)
  rw [List.eraseDups_append, List.eraseDups_append, hnew]

variable {infer : Clause → Clause → Budgeted Resolution} {config : Config} {n : Nat}

/-- A search depends on the distinct clauses of its list, in their order, and on nothing else. -/
theorem refuteWith_congr {clauses clauses' : List Clause}
    (h : clauses.eraseDups = clauses'.eraseDups) :
    refuteWith infer config n clauses = refuteWith infer config n clauses' := by
  have hany : clauses.any Clause.isEmpty = clauses'.any Clause.isEmpty := by
    rw [Bool.eq_iff_iff, List.any_eq_true, List.any_eq_true]
    simp only [← List.mem_eraseDups (l := clauses), h, List.mem_eraseDups]
  have hstart : Search.start clauses = Search.start clauses' := by
    rw [Search.start, Search.start, h]
  rw [refuteWith, refuteWith, hany, hstart]

/-- A clause that is named again does not change a search. -/
theorem refuteWith_append_cons {clauses : List Clause} {c : Clause} (hc : c ∈ clauses)
    (later : List Clause) :
    refuteWith infer config n (clauses ++ c :: later) =
      refuteWith infer config n (clauses ++ later) :=
  refuteWith_congr (eraseDups_append_cons hc later)

namespace KnowledgeBase

variable {kb : KnowledgeBase} {g query : Clause}

/-! ### Clauses that are told again -/

/-- A ground clause is stored as it is told. -/
theorem mark_of_isGround (hg : g.isGround = true) : kb.mark g = g :=
  Clause.rename_eq_self _ hg

/-- Telling a ground clause adds it at the end of the store. -/
theorem clauses_tell_of_isGround (hg : g.isGround = true) :
    (kb.tell g).clauses = kb.clauses ++ [g] := by
  rw [tell, mark_of_isGround hg]

/-- The working set of a query names a ground clause that was told again twice, and both times
before the negated query. -/
theorem workingSet_tell_of_isGround (kb : KnowledgeBase) (hg : g.isGround = true) (query : Clause) :
    ∃ negated, kb.workingSet query = kb.clauses ++ negated ∧
      (kb.tell g).workingSet query = kb.clauses ++ g :: negated := by
  unfold workingSet
  rw [clauses_tell_of_isGround hg]
  split
  · exact ⟨[], (List.append_nil _).symm, rfl⟩
  · exact ⟨_, rfl, List.append_assoc ..⟩

/-- A ground clause that is told again does not change the search of any query. -/
theorem refute_workingSet_tell (hg : g.isGround = true) (hmem : g ∈ kb.clauses) (query : Clause) :
    refute n config ((kb.tell g).workingSet query) = refute n config (kb.workingSet query) := by
  obtain ⟨negated, hbefore, hafter⟩ := workingSet_tell_of_isGround kb hg query
  rw [hbefore, hafter]
  exact refuteWith_append_cons hmem negated

/-- **Telling a known ground clause again changes no answer.** The store keeps the clause twice and
counts it, but every inquiry is the same as before on every budget: it has the same verdict, with
the same derivation and counts, or the same error, and the same events. -/
theorem prove_tell_of_mem (hg : g.isGround = true) (hmem : g ∈ kb.clauses) :
    (kb.tell g).clauses = kb.clauses ++ [g] ∧ (kb.tell g).generation = kb.generation + 1 ∧
      ∀ n query, (kb.tell g).prove n query = kb.prove n query ∧
        (kb.tell g).ask n query = kb.ask n query := by
  have hprove : ∀ n query, (kb.tell g).prove n query = kb.prove n query := by
    intro n query
    have hconfig : (kb.tell g).config = kb.config := rfl
    rw [prove, prove, hconfig, refute_workingSet_tell hg hmem]
  refine ⟨clauses_tell_of_isGround hg, rfl, fun n query ↦ ⟨hprove n query, ?_⟩⟩
  rw [ask, ask, hprove]

/-- From `f(x) ← g(x)`, `g(5)` and `¬f(5)` the query `f(5)` is proved, and after `g(5)` and `¬f(5)`
were told again it is proved in the same way, although its negation is itself a stored clause. -/
theorem prove_tell_of_mem_refuted :
    let five : Term := .const (.int 5)
    let fact := Clause.ofLists [.app "g" [five]] []
    let denial := Clause.ofLists [] [.app "f" [five]]
    let query := Clause.ofLists [.app "f" [five]] []
    let kb := ofAxioms {} [.ofLists [.app "f" [.var "x" 0]] [.app "g" [.var "x" 0]], fact, denial]
    fact ∈ kb.clauses ∧ ((kb.tell fact).tell denial).clauses.length = 5 ∧
      kb.ask 5 query = some (.ok .proved) ∧
      ((kb.tell fact).tell denial).ask 5 query = some (.ok .proved) ∧
      ((kb.tell fact).tell denial).prove 5 query = kb.prove 5 query := by
  intro five fact denial query kb
  have hfact : fact ∈ kb.clauses := by decide +kernel
  have hdenial : denial ∈ (kb.tell fact).clauses := by decide +kernel
  obtain ⟨-, -, hfirst⟩ := prove_tell_of_mem (by decide +kernel) hfact
  obtain ⟨-, -, hsecond⟩ := prove_tell_of_mem (by decide +kernel) hdenial
  have hask : kb.ask 5 query = some (.ok .proved) := ask_eq_ok_of_toOption (by decide +kernel)
  refine ⟨hfact, by decide +kernel, hask, ?_, (hsecond 5 query).1.trans (hfirst 5 query).1⟩
  rw [(hsecond 5 query).2, (hfirst 5 query).2, hask]

end KnowledgeBase

end OffsetLogic
