import OffsetLogic.Proofs.Query.Ask
import OffsetLogic.Proofs.Resolution.OffsetFree

/-!
# Searching without offsets

A shift error ends a search at once, whatever else the search would have found. When no clause that
is given has an offset, this cannot happen: no clause that the search makes has one
(`Search.Reached.isOffsetFree`), so resolving a pair always completes. Marking variables, negating a
query and naming variables canonically leave offsets alone, so the same holds of queries to a store
without offsets.

**Nothing is assumed of the unifiers.** Terms may be nested to any depth, and a unifier may bind a
variable to a term in which the variable occurs. What it binds has no offsets all the same, and
applying it replaces no variable that was shifted, so there is nothing to shift. This is proved in
`OffsetLogic.Proofs.Resolution.OffsetFree`, one operation at a time; here it is carried through runs
and queries.

The statement does not say that the search ends. A budget may be too small for any answer, and then
there is no error either; if there is an answer on some budget, it is a verdict or a limit.

The example is one in which a variable is bound to a term that contains it, so that the result is
not only about unifiers that can be drawn as finite terms.
-/

namespace OffsetLogic

variable {n : Nat} {config : Config} {clauses : List Clause} {report : Report} {err : ShiftError}

namespace Search

variable {st : Search} {todo : List (ProofTree × ProofTree)} {pair : ProofTree × ProofTree}

/-- No clause of the search has an offset. -/
theorem Reached.isOffsetFree (h : Reached (resolve n) config clauses st todo)
    (hfree : ∀ c ∈ clauses, c.isOffsetFree = true) :
    ∀ t ∈ st.trees, t.clause.isOffsetFree = true := by
  refine h.clause_induction (P := fun c ↦ c.isOffsetFree = true) hfree ?_
  rintro st pair todo c - hl hr ⟨r, hres, -, hc⟩
  obtain ⟨i, hi, -, rfl⟩ := mem_resolvents.1 hc
  exact isOffsetFree_of_mem_resolve hl hr hres hi

theorem Reached.isOffsetFree_of_pair (h : Reached (resolve n) config clauses st (pair :: todo))
    (hfree : ∀ c ∈ clauses, c.isOffsetFree = true) :
    pair.1.clause.isOffsetFree = true ∧ pair.2.clause.isOffsetFree = true := by
  have hpair := h.consistent.mem_known
  have hall := h.isOffsetFree hfree
  exact ⟨hall _ (st.known_subset_trees hpair.1), hall _ (st.known_subset_trees hpair.2)⟩

end Search

/-- A search ends with a shift error only when a pair does. -/
theorem refute_ne_shift (hfree : ∀ c ∈ clauses, c.isOffsetFree = true)
    (h : refute n config clauses = some report) : report.result ≠ .error (.shift err) := by
  intro hr
  obtain ⟨st, pair, todo, r, hreach, hres, hf⟩ := (Search.ended_of_refuteWith h).shift hr
  obtain ⟨hl, hr⟩ := hreach.isOffsetFree_of_pair hfree
  cases (fault_of_resolve hl hr hres).symm.trans hf

namespace KnowledgeBase

variable {kb : KnowledgeBase} {query : Clause}

/-- What is searched for a query are the clauses of the store and the negated query, with their
variables marked. -/
theorem isOffsetFree_of_mem_workingSet (hkb : ∀ c ∈ kb.clauses, c.isOffsetFree = true)
    (hquery : query.isOffsetFree = true) :
    ∀ c ∈ kb.workingSet query, c.isOffsetFree = true := by
  intro c hc
  unfold workingSet at hc
  split at hc
  · exact hkb c hc
  · rcases List.mem_append.1 hc with hc | hc
    · exact hkb c hc
    · rw [List.mem_singleton.1 hc]
      exact Clause.isOffsetFree_negate (Clause.isOffsetFree_rename _ hquery)

/-- A query is one search in these clauses. -/
theorem prove_ne_shift (hkb : ∀ c ∈ kb.clauses, c.isOffsetFree = true)
    (hquery : query.isOffsetFree = true) {inquiry : Inquiry}
    (h : kb.prove n query = some inquiry) : inquiry.result ≠ .error (.shift err) := by
  intro he
  obtain ⟨report, hreport, he⟩ := exists_refute_of_prove h he
  exact refute_ne_shift (isOffsetFree_of_mem_workingSet hkb hquery) hreport he

theorem ask_ne_shift (hkb : ∀ c ∈ kb.clauses, c.isOffsetFree = true)
    (hquery : query.isOffsetFree = true) : kb.ask n query ≠ some (.error (.shift err)) := by
  intro h
  obtain ⟨inquiry, hinquiry, he⟩ := exists_prove_of_ask h
  exact prove_ne_shift hkb hquery hinquiry he

end KnowledgeBase

/-- **Without offsets no shift fails.** Factoring and resolving clauses without offsets never end in
a shift error, and what they make has no offsets. The same holds of a search under any limits: its
clauses have no offsets, nor have the conclusions of the pairs that it examines, before they are
factored, afterwards, and with their canonical names. So neither searches nor queries to a store
without offsets end in a shift error. -/
theorem isOffsetFree_and_ne_shift (n : Nat) :
    (∀ c : Clause, c.isOffsetFree = true → (∀ err, (c.factor n).run ≠ some (.error err)) ∧
      ∀ d, (c.factor n).run = some (.ok d) → d.isOffsetFree = true) ∧
    (∀ c d : Clause, c.isOffsetFree = true → d.isOffsetFree = true →
      (∀ err, resolvents n c d ≠ some (.error err)) ∧
      ∀ l, resolvents n c d = some (.ok l) → ∀ e ∈ l, e.isOffsetFree = true) ∧
    (∀ config clauses, (∀ c ∈ clauses, c.isOffsetFree = true) →
      (∀ st todo, Search.Reached (resolve n) config clauses st todo →
        ∀ t ∈ st.trees, t.clause.isOffsetFree = true) ∧
      (∀ st pair todo, Search.Reached (resolve n) config clauses st (pair :: todo) →
        ∀ k ∈ clashes pair.1.clause pair.2.clause, ∀ c, k.Makes n c → c.isOffsetFree = true) ∧
      ∀ report err, refute n config clauses = some report →
        report.result ≠ .error (.shift err)) ∧
    ∀ (kb : KnowledgeBase) (query : Clause), (∀ c ∈ kb.clauses, c.isOffsetFree = true) →
      query.isOffsetFree = true →
      (∀ inquiry err, kb.prove n query = some inquiry → inquiry.result ≠ .error (.shift err)) ∧
      ∀ err, kb.ask n query ≠ some (.error (.shift err)) := by
  refine ⟨fun c hc ↦ ⟨fun err ↦ Clause.factor_ne_error hc,
      fun d ↦ Clause.isOffsetFree_of_factor hc⟩,
    fun c d hc hd ↦ ⟨fun err ↦ resolvents_ne_error hc hd, fun l hl e he ↦ ?_⟩,
    fun config clauses hfree ↦ ⟨fun st todo h ↦ h.isOffsetFree hfree,
      fun st pair todo h k hk c hc ↦ ?_, fun report err ↦ refute_ne_shift hfree⟩,
    fun kb query hkb hquery ↦ ⟨fun inquiry err ↦ KnowledgeBase.prove_ne_shift hkb hquery,
      fun err ↦ KnowledgeBase.ask_ne_shift hkb hquery⟩⟩
  · obtain ⟨r, hr, -, rfl⟩ := resolvents_eq_ok hl
    obtain ⟨i, hi, -, rfl⟩ := mem_resolvents.1 he
    exact isOffsetFree_of_mem_resolve hc hd hr hi
  · obtain ⟨hl, hr⟩ := h.isOffsetFree_of_pair hfree
    exact hc.isOffsetFree (plainOver_of_mem_clashes hl hr hk)

/-- The clauses `p(x, x) ∨ q(x)` and `¬p(y, f(y))` are resolved under bindings in which `x` stands
for itself in `f(x)`. The resolvent is `q(f(_0))`, a search makes it from the pair that it examines
first, and so `q(f(a))` is proved. Factoring `q(x) ∨ q(f(x))`, whose literals unify in the same way,
keeps both. -/
theorem isOffsetFree_and_ne_shift_cyclic :
    let f (t : Term) : Term := .app "f" [t]
    let q (t : Term) : Term := .app "q" [t]
    let c := Clause.ofLists [.app "p" [.var "x" 0, .var "x" 0], q (.var "x" 0)] []
    let d := Clause.ofLists [] [.app "p" [.var "y" 0, f (.var "y" 0)]]
    let e := Clause.ofLists [q (f (.var "_0" 0))] []
    let both := Clause.ofLists [q (.var "x" 0), q (f (.var "x" 0))] []
    let query := Clause.ofLists [q (f (.const (.symbol "a")))] []
    let kb := KnowledgeBase.ofAxioms {} [c, d]
    let clauses := [c, d, query.negate]
    ((both.factor 4).run = some (.ok both) ∧ both.isOffsetFree = true) ∧
      (resolvents 4 c d = some (.ok [e]) ∧ e.isOffsetFree = true) ∧
      (∃ st todo k, Search.Reached (resolve 4) {} clauses st ((.given c, .given d) :: todo) ∧
        k ∈ clashes c d ∧ k.Makes 4 e ∧ e.isOffsetFree = true) ∧
      (∃ report, refute 4 {} clauses = some report ∧
        ∀ err, report.result ≠ .error (.shift err)) ∧
      kb.ask 4 query = some (.ok .proved) ∧ ∀ err, kb.ask 4 query ≠ some (.error (.shift err)) := by
  intro f q c d e both query kb clauses
  obtain ⟨hfactor, hresolve, hrefute, hask⟩ := isOffsetFree_and_ne_shift 4
  have hboth : (both.factor 4).run = some (.ok both) := by decide +kernel
  have hcd : resolvents 4 c d = some (.ok [e]) := by decide +kernel
  have hclauses : ∀ e ∈ clauses, e.isOffsetFree = true := by decide +kernel
  have hstored : ∀ e ∈ kb.clauses, e.isOffsetFree = true := by decide +kernel
  refine ⟨⟨hboth, (hfactor both (by decide +kernel)).2 both hboth⟩, ⟨hcd, ?_⟩, ?_, ?_, ?_, ?_⟩
  · exact (hresolve c d (by decide +kernel) (by decide +kernel)).2 _ hcd e List.mem_cons_self
  · have hdups : clauses.eraseDups = clauses := by decide +kernel
    have hreach : ∃ st todo,
        Search.Reached (resolve 4) {} clauses st ((.given c, .given d) :: todo) := by
      have h : Search.Reached (resolve 4) {} clauses _ _ := .start (by decide +kernel) rfl
      simp only [Search.start, hdups] at h
      exact ⟨_, _, h⟩
    obtain ⟨st, todo, hreach⟩ := hreach
    obtain ⟨r, hr, -, hl⟩ := resolvents_eq_ok hcd
    obtain ⟨i, hi, -, he⟩ := mem_resolvents.1 (hl ▸ List.mem_singleton_self e)
    obtain ⟨k, hk, hinfer⟩ := exists_of_mem_inferFrom hr hi
    have hmakes : k.Makes 4 e := he ▸ Clash.makes_of_infer? hinfer
    exact ⟨st, todo, k, hreach, hk, hmakes,
      (hrefute {} clauses hclauses).2.1 st _ todo hreach k hk e hmakes⟩
  · obtain ⟨report, hreport⟩ : ∃ report, refute 4 {} clauses = some report :=
      Option.isSome_iff_exists.1 (by decide +kernel)
    exact ⟨report, hreport, fun err ↦ (hrefute {} clauses hclauses).2.2 report err hreport⟩
  · exact KnowledgeBase.ask_eq_ok_of_toOption (by decide +kernel)
  · exact (hask kb query hstored (by decide +kernel)).2

end OffsetLogic
