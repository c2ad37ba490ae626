import OffsetLogic.Proofs.Resolution.Flat
import OffsetLogic.Proofs.Semantics.Acyclic

/-!
# Soundness of refutation

A refuted list of clauses has no model, **provided that the unifiers of the run are acyclic**. Which
unifiers these are is said by `RunUnifier`: those of clashing literals, and those that are tried
when a conclusion is factored. Unifiers that only decide whether a conclusion is tautological do not
matter, since nothing is concluded with them.

Every stage of an inference keeps models: renaming apart, removing the clashing literals and
applying their unifier (`Clash.holdsIn_remainder`), merging literals (`Clause.Factored.satisfies`)
and renaming again. So a model of the given clauses is one of every clause of the run, and the empty
clause has none.

On flat clauses the condition always holds: the unifiers of the run bind no name to an application,
so nothing leads anywhere (`acyclic_of_runUnifier`).

## Why there is a condition

Unification has no occurs check. From `p(x, x)` and `¬p(y, f(y))` it finds bindings in which `y`
stands for a term that contains it, and no finite tree does; applying them leaves an occurrence in
place, and what is concluded need not follow. The condition is about a run and not about clauses,
since whether such an equation is met depends on which pairs are resolved. It is no weaker a
statement than one with an occurs check would be: where a check would have found nothing, the
condition holds.

## Over every domain

The statement is about all models over all domains, of whatever size, and offsets act on all of
them. So it does not matter what the integers of the clauses are taken to be, as long as moving them
is an action.
-/

namespace OffsetLogic

/-! ### The unifiers of a run -/

/-- The unifiers found when a clause is factored: those of the pairs that are tried, up to the first
one that makes the clause smaller, and then those of the smaller clause. -/
inductive Clause.FactorUnifier (n : Nat) : Clause → Substitution → Prop where
  /-- The unifier of a pair that is tried. -/
  | tried {c : Clause} {s : Substitution} {pre post : List (Term × Term)} {e : Term × Term} :
      c.pairs = pre ++ e :: post → (∀ e' ∈ pre, (c.merge? n e').run = some (.ok none)) →
      mgu? n e.1 e.2 = some (some s) → FactorUnifier n c s
  /-- A unifier found after a pair was merged. -/
  | merged {c d : Clause} {s s' : Substitution} {pre post : List (Term × Term)} {e : Term × Term} :
      c.pairs = pre ++ e :: post → (∀ e' ∈ pre, (c.merge? n e').run = some (.ok none)) →
      mgu? n e.1 e.2 = some (some s) → c.apply s = .ok d → d.size < c.size →
      FactorUnifier n d s' → FactorUnifier n c s'

/-- The unifiers found when a clash is resolved: that of the clashing literals, and those found when
the conclusion is factored. -/
def Clash.ResolventUnifier (n : Nat) (k : Clash) (s : Substitution) : Prop :=
  mgu? n k.positive k.negated = some (some s) ∨
    ∃ s₀ c, mgu? n k.positive k.negated = some (some s₀) ∧ k.remainder.apply s₀ = .ok c ∧
      c.FactorUnifier n s

/-- The unifiers that a run finds to build resolvents. -/
def RunUnifier (n : Nat) (config : Config) (clauses : List Clause) (s : Substitution) : Prop :=
  ∃ st pair todo, Search.Reached (resolve n) config clauses st (pair :: todo) ∧
    ∃ k ∈ clashes pair.1.clause pair.2.clause, k.ResolventUnifier n s

universe u

variable {D : Type u} {M : Model D} {n : Nat}

/-! ### Every stage keeps models -/

/-- Each merge applies an acyclic unifier, and joining two literals that have become equal changes
no truth value. -/
theorem Clause.Factored.satisfies {c d : Clause} (h : c.Factored n d) (hM : M.Satisfies c)
    (hac : ∀ s, c.FactorUnifier n s → s.Acyclic) : M.Satisfies d := by
  induction h with
  | done => exact hM
  | merge hpairs hpre hs happly hsize _ ih =>
    obtain ⟨al⟩ := nonempty_aliasing_of_mgu? hs
    exact ih (hM.apply (hac _ (.tried hpairs hpre hs)) al happly) fun s' hs' ↦
      hac s' (.merged hpairs hpre hs happly hsize hs')

/-- A model of both clauses of a clash is a model of the conclusion. -/
theorem Clash.satisfies_resolvent {k : Clash} {i : Inference}
    (h : (k.infer? n).run = some (.ok (some i))) (hl : M.Satisfies k.left)
    (hr : M.Satisfies k.right) (hac : ∀ s, k.ResolventUnifier n s → s.Acyclic) :
    M.Satisfies i.resolvent := by
  obtain ⟨s, c, d, hs, hc, hd, hi, -⟩ := infer?_eq_ok_some h
  obtain ⟨al⟩ := nonempty_aliasing_of_mgu? hs
  have hsac : s.Acyclic := hac s (.inl hs)
  have hMc : M.Satisfies c := by
    intro v
    -- a valuation of the conclusion extends to one that solves the bindings
    obtain ⟨w, hw, hwv⟩ := Model.exists_solves (M := M) hsac al v
    have heq : M.eval w k.positive = M.eval w k.negated := Model.eval_eq_of_mgu? hs hw
    have hrem : M.TrueAt w k.remainder :=
      holdsIn_remainder (hl w) (hr w) fun h ↦ by rwa [← heq]
    exact hrem.apply hsac al hw hwv hc
  rw [hi]
  exact ((Clause.factored_of_factor hd).satisfies hMc fun s' hs' ↦
    hac s' (.inr ⟨s, c, hs, hc, hs'⟩)).rename _

theorem satisfies_of_infers {a b c : Clause} (h : Search.Infers (resolve n) a b c)
    (ha : M.Satisfies a) (hb : M.Satisfies b)
    (hac : ∀ k ∈ clashes a b, ∀ s, k.ResolventUnifier n s → s.Acyclic) : M.Satisfies c := by
  obtain ⟨r, hr, -, hc⟩ := h
  obtain ⟨i, hi, -, rfl⟩ := mem_resolvents.1 hc
  obtain ⟨k, hk, hinfer⟩ := exists_of_mem_inferFrom hr hi
  obtain ⟨hl, hr, -⟩ := sides_of_mem_clashes (P := M.Satisfies) hk (fun f _ h ↦ h.rename f) ha hb
  exact k.satisfies_resolvent hinfer hl hr (hac k hk)

/-! ### Runs -/

/-- When the unifiers of a run are acyclic, a refuted list of clauses has no model. -/
theorem not_satisfies_of_refuted {config : Config} {clauses : List Clause} {report : Report}
    {derivation : Derivation} {stats : Stats} (h : refute n config clauses = some report)
    (hresult : report.result = .ok (.refuted derivation stats))
    (hac : ∀ s, RunUnifier n config clauses s → s.Acyclic) : ¬ ∀ c ∈ clauses, M.Satisfies c := by
  intro hM
  refine (Search.ended_of_refuteWith h).not_refuted hM ?_ Model.not_satisfies_empty hresult
  exact fun st pair todo _ hreach ha hb hc ↦
    satisfies_of_infers hc ha hb fun k hk s hs ↦ hac s ⟨st, pair, todo, hreach, k, hk, hs⟩

/-! ### Flat clauses -/

/-- Where no name is bound to an application, no binding leads through one. -/
theorem Substitution.Shallow.acyclic {o : Offsets} {s : Substitution} (hs : s.Shallow o) :
    s.Acyclic := by
  intro x hx
  obtain ⟨y, ⟨x', y', g, ts, -, hget, -⟩, -⟩ := Relation.TransGen.head'_iff.1 hx
  cases hs x' _ hget

/-- Unifiers of flat literals bind no name to an application, and merging keeps a clause flat. -/
theorem Clause.FactorUnifier.shallow {o : Offsets} {c : Clause} {s : Substitution}
    (h : c.FactorUnifier n s) (hc : c.isFlat o = true) : s.Shallow o := by
  induction h with
  | tried hpairs _ hs =>
    have he := isFlat_of_mem_pairs hc (hpairs ▸ List.mem_append_right _ List.mem_cons_self)
    exact shallow_of_mgu? he.1 he.2 hs
  | merged hpairs _ hs happly _ _ ih =>
    obtain ⟨al⟩ := nonempty_aliasing_of_mgu? hs
    have he := isFlat_of_mem_pairs hc (hpairs ▸ List.mem_append_right _ List.mem_cons_self)
    exact ih (isFlat_apply (shallow_of_mgu? he.1 he.2 hs) al hc happly)

/-- The unifiers of a run on flat clauses are acyclic. -/
theorem acyclic_of_runUnifier {config : Config} {clauses : List Clause} {s : Substitution}
    (hflat : ∀ c ∈ clauses, c.isFlat .any = true) (h : RunUnifier n config clauses s) :
    s.Acyclic := by
  obtain ⟨st, pair, todo, hreach, k, hk, hs⟩ := h
  have hpair := hreach.consistent.mem_known
  have hknown := st.known_subset_trees
  obtain ⟨hl, hr, hp, hn⟩ := sides_of_mem_clashes (P := fun c ↦ c.isFlat .any = true) hk
    (fun f _ ↦ Clause.isFlat_rename f) (hreach.flat hflat _ (hknown hpair.1))
    (hreach.flat hflat _ (hknown hpair.2))
  have hshallow : ∀ s, mgu? n k.positive k.negated = some (some s) → s.Shallow .any := fun s hs ↦
    shallow_of_mgu? ((Clause.isFlat_iff.1 hl).1 _ hp) ((Clause.isFlat_iff.1 hr).2 _ hn) hs
  obtain hs | ⟨s₀, c, hs₀, hc, hs⟩ := hs
  · exact (hshallow s hs).acyclic
  · obtain ⟨al⟩ := nonempty_aliasing_of_mgu? hs₀
    exact (hs.shallow (Clause.isFlat_apply (hshallow s₀ hs₀) al (k.isFlat_remainder hl hr)
      hc)).acyclic

/-- **Refutation is sound.** When the unifiers of the run are acyclic, refuted clauses have no
model, over any domain; and they always are when all literals are flat. -/
theorem unsatisfiable_of_refuted {config : Config} {clauses : List Clause} {report : Report}
    {derivation : Derivation} {stats : Stats} (h : refute n config clauses = some report)
    (hresult : report.result = .ok (.refuted derivation stats)) :
    ((∀ s, RunUnifier n config clauses s → s.Acyclic) →
      ∀ (D : Type u) (M : Model D), ¬ ∀ c ∈ clauses, M.Satisfies c) ∧
    ((∀ c ∈ clauses, c.isFlat .any = true) → ∀ s, RunUnifier n config clauses s → s.Acyclic) :=
  ⟨fun hac _ _ ↦ not_satisfies_of_refuted h hresult hac, fun hflat _ ↦ acyclic_of_runUnifier hflat⟩

/-- The clauses `p(0)`, `¬p(x) ∨ p(x + 1)` and `¬p(2)` are refuted, and have no model. -/
theorem unsatisfiable_count : ∃ report derivation stats,
    refute 5 {} [.ofLists [.app "p" [.const (.int 0)]] [],
      .ofLists [.app "p" [.var "x" 1]] [.app "p" [.var "x" 0]],
      .ofLists [] [.app "p" [.const (.int 2)]]] = some report ∧
    report.result = .ok (.refuted derivation stats) ∧
    ∀ (D : Type) (M : Model D), ¬ ∀ c ∈ [Clause.ofLists [.app "p" [.const (.int 0)]] [],
      .ofLists [.app "p" [.var "x" 1]] [.app "p" [.var "x" 0]],
      .ofLists [] [.app "p" [.const (.int 2)]]], M.Satisfies c := by
  have hrun : ((refute 5 {} [.ofLists [.app "p" [.const (.int 0)]] [],
      .ofLists [.app "p" [.var "x" 1]] [.app "p" [.var "x" 0]],
      .ofLists [] [.app "p" [.const (.int 2)]]]).bind fun report ↦
        match report.result with
        | .ok (.refuted _ _) => some true
        | _ => none) = some true := by decide +kernel
  obtain ⟨report, h, hrun⟩ := Option.bind_eq_some_iff.1 hrun
  split at hrun
  · rename_i derivation stats hresult
    have hsound := unsatisfiable_of_refuted h hresult
    exact ⟨report, derivation, stats, h, hresult, hsound.1 (hsound.2 (by decide +kernel))⟩
  · cases hrun

end OffsetLogic
