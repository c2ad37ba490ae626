import OffsetLogic.Proofs.Ground.Resolution
import OffsetLogic.Proofs.Query.Ask
import OffsetLogic.Proofs.Rules.Facts
import OffsetLogic.Proofs.Search.Budget

/-!
# Queries to facts and rules

When all clauses of a store are definite, they have a least model: the ground atoms that follow from
facts by rules (`LeastModel`). **An atom that is not proved need not be missing from the least
model**, because the search factors conclusions in place and drops those whose literals merely unify
across signs. Factoring alone is enough for that: one rule with three negated literals, and a chain
of facts that satisfies it (`chained`).

It is missing whenever nothing is lost on the way: when the saturated search has, for each rule it
knows, a negated literal upon which all inferences from facts are lossless (`LosslessRun`), and
also, whatever the run was, when each rule that was told has a negated literal such that no two of
its other literals unify (`Clause.Separable`). In both cases facts can be resolved away without loss
in a set of known clauses (`Selective`), so the facts of the set cover the least model.

## The two conditions

`LosslessRun` is a condition on a run, and the weaker one of the two: it asks what was lost in fact.
It is about the known clauses and so cannot be read off what was told. `Clause.Separable` can. It
asks of each rule that once some negated literal is resolved away nothing is left that could be
merged, or could count as tautological; since that is a property of the literals which images keep,
it holds of the conclusions as well, and of theirs (`Saturated.selective_of_scattered`).

The proof goes from the verdict to the least model. A query that is not proved has a search that
saturated, in which all pairs of known clauses were resolved and nothing new came of it. If the atom
were in the least model, then a known fact would have it as an instance (`LeastModel.covered`), and
this fact would be resolved with the negated query to the empty clause (`Saturated.not_covered`).

The least model consists of instances by constants. For flat literals these are all the instances
that are flat and ground.
-/

namespace OffsetLogic

open Model Search

/-! ### The least model -/

/-- The term with constants in the place of its variables, where these have no offsets. -/
def Term.instantiate (θ : String → Value) (t : Term) : Term :=
  Id.run (t.bindM fun x _ ↦ pure (.const (θ x)))

/-- The least set of ground atoms that has, with the instances of the negated literals of a clause,
the same instance of the positive ones. -/
inductive LeastModel (clauses : List Clause) : Term → Prop where
  | rule {c : Clause} {h : Term} (θ : String → Value) : c ∈ clauses → h ∈ c.pos →
      (∀ b, b ∈ c.neg → LeastModel clauses (b.instantiate θ)) →
      LeastModel clauses (h.instantiate θ)

variable {n : Nat} {c d : Clause} {t u : Term} {v : String → Term} {θ : String → Value}

/-- A rule is applied to the instance of its positive literal that it is to give. -/
theorem LeastModel.of_ofLists {clauses : List Clause} {h : Term} {body : List Term}
    (θ : String → Value) (hc : .ofLists [h] body ∈ clauses) (ht : h.instantiate θ = t)
    (hbody : ∀ b ∈ body, LeastModel clauses (b.instantiate θ)) : LeastModel clauses t := by
  rw [← ht]
  exact .rule θ hc (SortedSet.mem_ofList.2 (List.mem_singleton_self h)) fun b hb ↦
    hbody b (SortedSet.mem_ofList.1 hb)

/-- The instances by constants are values in the model of terms, where the variables have the
constants as values. -/
theorem eval_herbrand_instantiate (ht : t.isFlat .zero = true) :
    herbrand.eval (fun x ↦ .const (θ x)) t = t.instantiate θ := by
  cases t with
  | const | var => cases ht
  | app g ts =>
    have hargs : ∀ t ∈ ts, herbrand.eval (fun x ↦ .const (θ x)) t = t.instantiate θ := by
      intro t ht'
      have hleaf := Term.isFlat_app_iff.1 ht t ht'
      cases t with
      | app => cases hleaf
      | const a => exact eval_herbrand_const a
      | var x k =>
        obtain rfl := eq_zero_of_allows hleaf
        exact eval_herbrand_var x
    rw [eval_herbrand_app, List.map_congr_left hargs, Term.instantiate, Term.bindM,
      Term.bindArgsM_eq_mapM, Id.run_bind, List.idRun_mapM]
    rfl

/-- A ground term has one value, itself. -/
theorem eval_herbrand_of_isGround (ht : t.isGround = true) : herbrand.eval v t = t := by
  induction t with
  | const a => exact eval_herbrand_const a
  | var => cases ht
  | app g ts ih =>
    rw [eval_herbrand_app, List.map_congr_left fun t h ↦ ih t h (Term.isGround_app_iff.1 ht t h),
      List.map_id']

/-! ### Conditions -/

/-- In the state in which the search saturates, every rule has a negated literal upon which all
inferences from facts are lossless. -/
def LosslessRun (n : Nat) (clauses : List Clause) : Prop :=
  ∀ st, Reached (resolve n) {} clauses st [] → st.fresh = [] →
    ∀ c ∈ st.known.map ProofTree.clause, c.IsDefinite → c.neg ≠ ∅ → ∃ b, b ∈ c.neg ∧
      ∀ pair ∈ orderedPairs st.known, ∀ k ∈ clashes pair.1.clause pair.2.clause,
        k.Upon c b → k.Lossless n

namespace Clause

/-- No two literals unify as they stand. -/
structure Separate (c : Clause) : Prop where
  pairs : ∀ e ∈ c.pairs, ∀ n, unifiable n e.1 e.2 ≠ some true
  apart : ∀ p ∈ c.pos, ∀ q ∈ c.neg, ∀ n, unifiable n p q ≠ some true

/-- The clause has no negated literal, or one such that no two of the other literals unify. -/
def Separable (c : Clause) : Prop := c.neg = ∅ ∨ ∃ b ∈ c.neg, (c.without b).Separate

/-- One budget decides whether literals are separate. -/
theorem separate_of_unifiable (n : Nat)
    (hpairs : ∀ e ∈ c.pairs, unifiable n e.1 e.2 = some false)
    (hapart : ∀ p ∈ c.pos.toList, ∀ q ∈ c.neg.toList, unifiable n p q = some false) :
    c.Separate :=
  ⟨fun e he ↦ unifiable_ne_true (hpairs e he), fun p hp q hq ↦ unifiable_ne_true
    (hapart p (SortedSet.mem_toList.2 hp) q (SortedSet.mem_toList.2 hq))⟩

/-- Flat literals that do not unify have no common instance. -/
theorem Separate.scattered (hc : c.Separate) (hflat : c.isFlat .zero = true) : c.Scattered := by
  obtain ⟨hpos, hneg⟩ := isFlat_iff.1 hflat
  have hsame : ∀ t u, t.isFlat .zero = true → u.isFlat .zero = true →
      (t ≠ u → (t, u) ∈ c.pairs ∨ (u, t) ∈ c.pairs) → t.Meets u → t = u := by
    intro t u ht hu hpairs hmeet
    refine Classical.byContradiction fun hne ↦ ?_
    rcases hpairs hne with hpair | hpair
    · exact hc.pairs _ hpair 2 (Term.unifiable_of_meets ht hu hmeet)
    · exact hc.pairs _ hpair 2 (Term.unifiable_of_meets hu ht (hmeet.imp fun _ ↦ Eq.symm))
  refine ⟨fun t u ht hu ↦ hsame t u (hpos t ht) (hpos u hu) fun hne ↦ ?_,
    fun t u ht hu ↦ hsame t u (hneg t ht) (hneg u hu) fun hne ↦ ?_, fun t u ht hu hmeet ↦ ?_⟩
  · exact (mem_orderedPairs_or_swap (SortedSet.mem_toList.2 ht) (SortedSet.mem_toList.2 hu)
      hne).imp (List.mem_append_left _) (List.mem_append_left _)
  · exact (mem_orderedPairs_or_swap (SortedSet.mem_toList.2 ht) (SortedSet.mem_toList.2 hu)
      hne).imp (List.mem_append_right _) (List.mem_append_right _)
  · exact hc.apart t ht u hu 2 (Term.unifiable_of_meets (hpos t ht) (hneg u hu) hmeet)

/-- A separable clause is scattered without one of its literals, also after it was marked. -/
theorem Separable.scattered (hc : c.Separable) (hflat : c.isFlat .zero = true)
    (f : String → String) :
    (c.rename f).neg = ∅ ∨ ∃ b, b ∈ (c.rename f).neg ∧ ((c.rename f).without b).Scattered := by
  obtain hneg | ⟨b, hb, hseparate⟩ := hc
  · exact .inl (neg_rename_eq_empty hneg f)
  · obtain ⟨hpos, hneg⟩ := isFlat_iff.1 hflat
    have hflat' : (c.without b).isFlat .zero = true :=
      isFlat_iff.2 ⟨hpos, fun t ht ↦ hneg t (SortedSet.mem_erase.1 ht).1⟩
    exact .inr ⟨b.rename f, SortedSet.mem_map.2 ⟨b, hb, rfl⟩,
      (hseparate.scattered hflat').image (specializes_rename f) (image_without_rename f c b)⟩

/-- Scattered clauses are taken as they are. -/
theorem Scattered.untouched (hc : c.Scattered) (hflat : c.isFlat .zero = true)
    (hfactor : ∃ d, (c.factor n).run = some (.ok d)) : c.Untouched n := by
  obtain ⟨d, hd⟩ := hfactor
  refine ⟨hc.factor_eq hflat hd ▸ hd, fun htaut ↦ ?_⟩
  exact absurd htaut ((hc.image (specializes_rename _) (image_rename _ c)).isTautological_ne
    (isFlat_rename _ hflat))

end Clause

/-! ### The saturated search -/

/-- The search has saturated, with flat clauses only. -/
structure Saturated (n : Nat) (clauses : List Clause) (st : Search) : Prop where
  reached : Reached (resolve n) {} clauses st []
  fresh : st.fresh = []
  resolved : ∀ pair ∈ orderedPairs st.known, Resolved (resolve n) st pair
  flat : ∀ c ∈ st.known.map ProofTree.clause, c.isFlat .zero = true

namespace Saturated

variable {clauses : List Clause} {st : Search}

/-- The known clauses with a property are selective, if each of them has a negated literal upon
which facts are resolved away without loss into clauses with the property. -/
theorem selective {P : Clause → Prop} (hst : Saturated n clauses st)
    (hdef : ∀ c, P c → c.IsDefinite)
    (hstep : ∀ c ∈ st.known.map ProofTree.clause, P c → c.neg ≠ ∅ → ∃ b, b ∈ c.neg ∧
      ∀ v, ∀ pair ∈ orderedPairs st.known, ∀ k ∈ clashes pair.1.clause pair.2.clause, ∀ d,
        FactStep n v c b k d → d.Untouched n ∧ P d.canonicalize) :
    Selective n fun c ↦ c ∈ st.known.map ProofTree.clause ∧ P c := by
  refine ⟨fun c hc ↦ hst.flat c hc.1, fun c hc ↦ hdef c hc.2, ?_⟩
  rintro c ⟨hc, hP⟩ hneg
  obtain ⟨b, hb, hstep⟩ := hstep c hc hP hneg
  refine ⟨b, hb, fun fact hfact hisFact ↦ ?_⟩
  -- a fact is not a rule, so the two were paired
  have hne : fact ≠ c := fun heq ↦ hneg (heq ▸ hisFact.2)
  obtain ⟨pair, hpair, hxy, r, hr, hf, hsub⟩ :=
    exists_resolved hst.fresh hst.resolved hfact.1 hc hne
  refine ⟨_, _, r, hxy, hr, hf, fun v k hk d hd ↦ ?_⟩
  obtain ⟨huntouched, hPd⟩ := hstep v pair hpair k hk d hd
  exact ⟨huntouched, fun hmem ↦ ⟨hsub hmem, hPd⟩⟩

/-- When every rule has a negated literal for which nothing is lost, all definite clauses are
selective. -/
theorem selective_of_lossless (hst : Saturated n clauses st) (hlossless : LosslessRun n clauses) :
    Selective n fun c ↦ c ∈ st.known.map ProofTree.clause ∧ c.IsDefinite := by
  refine hst.selective (fun _ h ↦ h) fun c hc hdef hneg ↦ ?_
  obtain ⟨b, hb, hlossless⟩ := hlossless st hst.reached hst.fresh c hc hdef hneg
  exact ⟨b, hb, fun v pair hpair k hk d hd ↦
    ⟨hlossless pair hpair k hk hd.upon d hd.conclusion, (hd.definite hdef).rename _⟩⟩

/-- The definite clauses that are scattered without some negated literal are selective: once that
literal is resolved away, nothing is left that could be merged. -/
theorem selective_of_scattered (hst : Saturated n clauses st) :
    Selective n fun c ↦ c ∈ st.known.map ProofTree.clause ∧ c.IsDefinite ∧
      (c.neg = ∅ ∨ ∃ b, b ∈ c.neg ∧ (c.without b).Scattered) := by
  refine hst.selective (fun _ h ↦ h.1) ?_
  rintro c - ⟨hdef, hP⟩ hneg
  obtain ⟨b, hb, hscattered⟩ := hP.resolve_left hneg
  refine ⟨b, hb, fun v pair _ k _ d hd ↦ ⟨?_, (hd.definite hdef).rename _, ?_⟩⟩
  · exact (hd.imageAt.scattered hscattered).untouched hd.flat hd.factor
  · by_cases hempty : d.canonicalize.neg = ∅
    · exact .inl hempty
    · obtain ⟨b', hb'⟩ := Clause.exists_mem_neg hempty
      exact .inr ⟨b', hb', (hd.imageAt.canonicalize.scattered hscattered).without b'⟩

/-- An atom whose negation is known is not covered by known facts, because a fact that covers it is
resolved with the negation to the empty clause. -/
theorem not_covered {S : Clause → Prop} {atom : Term} (hst : Saturated n clauses st)
    (hS : ∀ c, S c → c ∈ st.known.map ProofTree.clause) (hground : atom.isGround = true)
    (hquery : .ofLists [] [atom] ∈ st.known.map ProofTree.clause) : ¬ Covered S atom := by
  rintro ⟨fact, hfact, hisFact, a, w, ha, heq⟩
  have hmem : atom ∈ (Clause.ofLists [] [atom]).neg :=
    SortedSet.mem_ofList.2 (List.mem_singleton_self atom)
  have hne : fact ≠ .ofLists [] [atom] := by
    rintro rfl
    exact SortedSet.not_mem_empty ha
  have hval : herbrand.eval w a = herbrand.eval w atom :=
    heq.trans (eval_herbrand_of_isGround hground).symm
  obtain ⟨pair, hpair, hxy, r, hr, hf, hsub⟩ :=
    exists_resolved hst.fresh hst.resolved (hS fact hfact) hquery hne
  obtain ⟨k, hk, d, hd⟩ := exists_factStep hisFact (hst.flat _ (hS fact hfact))
    (hst.flat _ hquery) ha hmem hval hxy hr hf
  -- nothing is left of the query
  obtain ⟨u, hu⟩ := hd.imageAt.exists_values
  have hpos : ∀ t, t ∉ d.pos := fun t ht ↦ by
    obtain ⟨t', ht', -⟩ := hu.pos t ht
    exact SortedSet.not_mem_empty ht'
  have hneg : ∀ t, t ∉ d.neg := fun t ht ↦ by
    obtain ⟨t', ht', -⟩ := hu.neg t ht
    obtain ⟨ht', hne⟩ := SortedSet.mem_erase.1 ht'
    exact hne (List.mem_singleton.1 (SortedSet.mem_ofList.1 ht'))
  obtain rfl : d = ∅ := Clause.eq_empty_of_over_nil fun t ht ↦
    (ht.elim (hpos t) (hneg t)).elim
  have hscattered : (∅ : Clause).Scattered := ⟨fun t _ ht ↦ (hpos t ht).elim,
    fun t _ ht ↦ (hneg t ht).elim, fun t _ ht ↦ (hpos t ht).elim⟩
  rcases hd.conclusion.mem_resolvents_or (hscattered.untouched hd.flat hd.factor) hk hr hf with
    hempty | ⟨t, ht, -⟩
  · obtain ⟨t, ht, hte⟩ := List.mem_map.1 (hsub hempty)
    exact hst.reached.consistent.ne_empty t (st.known_subset_trees ht) hte
  · exact SortedSet.not_mem_empty ht

end Saturated

/-- What definite clauses entail is covered, where they are among selective ones. -/
theorem LeastModel.covered {clauses : List Clause} {S : Clause → Prop} {atom : Term}
    (h : LeastModel clauses atom) (hS : Selective n S) (hclauses : ∀ c ∈ clauses, S c) :
    Covered S atom := by
  induction h with
  | @rule c h θ hc hh _ ih =>
    obtain ⟨hpos, hneg⟩ := Clause.isFlat_iff.1 (hS.flat c (hclauses c hc))
    rw [← eval_herbrand_instantiate (hpos h hh)]
    refine hS.covered (hclauses c hc) hh fun b hb ↦ ?_
    rw [eval_herbrand_instantiate (hneg b hb)]
    exact ih b hb

/-! ### Answers -/

namespace KnowledgeBase

variable {told : List Clause} {atom : Term}

/-- The query of a ground atom adds its negation, without a mark. -/
theorem workingSet_atom (kb : KnowledgeBase) (hground : atom.isGround = true) :
    kb.workingSet (.ofLists [atom] []) = kb.clauses ++ [.ofLists [] [atom]] := by
  have hquery : (Clause.ofLists [atom] []).isGround = true := Clause.isGround_iff.2 fun t ht ↦ by
    obtain rfl : t = atom := by simpa [Clause.ofLists] using ht
    exact hground
  have hempty : ¬ (Clause.ofLists [atom] []).isEmpty = true := fun h ↦
    SortedSet.not_mem_empty (Clause.isEmpty_iff.1 h ▸
      SortedSet.mem_ofList.2 (List.mem_singleton_self atom) : atom ∈ (∅ : Clause).pos)
  rw [workingSet, if_neg hempty, Clause.renameSuffix, Clause.rename_eq_self _ hquery]
  rfl

theorem isFlat_workingSet_atom (hflat : ∀ c ∈ told, c.isFlat .zero = true)
    (hatom : atom.isFlat .zero = true) :
    ∀ c ∈ (ofAxioms {} told).clauses ++ [.ofLists [] [atom]], c.isFlat .zero = true := by
  intro c hc
  rcases List.mem_append.1 hc with hc | hc
  · obtain ⟨d, hd, suffix, rfl⟩ := mem_clauses_ofAxioms hc
    exact Clause.isFlat_rename _ (hflat d hd)
  · rw [List.mem_singleton.1 hc]
    refine Clause.isFlat_iff.2 ⟨fun t ht ↦ (SortedSet.not_mem_empty ht).elim, fun t ht ↦ ?_⟩
    rw [List.mem_singleton.1 (SortedSet.mem_ofList.1 ht), hatom]

/-- In both cases the stored clauses are among known ones from which facts can be resolved away. -/
theorem exists_selective {st : Search} (hdef : ∀ c ∈ told, c.IsDefinite)
    (hflat : ∀ c ∈ told, c.isFlat .zero = true) {clauses : List Clause}
    (hst : Saturated n clauses st) (hclauses : (ofAxioms {} told).clauses ⊆ clauses)
    (hkeep : LosslessRun n clauses ∨ ∀ c ∈ told, c.Separable) :
    ∃ S, Selective n S ∧ (∀ c, S c → c ∈ st.known.map ProofTree.clause) ∧
      ∀ c ∈ (ofAxioms {} told).clauses, S c := by
  have hknown : ∀ c ∈ (ofAxioms {} told).clauses, c ∈ st.known.map ProofTree.clause := fun c hc ↦
    List.mem_map.2 ⟨_, hst.reached.consistent.given c (hclauses hc), rfl⟩
  rcases hkeep with hlossless | hseparable
  · refine ⟨_, hst.selective_of_lossless hlossless, fun c hc ↦ hc.1, fun c hc ↦ ?_⟩
    obtain ⟨d, hd, suffix, rfl⟩ := mem_clauses_ofAxioms hc
    exact ⟨hknown _ hc, (hdef d hd).rename _⟩
  · refine ⟨_, hst.selective_of_scattered, fun c hc ↦ hc.1, fun c hc ↦ ?_⟩
    obtain ⟨d, hd, suffix, rfl⟩ := mem_clauses_ofAxioms hc
    exact ⟨hknown _ hc, (hdef d hd).rename _, (hseparable d hd).scattered (hflat d hd) _⟩

/-- **Atoms that are not proved are not entailed, when nothing is lost.** Let all clauses that were
told be definite, and all literals flat without offsets. If a ground atom is not proved, then it is
not in the least model of the stored clauses, provided that the run was lossless or that the clauses
that were told are separable. -/
theorem not_leastModel_of_notProved (hdef : ∀ c ∈ told, c.IsDefinite)
    (hflat : ∀ c ∈ told, c.isFlat .zero = true) (hatom : atom.isFlat .zero = true)
    (hground : atom.isGround = true)
    (hkeep : LosslessRun n ((ofAxioms {} told).workingSet (.ofLists [atom] [])) ∨
      ∀ c ∈ told, c.Separable)
    (h : (ofAxioms {} told).ask n (.ofLists [atom] []) = some (.ok .notProved)) :
    ¬ LeastModel (ofAxioms {} told).clauses atom := by
  obtain ⟨report, k, stats, hreport, hresult⟩ := exists_saturated_of_notProved (.inr rfl) h
  obtain ⟨st, hreach, hfresh, -, hres⟩ := (ended_of_refuteWith hreport).saturated hresult
  rw [config_ofAxioms] at hreach
  rw [workingSet_atom _ hground] at hreach hkeep
  have hst : Saturated n ((ofAxioms {} told).clauses ++ [.ofLists [] [atom]]) st := by
    refine ⟨hreach, hfresh, hres, fun c hc ↦ ?_⟩
    obtain ⟨t, ht, rfl⟩ := List.mem_map.1 hc
    exact hreach.flat (isFlat_workingSet_atom hflat hatom) t (st.known_subset_trees ht)
  have hquery : Clause.ofLists [] [atom] ∈ st.known.map ProofTree.clause :=
    List.mem_map.2 ⟨_, hreach.consistent.given _
      (List.mem_append_right _ (List.mem_singleton_self _)), rfl⟩
  obtain ⟨S, hS, hknown, hstored⟩ :=
    exists_selective hdef hflat hst (List.subset_append_left _ _) hkeep
  exact fun hleast ↦ hst.not_covered hknown hground hquery (hleast.covered hS hstored)

/-- The fact `parent(c, b)` and the rule `sibling(x, y) ← parent(z, x), parent(z, y)`. -/
def siblings : List Clause :=
  [.ofLists [.app "parent" [.const (.symbol "c"), .const (.symbol "b")]] [],
    .ofLists [.app "sibling" [.var "x" 0, .var "y" 0]]
      [.app "parent" [.var "z" 0, .var "x" 0], .app "parent" [.var "z" 0, .var "y" 0]]]

theorem separable_siblings : ∀ c ∈ siblings, c.Separable := by
  intro c hc
  rcases List.mem_pair.1 hc with rfl | rfl
  · exact .inl rfl
  · refine .inr ⟨.app "parent" [.var "z" 0, .var "x" 0], by decide +kernel,
      Clause.separate_of_unifiable 2 (by decide +kernel) (by decide +kernel)⟩

/-- Since `sibling(a, a)` is not proved, it is not in the least model. -/
theorem not_leastModel_siblings :
    (∃ n, (ofAxioms {} siblings).ask n (.ofLists [.app "sibling" [.const (.symbol "a"),
      .const (.symbol "a")]] []) = some (.ok .notProved)) ∧
    ¬ LeastModel (ofAxioms {} siblings).clauses
      (.app "sibling" [.const (.symbol "a"), .const (.symbol "a")]) := by
  have hask : (ofAxioms {} siblings).ask 3 (.ofLists [.app "sibling" [.const (.symbol "a"),
      .const (.symbol "a")]] []) = some (.ok .notProved) :=
    ask_eq_ok_of_toOption (by decide +kernel)
  exact ⟨⟨3, hask⟩, not_leastModel_of_notProved (by decide +kernel) (by decide +kernel)
    (by decide +kernel) (by decide +kernel) (.inr separable_siblings) hask⟩

/-- The rule `h() ← q(x, y), q(y, z), q(z, w)` and the facts `q(a, b)`, `q(b, c)` and `q(c, d)`. -/
def chained : List Clause :=
  [.ofLists [.app "h" []] [.app "q" [.var "x" 0, .var "y" 0], .app "q" [.var "y" 0, .var "z" 0],
      .app "q" [.var "z" 0, .var "w" 0]],
    .ofLists [.app "q" [.const (.symbol "a"), .const (.symbol "b")]] [],
    .ofLists [.app "q" [.const (.symbol "b"), .const (.symbol "c")]] [],
    .ofLists [.app "q" [.const (.symbol "c"), .const (.symbol "d")]] []]

/-- The chain of the three facts satisfies the body of the rule. -/
theorem leastModel_chained : LeastModel (ofAxioms {} chained).clauses (.app "h" []) := by
  have hfact : ∀ a b, .ofLists [.app "q" [.const (.symbol a), .const (.symbol b)]] [] ∈
      (ofAxioms {} chained).clauses →
      LeastModel (ofAxioms {} chained).clauses
        (.app "q" [.const (.symbol a), .const (.symbol b)]) :=
    fun _ _ h ↦ .of_ofLists (fun _ ↦ .symbol "a") h rfl fun _ hb ↦ nomatch hb
  have hrule : Clause.ofLists [.app "h" []] [.app "q" [.var "x_0" 0, .var "y_0" 0],
      .app "q" [.var "y_0" 0, .var "z_0" 0], .app "q" [.var "z_0" 0, .var "w_0" 0]] ∈
      (ofAxioms {} chained).clauses := by decide +kernel
  refine .of_ofLists (fun x ↦ if x = "x_0" then .symbol "a" else if x = "y_0" then .symbol "b"
    else if x = "z_0" then .symbol "c" else .symbol "d") hrule (by decide +kernel) fun b hb ↦ ?_
  simp only [List.mem_cons, List.not_mem_nil, or_false] at hb
  rcases hb with rfl | rfl | rfl
  · exact hfact "a" "b" (by decide +kernel)
  · exact hfact "b" "c" (by decide +kernel)
  · exact hfact "c" "d" (by decide +kernel)

/-- The search for `h()` drops no conclusion as tautological. -/
example : (refute 5 {} ((ofAxioms {} chained).workingSet (.ofLists [.app "h" []] []))).map
    (·.stats.tautologiesRemoved) = some 0 := by decide +kernel

/-- Factoring alone can lose an atom. The rule `h() ← q(x, y), q(y, z), q(z, w)` has the chain
`q(a, b)`, `q(b, c)`, `q(c, d)` as an instance of its body; but once one of the facts is resolved
away, two of the literals that are left unify, factoring merges them, and `h()` is not proved. -/
theorem exists_notProved_leastModel : ¬ ∀ (told : List Clause) (atom : Term) (n : Nat),
    (∀ c ∈ told, c.IsDefinite) → (∀ c ∈ told, c.isFlat .zero = true) →
    atom.isFlat .zero = true → atom.isGround = true →
    (ofAxioms {} told).ask n (.ofLists [atom] []) = some (.ok .notProved) →
    ¬ LeastModel (ofAxioms {} told).clauses atom := by
  intro hclaim
  have hask : (ofAxioms {} chained).ask 5 (.ofLists [.app "h" []] []) = some (.ok .notProved) :=
    ask_eq_ok_of_toOption (by decide +kernel)
  exact hclaim chained _ 5 (by decide +kernel) (by decide +kernel) (by decide +kernel)
    (by decide +kernel) hask leastModel_chained

end KnowledgeBase

end OffsetLogic
