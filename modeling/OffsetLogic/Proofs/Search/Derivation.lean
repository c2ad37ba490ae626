import Mathlib.Data.List.Nodup
import OffsetLogic.Proofs.Search.Known

/-!
# Derivations can be checked

A derivation is a proof when it can be checked without the search that found it: `Refutes` lists
what a checker looks at. Each step is an inference from clauses that were given or concluded before,
nothing is concluded twice or although it was given, the last conclusion and no other is the empty
clause, and no conclusion is idle.

The search keeps trees, and a derivation lists their nodes. Two facts about the trees of a run make
the listing correct, and both are in `Forest`: a tree is **determined by its clause**, so skipping a
clause that is listed already skips the same inference, and **subtrees are trees of the run** with
clauses of their own, so a node is never among its ancestors.

## From trees to steps

The steps are listed by a walk through the tree that visits the parents of a node before the node
(`ProofTree.stepsAfter`), and leaves out a node whose conclusion is listed already. The walk is
threaded: what was listed before is an argument, and the left subtree is walked before the right
one. So each lemma about it has the steps `done` before it as a variable and says what comes to
them: they stay (`subset_stepsAfter`), what is new is a subtree (`mem_stepsAfter`), the clause of
the tree is there afterwards (`clause_mem_stepsAfter`), and the list stays in order
(`listing_stepsAfter`).

## What recording is for

When parents are not recorded, a resolvent is kept as if it had been given, and the trees of a run
are leaves. They are no forest then, since a leaf must be given, and a refutation consists of its
last step only. The theorem therefore asks for recording. It also asks that no given clause is
empty: if one is, the derivation has no steps, and there is nothing to check.
-/

namespace OffsetLogic

/-! ### Checked derivations -/

/-- The derivation proves, by a rule, that `clauses` are contradictory. -/
structure Derivation.Refutes (rule : Clause → Clause → Clause → Prop) (clauses : List Clause)
    (d : Derivation) : Prop where
  /-- There is a step. -/
  ne_nil : d.steps ≠ []
  /-- Both parents of a step were given or concluded by an earlier step. -/
  parents : ∀ i (hi : i < d.steps.length), ∀ c, c = d.steps[i].left ∨ c = d.steps[i].right →
    c ∈ clauses ∨ ∃ j, ∃ hj : j < i, d.steps[j].resolvent = c
  /-- Each step applies the rule to its parents. -/
  inferred : ∀ s ∈ d.steps, rule s.left s.right s.resolvent
  /-- The last step, and no other, concludes the empty clause. -/
  empty_iff : ∀ i (hi : i < d.steps.length), d.steps[i].resolvent = ∅ ↔ i + 1 = d.steps.length
  /-- Nothing is concluded twice. -/
  nodup : (d.steps.map Step.resolvent).Nodup
  /-- Nothing that was given is concluded. -/
  not_given : ∀ s ∈ d.steps, s.resolvent ∉ clauses
  /-- Every conclusion but the last is a parent of a later step. -/
  used : ∀ i (hi : i < d.steps.length), i + 1 < d.steps.length →
    ∃ j, ∃ hj : j < d.steps.length, i < j ∧
      (d.steps[j].left = d.steps[i].resolvent ∨ d.steps[j].right = d.steps[i].resolvent)

/-- A proof by one rule is a proof by any rule that allows at least as much. -/
theorem Derivation.Refutes.mono {rule rule' : Clause → Clause → Clause → Prop}
    {clauses : List Clause} {d : Derivation} (h : d.Refutes rule clauses)
    (hrule : ∀ a b c, rule a b c → rule' a b c) : d.Refutes rule' clauses :=
  { h with inferred := fun s hs ↦ hrule _ _ _ (h.inferred s hs) }

namespace ProofTree

/-- The subtrees of a tree, itself included. -/
def subtrees : ProofTree → List ProofTree
  | given c => [given c]
  | resolved l r c => resolved l r c :: (l.subtrees ++ r.subtrees)

/-- No subtree is larger than the tree, and so a proper one is smaller. -/
theorem sizeOf_le_of_mem_subtrees {t u : ProofTree} (h : u ∈ t.subtrees) :
    sizeOf u ≤ sizeOf t := by
  induction t with
  | given c => exact Nat.le_of_eq (congrArg sizeOf (List.mem_singleton.1 h))
  | resolved l r c ihl ihr =>
    rcases List.mem_cons.1 h with rfl | h
    · exact Nat.le_refl _
    · simp only [resolved.sizeOf_spec]
      rcases List.mem_append.1 h with h | h
      · have := ihl h
        omega
      · have := ihr h
        omega

theorem mem_subtrees_self (t : ProofTree) : t ∈ t.subtrees := by
  cases t <;> simp [subtrees]

end ProofTree

/-! ### The trees of a run -/

/-- A set of trees that is closed under subtrees and in which a clause determines its tree. -/
structure Forest (rule : Clause → Clause → Clause → Prop) (clauses : List Clause)
    (trees : List ProofTree) : Prop where
  /-- Trees with the same clause are the same. -/
  inj : ∀ t ∈ trees, ∀ u ∈ trees, t.clause = u.clause → t = u
  /-- Leaves are given. -/
  given : ∀ c, .given c ∈ trees → c ∈ clauses
  /-- Both parents of a node are trees. -/
  children : ∀ l r c, .resolved l r c ∈ trees → l ∈ trees ∧ r ∈ trees
  /-- A node is inferred from its parents. -/
  inferred : ∀ l r c, .resolved l r c ∈ trees → rule l.clause r.clause c
  /-- A node is a new clause and not the empty one. -/
  node_new : ∀ l r c, .resolved l r c ∈ trees → c ∉ clauses ∧ c ≠ ∅

namespace Forest

variable {rule : Clause → Clause → Clause → Prop} {clauses : List Clause}
variable {trees : List ProofTree}

/-- A forest contains all subtrees of its trees; by induction along the tree. -/
theorem subtrees_subset (hF : Forest rule clauses trees) {t : ProofTree} (ht : t ∈ trees) :
    t.subtrees ⊆ trees := by
  induction t with
  | given c => exact List.cons_subset.2 ⟨ht, List.nil_subset _⟩
  | resolved l r c ihl ihr =>
    obtain ⟨hl, hr⟩ := hF.children l r c ht
    exact List.cons_subset.2 ⟨ht, List.append_subset.2 ⟨ihl hl, ihr hr⟩⟩

/-- No proper subtree has the clause of the tree. -/
theorem clause_ne (hF : Forest rule clauses trees) {l r u : ProofTree} {c : Clause}
    (ht : .resolved l r c ∈ trees) (hu : u ∈ l.subtrees ++ r.subtrees) : u.clause ≠ c := by
  intro huc
  -- the subtree would be the tree itself, which is larger
  obtain rfl : u = .resolved l r c :=
    hF.inj u (hF.subtrees_subset ht (List.mem_cons_of_mem _ hu)) _ ht huc
  have : sizeOf (ProofTree.resolved l r c) ≤ sizeOf l ∨
      sizeOf (ProofTree.resolved l r c) ≤ sizeOf r :=
    (List.mem_append.1 hu).imp ProofTree.sizeOf_le_of_mem_subtrees
      ProofTree.sizeOf_le_of_mem_subtrees
  simp only [ProofTree.resolved.sizeOf_spec] at this
  omega

end Forest

/-! ### Listing the nodes of a tree -/

/-- A list of steps that are nodes of trees, parents before children and none twice. -/
structure Listing (clauses : List Clause) (trees : List ProofTree) (steps : List Step) : Prop where
  parents : ∀ i (hi : i < steps.length), ∀ c, c = steps[i].left ∨ c = steps[i].right →
    c ∈ clauses ∨ ∃ j, ∃ hj : j < i, steps[j].resolvent = c
  node : ∀ s ∈ steps, ∃ l r, .resolved l r s.resolvent ∈ trees ∧ s.left = l.clause ∧
    s.right = r.clause
  nodup : (steps.map Step.resolvent).Nodup

theorem exists_getElem_resolvent {steps : List Step} {c : Clause}
    (h : c ∈ steps.map Step.resolvent) : ∃ j, ∃ hj : j < steps.length, steps[j].resolvent = c := by
  obtain ⟨s, hs, rfl⟩ := List.mem_map.1 h
  obtain ⟨j, hj, rfl⟩ := List.getElem_of_mem hs
  exact ⟨j, hj, rfl⟩

/-- The parents of a step put at the end come before it. -/
theorem parents_concat {clauses : List Clause} {steps : List Step} {s : Step}
    (h : ∀ i (hi : i < steps.length), ∀ c, c = steps[i].left ∨ c = steps[i].right →
      c ∈ clauses ∨ ∃ j, ∃ hj : j < i, steps[j].resolvent = c)
    (hs : ∀ c, c = s.left ∨ c = s.right → c ∈ clauses ∨ c ∈ steps.map Step.resolvent)
    (i : Nat) (hi : i < (steps ++ [s]).length) (c : Clause)
    (hc : c = (steps ++ [s])[i].left ∨ c = (steps ++ [s])[i].right) :
    c ∈ clauses ∨ ∃ j, ∃ hj : j < i, (steps ++ [s])[j].resolvent = c := by
  by_cases hlt : i < steps.length
  · rw [List.getElem_append_left hlt] at hc
    refine (h i hlt c hc).imp_right fun ⟨j, hj, hjc⟩ ↦ ⟨j, hj, ?_⟩
    rwa [List.getElem_append_left (by omega)]
  · obtain rfl : i = steps.length := by
      rw [List.length_append, List.length_singleton] at hi
      omega
    rw [List.getElem_concat_length rfl] at hc
    refine (hs c hc).imp_right fun hmem ↦ ?_
    obtain ⟨j, hj, hjc⟩ := exists_getElem_resolvent hmem
    exact ⟨j, hj, by rwa [List.getElem_append_left hj]⟩

namespace ProofTree

variable {rule : Clause → Clause → Clause → Prop} {clauses : List Clause}
variable {trees : List ProofTree} {done : List Step} {t : ProofTree}

/-- What was listed before a tree stays listed. -/
theorem subset_stepsAfter (t : ProofTree) (done : List Step) : done ⊆ t.stepsAfter done := by
  induction t generalizing done with
  | given c => exact List.Subset.refl _
  | resolved l r c ihl ihr =>
    rw [stepsAfter]
    split
    · exact List.Subset.refl _
    · exact List.Subset.trans (List.Subset.trans (ihl done) (ihr _)) (List.subset_append_left _ _)

/-- Every new step concludes the clause of a subtree. -/
theorem mem_stepsAfter {s : Step} (h : s ∈ t.stepsAfter done) :
    s ∈ done ∨ ∃ u ∈ t.subtrees, u.clause = s.resolvent := by
  induction t generalizing done with
  | given c => exact .inl h
  | resolved l r c ihl ihr =>
    rw [stepsAfter] at h
    split at h
    · exact .inl h
    · rcases List.mem_append.1 h with h | h
      · rcases ihr h with h | ⟨u, hu, hus⟩
        · refine (ihl h).imp_right fun ⟨u, hu, hus⟩ ↦ ⟨u, ?_, hus⟩
          exact List.mem_cons_of_mem _ (List.mem_append_left _ hu)
        · exact .inr ⟨u, List.mem_cons_of_mem _ (List.mem_append_right _ hu), hus⟩
      · rw [List.mem_singleton.1 h]
        exact .inr ⟨_, mem_subtrees_self _, rfl⟩

/-- The clause of a listed tree was given or is concluded. -/
theorem clause_mem_stepsAfter (hF : Forest rule clauses trees) (ht : t ∈ trees) :
    t.clause ∈ clauses ∨ t.clause ∈ (t.stepsAfter done).map Step.resolvent := by
  cases t with
  | given c => exact .inl (hF.given c ht)
  | resolved l r c =>
    right
    rw [stepsAfter, clause]
    split
    · rename_i hany
      obtain ⟨s, hs, hsc⟩ := List.any_eq_true.1 hany
      exact of_decide_eq_true hsc ▸ List.mem_map_of_mem hs
    · simp

/-- The walk keeps the order: the parents of a node are listed when the node is, and no conclusion
comes twice. By induction on the tree, with the steps before it general. -/
theorem listing_stepsAfter (hF : Forest rule clauses trees) (ht : t ∈ trees)
    (hdone : Listing clauses trees done) : Listing clauses trees (t.stepsAfter done) := by
  induction t generalizing done with
  | given c => exact hdone
  | resolved l r c ihl ihr =>
    obtain ⟨hl, hr⟩ := hF.children l r c ht
    rw [stepsAfter]
    split
    · exact hdone
    · rename_i hany
      -- the subtrees are listed first, the left one before the right one
      have hsteps := ihr hr (ihl hl hdone)
      refine ⟨parents_concat hsteps.parents ?_, ?_, ?_⟩
      · rintro d (rfl | rfl)
        · exact (clause_mem_stepsAfter hF hl).imp_right fun hmem ↦
            List.map_subset _ (subset_stepsAfter r _) hmem
        · exact clause_mem_stepsAfter hF hr
      · intro s hs
        rcases List.mem_append.1 hs with hs | hs
        · exact hsteps.node s hs
        · rw [List.mem_singleton.1 hs]
          exact ⟨l, r, ht, rfl, rfl⟩
      · rw [List.map_append, List.map_singleton]
        refine List.nodup_append.2 ⟨hsteps.nodup, List.pairwise_singleton _ _, ?_⟩
        intro d hd d' hd' hdd'
        obtain ⟨s, hs, hsc⟩ := List.mem_map.1 hd
        obtain rfl : s.resolvent = c := by rw [hsc, hdd', List.mem_singleton.1 hd']
        -- a step with this conclusion is old, or a proper subtree has the clause of the tree
        rcases mem_stepsAfter hs with hs | ⟨u, hu, hus⟩
        · rcases mem_stepsAfter hs with hs | ⟨u, hu, hus⟩
          · exact hany (List.any_eq_true.2 ⟨s, hs, decide_eq_true rfl⟩)
          · exact hF.clause_ne ht (List.mem_append_left _ hu) hus
        · exact hF.clause_ne ht (List.mem_append_right _ hu) hus

/-- Every new conclusion except that of the tree is a parent. -/
theorem used_stepsAfter {s : Step} (h : s ∈ t.stepsAfter done) :
    s ∈ done ∨ s.resolvent = t.clause ∨
      ∃ s' ∈ t.stepsAfter done, s'.left = s.resolvent ∨ s'.right = s.resolvent := by
  induction t generalizing done with
  | given c => exact .inl h
  | resolved l r c ihl ihr =>
    rw [stepsAfter] at h ⊢
    split at h
    · exact .inl h
    · rename_i hany
      rw [if_neg hany]
      rcases List.mem_append.1 h with h | h
      · rcases ihr h with h | h | ⟨s', hs', h⟩
        · rcases ihl h with h | h | ⟨s', hs', h⟩
          · exact .inl h
          · exact .inr (.inr ⟨_, List.mem_append_right _ (List.mem_singleton_self _), .inl h.symm⟩)
          · exact .inr (.inr ⟨s', List.mem_append_left _ (subset_stepsAfter r _ hs'), h⟩)
        · exact .inr (.inr ⟨_, List.mem_append_right _ (List.mem_singleton_self _), .inr h.symm⟩)
        · exact .inr (.inr ⟨s', List.mem_append_left _ hs', h⟩)
      · rw [List.mem_singleton.1 h]
        exact .inr (.inl rfl)

/-- Every listed conclusion but those of the two last trees is a parent. -/
theorem used_refutation {l r : ProofTree} {s : Step} (h : s ∈ r.stepsAfter (l.stepsAfter [])) :
    ∃ s' ∈ (refutation l r).steps, s'.left = s.resolvent ∨ s'.right = s.resolvent := by
  rw [refutation]
  rcases used_stepsAfter h with h | h | ⟨s', hs', h⟩
  · rcases used_stepsAfter h with h | h | ⟨s', hs', h⟩
    · cases h
    · exact ⟨_, List.mem_append_right _ (List.mem_singleton_self _), .inl h.symm⟩
    · exact ⟨s', List.mem_append_left _ (subset_stepsAfter r _ hs'), h⟩
  · exact ⟨_, List.mem_append_right _ (List.mem_singleton_self _), .inr h.symm⟩
  · exact ⟨s', List.mem_append_left _ hs', h⟩

end ProofTree

/-! ### From a listing to a proof -/

section Refutation

variable {rule : Clause → Clause → Clause → Prop} {clauses : List Clause}
variable {trees : List ProofTree} {steps : List Step}

/-- When every parent comes before its step, a conclusion that is a parent of some step is a parent
of a later one. -/
theorem exists_later_of_parent
    (hparents : ∀ i (hi : i < steps.length), ∀ c, c = steps[i].left ∨ c = steps[i].right →
      c ∈ clauses ∨ ∃ j, ∃ hj : j < i, steps[j].resolvent = c)
    (hnodup : (steps.map Step.resolvent).Nodup) {i : Nat} (hi : i < steps.length)
    (hnew : steps[i].resolvent ∉ clauses) {s : Step} (hs : s ∈ steps)
    (h : s.left = steps[i].resolvent ∨ s.right = steps[i].resolvent) :
    ∃ j, ∃ hj : j < steps.length, i < j ∧
      (steps[j].left = steps[i].resolvent ∨ steps[j].right = steps[i].resolvent) := by
  obtain ⟨j, hj, rfl⟩ := List.getElem_of_mem hs
  refine ⟨j, hj, ?_, h⟩
  obtain ⟨k, hk, hki⟩ := (hparents j hj _ (h.imp Eq.symm Eq.symm)).resolve_left hnew
  have hi' : i < (steps.map Step.resolvent).length := by simpa using hi
  have hk' : k < (steps.map Step.resolvent).length := by
    rw [List.length_map]
    omega
  -- no conclusion occurs twice, so step `k`, which comes before step `j`, is step `i`
  have hik : (steps.map Step.resolvent)[k] = (steps.map Step.resolvent)[i] := by simpa using hki
  have := (List.Nodup.getElem_inj_iff hnodup).1 hik
  omega

/-- A listing with a last step that concludes the empty clause is a proof. -/
theorem Listing.refutes_concat (hlist : Listing clauses trees steps)
    (hF : Forest rule clauses trees) (hempty : ∅ ∉ clauses) {a b : Clause}
    (hparents : ∀ c, c = a ∨ c = b → c ∈ clauses ∨ c ∈ steps.map Step.resolvent)
    (hrule : rule a b ∅)
    (hused : ∀ s ∈ steps, ∃ s' ∈ steps ++ [⟨a, b, ∅⟩],
      s'.left = s.resolvent ∨ s'.right = s.resolvent) :
    Derivation.Refutes rule clauses ⟨steps ++ [⟨a, b, ∅⟩]⟩ := by
  have hnew : ∀ s ∈ steps, s.resolvent ∉ clauses ∧ s.resolvent ≠ ∅ := by
    intro s hs
    obtain ⟨l, r, ht, -, -⟩ := hlist.node s hs
    exact hF.node_new l r _ ht
  have hall := parents_concat (s := ⟨a, b, ∅⟩) hlist.parents hparents
  have hnodup : ((steps ++ [(⟨a, b, ∅⟩ : Step)]).map Step.resolvent).Nodup := by
    rw [List.map_append, List.map_singleton]
    refine List.nodup_append.2 ⟨hlist.nodup, List.pairwise_singleton _ _, ?_⟩
    intro c hc d hd hcd
    obtain ⟨s, hs, rfl⟩ := List.mem_map.1 hc
    exact (hnew s hs).2 (hcd.trans (List.mem_singleton.1 hd))
  have hlast : ∀ i (hi : i < (steps ++ [(⟨a, b, ∅⟩ : Step)]).length),
      i < steps.length ∨ i = steps.length := by
    intro i hi
    rw [List.length_append, List.length_singleton] at hi
    omega
  -- rules, the only empty conclusion, new conclusions and later uses
  refine ⟨by simp, hall, ?_, ?_, hnodup, ?_, ?_⟩
  · intro s hs
    rcases List.mem_append.1 hs with hs | hs
    · obtain ⟨l, r, ht, hleft, hright⟩ := hlist.node s hs
      rw [hleft, hright]
      exact hF.inferred l r _ ht
    · rw [List.mem_singleton.1 hs]
      exact hrule
  · intro i hi
    rcases hlast i hi with hlt | rfl
    · simp [List.getElem_append_left hlt, (hnew _ (List.getElem_mem hlt)).2, Nat.ne_of_lt hlt]
    · simp
  · intro s hs
    rcases List.mem_append.1 hs with hs | hs
    · exact (hnew s hs).1
    · rw [List.mem_singleton.1 hs]
      exact hempty
  · intro i hi hlt
    have hlt : i < steps.length := by simpa using hlt
    have hget : (steps ++ [(⟨a, b, ∅⟩ : Step)])[i] = steps[i] := List.getElem_append_left hlt
    obtain ⟨s, hs, h⟩ := hused _ (List.getElem_mem hlt)
    refine exists_later_of_parent hall hnodup hi ?_ hs (hget ▸ h)
    rw [hget]
    exact (hnew _ (List.getElem_mem hlt)).1

/-- The derivation that ends by resolving two trees of a forest into the empty clause is a proof. -/
theorem Forest.refutes_refutation (hF : Forest rule clauses trees) {l r : ProofTree}
    (hl : l ∈ trees) (hr : r ∈ trees) (hempty : ∅ ∉ clauses) (hrule : rule l.clause r.clause ∅) :
    (ProofTree.refutation l r).Refutes rule clauses := by
  have hnil : Listing clauses trees [] := ⟨by simp, by simp, List.nodup_nil⟩
  refine (ProofTree.listing_stepsAfter hF hr
    (ProofTree.listing_stepsAfter hF hl hnil)).refutes_concat hF hempty ?_ hrule
    fun s hs ↦ ProofTree.used_refutation hs
  rintro c (rfl | rfl)
  · exact (ProofTree.clause_mem_stepsAfter hF hl).imp_right fun hmem ↦
      List.map_subset _ (ProofTree.subset_stepsAfter r _) hmem
  · exact ProofTree.clause_mem_stepsAfter hF hr

end Refutation

/-! ### The derivation of a search -/

namespace Search

variable {infer : Clause → Clause → Budgeted Resolution} {config : Config}
variable {clauses : List Clause} {st : Search} {todo : List (ProofTree × ProofTree)}

/-- When parents are recorded, the trees of a run form a forest. -/
theorem Consistent.forest (hc : Consistent infer config clauses st todo)
    (hrecord : config.recordDerivation = true) : Forest (Infers infer) clauses st.trees := by
  have hknown := st.known_subset_trees
  -- distinct clauses make the clause of a tree its name
  have hinj : ∀ t ∈ st.trees, ∀ u ∈ st.trees, t.clause = u.clause → t = u :=
    fun t ht u hu htu ↦ List.inj_on_of_nodup_map hc.nodup ht hu htu
  have hnode : ∀ l r c, .resolved l r c ∈ st.trees →
      l ∈ st.known ∧ r ∈ st.known ∧ Infers infer l.clause r.clause c := by
    intro l r c ht
    obtain ⟨d, -, hd⟩ | ⟨l', hl, r', hr, d, hd, hi⟩ := hc.justified _ ht
    · cases hd
    · rw [node, if_pos hrecord] at hd
      cases hd
      exact ⟨hl, hr, hi⟩
  constructor
  · exact hinj
  · intro c ht
    obtain ⟨d, hd, h⟩ | ⟨l, hl, r, hr, d, hd, hi⟩ := hc.justified _ ht
    · cases h
      exact hd
    · rw [node, if_pos hrecord] at hd
      cases hd
  · exact fun l r c ht ↦ ⟨hknown (hnode l r c ht).1, hknown (hnode l r c ht).2.1⟩
  · exact fun l r c ht ↦ (hnode l r c ht).2.2
  · refine fun l r c ht ↦ ⟨fun hgiven ↦ ?_, hc.ne_empty _ ht⟩
    have := hinj _ ht _ (hknown (hc.given c hgiven)) rfl
    cases this

end Search

/-- One clause is among the resolvents of two others. -/
def Resolves (n : Nat) (a b c : Clause) : Prop :=
  ∃ cs, resolvents n a b = some (.ok cs) ∧ c ∈ cs

/-- What the rule of a search infers is among the resolvents, since an inference that completes has
no error. -/
theorem resolves_of_infers {n : Nat} {a b c : Clause} (h : Search.Infers (resolve n) a b c) :
    Resolves n a b c := by
  obtain ⟨r, hr, hf, hc⟩ := h
  exact ⟨r.resolvents, resolvents_of_resolve hr hf, hc⟩

/-- **A refutation comes with a proof.** When no given clause is empty and parents are recorded, the
derivation of a refutation can be checked step by step. -/
theorem refutes_of_refuted {n : Nat} {config : Config} {clauses : List Clause} {report : Report}
    {derivation : Derivation} {stats : Stats} (h : refute n config clauses = some report)
    (hresult : report.result = .ok (.refuted derivation stats)) (hempty : ∅ ∉ clauses)
    (hrecord : config.recordDerivation = true) :
    derivation.Refutes (Resolves n) clauses := by
  obtain ⟨hany, -⟩ | ⟨st, pair, todo, hreach, hinfers, rfl⟩ :=
    (Search.ended_of_refuteWith h).refuted hresult
  · obtain ⟨c, hc, hce⟩ := List.any_eq_true.1 hany
    exact absurd (Clause.isEmpty_iff.1 hce ▸ hc) hempty
  · have hc := hreach.consistent
    have hpair := hc.mem_known
    have hknown := st.known_subset_trees
    exact ((hc.forest hrecord).refutes_refutation (hknown hpair.1) (hknown hpair.2) hempty
      hinfers).mono fun _ _ _ ↦ resolves_of_infers

/-- The clauses `p(a)`, `¬p(x) ∨ q(x)` and `¬q(a)` are refuted in two steps, which form a proof. -/
theorem refutes_chain : ∃ report derivation stats,
    refute 3 {} [.ofLists [.app "p" [.const (.symbol "a")]] [],
      .ofLists [.app "q" [.var "x" 0]] [.app "p" [.var "x" 0]],
      .ofLists [] [.app "q" [.const (.symbol "a")]]] = some report ∧
    report.result = .ok (.refuted derivation stats) ∧ derivation.length = 2 ∧
    derivation.Refutes (Resolves 3) [.ofLists [.app "p" [.const (.symbol "a")]] [],
      .ofLists [.app "q" [.var "x" 0]] [.app "p" [.var "x" 0]],
      .ofLists [] [.app "q" [.const (.symbol "a")]]] := by
  have hrun : ((refute 3 {} [.ofLists [.app "p" [.const (.symbol "a")]] [],
      .ofLists [.app "q" [.var "x" 0]] [.app "p" [.var "x" 0]],
      .ofLists [] [.app "q" [.const (.symbol "a")]]]).bind fun report ↦
        match report.result with
        | .ok (.refuted derivation _) => some derivation.length
        | _ => none) = some 2 := by decide +kernel
  obtain ⟨report, h, hrun⟩ := Option.bind_eq_some_iff.1 hrun
  split at hrun
  · rename_i derivation stats hresult
    exact ⟨report, derivation, stats, h, hresult, Option.some.inj hrun,
      refutes_of_refuted h hresult (by decide +kernel) rfl⟩
  · cases hrun

end OffsetLogic
