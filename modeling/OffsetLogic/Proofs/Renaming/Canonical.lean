import Mathlib.Data.List.Sort
import Mathlib.Data.Set.Function
import OffsetLogic.Proofs.Renaming.Variant
import OffsetLogic.Proofs.Search.Budget
import OffsetLogic.Proofs.Search.Known
import OffsetLogic.Proofs.Unification.Shape

/-!
# Canonical forms

`canonicalize` orders the literals of one sign by shape, and those of one sign and shape by their
names. So its answer depends on the names in general, but **not after factoring**: two literals of
one sign and shape unify by renaming, and merging them makes the clause smaller, so factoring leaves
no two of them (`Clause.shapesApart_of_factor`). The order of the literals is then the same in all
variants of a clause, and with it the order in which the names occur (`Clause.canonicalize_rename`).

Every clause is a variant of its canonical form, whether it is factored or not, so two factored
clauses have the same canonical form exactly when they are variants. A search keeps no clause twice,
and what it derives is factored and canonically named, so the clauses that it derives are no
variants of each other.

## What the two directions rest on

* That clauses with one canonical form are variants holds of all clauses. The canonical names are
  given to the names of a clause one by one (`Clause.bijOn_canonicalName`), and being variants is an
  equivalence.
* That variants have one canonical form needs the shapes to be apart. A renaming does not change
  shapes (`Term.shape_rename`), so it commutes with the arrangement of a list of atoms; but the
  literals of a renamed clause are listed in another order, and only where no two shapes are equal
  does the arrangement forget how its atoms were listed (`arrangeByShape_eq_of_perm`). For clauses
  that are given the direction fails, which the example at the end shows.

The proof that factoring leaves no two literals of one shape goes through the condition that
factoring tests, and not through the unifier. The pair would have been tried and passed over
(`Clause.merge?_ne_ok_none`); but its unifier renames variables, so it can be applied, and it makes
the two literals one, so the clause would have become smaller.
-/

namespace OffsetLogic

variable {n : Nat} {c d : Clause} {f : String → String} {t u : Term}

/-! ### Factoring leaves no two literals of one sign and shape -/

namespace Clause

/-- No two literals of one sign have the same shape. -/
def ShapesApart (c : Clause) : Prop :=
  Set.InjOn Term.shape {t | t ∈ c.pos} ∧ Set.InjOn Term.shape {t | t ∈ c.neg}

/-- A clause has fewer literals after a map that makes two literals of one sign the same. -/
theorem size_map_lt {F : Term → Term} {e : Term × Term} (he : e ∈ c.pairs)
    (heq : F e.1 = F e.2) : (c.pos.map F).size + (c.neg.map F).size < c.size := by
  have hne := ne_of_mem_pairs he
  have hpos := SortedSet.size_map_le F c.pos
  have hneg := SortedSet.size_map_le F c.neg
  rw [size]
  obtain ⟨h₁, h₂⟩ | ⟨h₁, h₂⟩ := mem_of_mem_pairs he
  · have := SortedSet.size_map_lt h₁ h₂ hne heq
    omega
  · have := SortedSet.size_map_lt h₁ h₂ hne heq
    omega

/-- A pair that is passed over within a budget keeps the size under the unifier that it has within
any budget. -/
theorem size_le_of_merge? {m : Nat} {e : Term × Term} {s : Substitution}
    (h : (c.merge? n e).run = some (.ok none)) (hs : mgu? m e.1 e.2 = some (some s)) :
    ∃ d, c.apply s = .ok d ∧ c.size ≤ d.size := by
  have hunique : ∀ {s?}, mgu? n e.1 e.2 = some s? → s? = some s := fun h ↦ unify_unique h hs
  obtain hnone | ⟨s', d, hs', hd, hle⟩ := merge?_eq_ok_none h
  · cases hunique hnone
  · cases hunique hs'
    exact ⟨d, hd, hle⟩

/-- Literals of one sign and shape are not left unmerged. -/
theorem merge?_ne_ok_none {e : Term × Term} (he : e ∈ c.pairs) (hshape : e.1.shape = e.2.shape) :
    (c.merge? n e).run ≠ some (.ok none) := by
  intro h
  -- on a large enough budget the literals unify, by a renaming
  obtain ⟨s, f, hs, heq, happly⟩ := exists_mgu?_of_shape hshape (Nat.lt_succ_self (sizeOf e.1))
  obtain ⟨d, hd, hle⟩ := size_le_of_merge? h hs
  cases hd.symm.trans (happly c)
  exact Nat.not_lt.2 hle (size_map_lt he heq)

/-- A factored clause has no two literals of one sign and shape, since every pair was tried. -/
theorem Factored.shapesApart (h : c.Factored n d) : d.ShapesApart := by
  have hpair : ∀ l : SortedSet Term, orderedPairs l.toList ⊆ d.pairs →
      Set.InjOn Term.shape {t | t ∈ l} := by
    intro l hl t ht u hu hshape
    by_contra htu
    rcases mem_orderedPairs_or_swap ht hu htu with he | he
    · exact merge?_ne_ok_none (hl he) hshape (h.merge?_eq_none _ (hl he))
    · exact merge?_ne_ok_none (hl he) hshape.symm (h.merge?_eq_none _ (hl he))
  exact ⟨hpair _ (List.subset_append_left _ _), hpair _ (List.subset_append_right _ _)⟩

theorem shapesApart_of_factor (h : (c.factor n).run = some (.ok d)) : d.ShapesApart :=
  (factored_of_factor h).shapesApart

end Clause

/-! ### The order of literals and names in variants -/

@[simp] theorem Term.shape_rename (f : String → String) (t : Term) :
    (t.rename f).shape = t.shape :=
  rename_rename f (fun _ ↦ "") t

/-- Renaming commutes with arranging, because arranging looks at shapes only. The sort is stable, so
this holds also where shapes are equal. -/
theorem arrangeByShape_map_rename (f : String → String) (l : List Term) :
    arrangeByShape (l.map (Term.rename f)) = (arrangeByShape l).map (Term.rename f) := by
  refine (List.map_mergeSort fun t _ u _ ↦ ?_).symm
  rw [Term.shape_rename, Term.shape_rename]

/-- The order of atoms of different shapes does not depend on how they were listed. -/
theorem arrangeByShape_eq_of_perm {l l' : List Term} (hl : Set.InjOn Term.shape {t | t ∈ l})
    (h : l.Perm l') : arrangeByShape l = arrangeByShape l' := by
  have hsorted : ∀ l : List Term, (arrangeByShape l).Pairwise fun t u ↦
      (compare t.shape u.shape).isLE = true :=
    List.pairwise_mergeSort (fun _ _ _ ↦ Std.TransCmp.isLE_trans)
      fun t u ↦ by
        rw [@Std.OrientedCmp.eq_swap _ compare _ u.shape t.shape]
        cases compare t.shape u.shape <;> rfl
  have hperm : (arrangeByShape l).Perm (arrangeByShape l') :=
    ((List.mergeSort_perm _ _).trans h).trans (List.mergeSort_perm _ _).symm
  refine hperm.eq_of_pairwise (fun t u ht hu htu hut ↦ ?_) (hsorted l) (hsorted l')
  have hshape : t.shape = u.shape :=
    Std.LawfulEqCmp.eq_of_compare (Std.OrientedCmp.isLE_antisymm htu hut)
  exact hl (List.mem_mergeSort.1 ht) (h.mem_iff.2 (List.mem_mergeSort.1 hu)) hshape

/-- A function that keeps the members of a list apart commutes with the removal of repetitions. -/
theorem eraseDups_map {l : List String} (hf : Set.InjOn f {x | x ∈ l}) :
    (l.map f).eraseDups = l.eraseDups.map f := by
  match l with
  | [] => rfl
  | x :: l =>
    have hfilter : (l.map f).filter (fun y ↦ !y == f x) = (l.filter fun y ↦ !y == x).map f := by
      rw [List.filter_map]
      refine congrArg _ (List.filter_congr fun y hy ↦ ?_)
      have hiff : f y = f x ↔ y = x :=
        hf.eq_iff (List.mem_cons_of_mem x hy) List.mem_cons_self
      simp [hiff]
    have hlt : (l.filter fun y ↦ !y == x).length < l.length + 1 :=
      Nat.lt_succ_of_le (List.length_filter_le _ l)
    have hsub : {y | y ∈ l.filter fun y ↦ !y == x} ⊆ {y | y ∈ x :: l} := fun y hy ↦
      List.mem_cons_of_mem x (List.mem_filter.1 hy).1
    rw [List.map_cons, List.eraseDups_cons, hfilter, eraseDups_map (hf.mono hsub),
      List.eraseDups_cons, List.map_cons]
termination_by l.length

/-- A function that keeps the members of a list apart keeps their places. -/
theorem idxOf_map {l : List String} {x : String} (hf : Set.InjOn f {x | x ∈ l}) (hx : x ∈ l) :
    (l.map f).idxOf (f x) = l.idxOf x := by
  induction l with
  | nil => cases hx
  | cons y l ih =>
    rw [List.map_cons, List.idxOf_cons, List.idxOf_cons]
    by_cases hyx : y = x
    · simp [hyx]
    · have hne : f y ≠ f x := fun h ↦ hyx (hf List.mem_cons_self hx h)
      have hx := (List.mem_cons.1 hx).resolve_left (Ne.symm hyx)
      rw [beq_false_of_ne hne, beq_false_of_ne hyx]
      simp only [cond_false]
      rw [ih (hf.mono fun z hz ↦ List.mem_cons_of_mem y hz) hx]

namespace Clause

/-- Where shapes are apart, renaming merges no literals and only changes their order in the set. -/
theorem perm_toList_map_rename {l : SortedSet Term} (hl : Set.InjOn Term.shape {t | t ∈ l})
    (f : String → String) :
    (l.toList.map (Term.rename f)).Perm (l.map (Term.rename f)).toList := by
  have hnodup : (l.toList.map (Term.rename f)).Nodup := by
    refine (SortedSet.nodup_toList l).map_on fun t ht u hu htu ↦ hl ht hu ?_
    rw [← Term.shape_rename f t, htu, Term.shape_rename]
  refine (List.perm_ext_iff_of_nodup hnodup (SortedSet.nodup_toList _)).2 fun t ↦ ?_
  rw [List.mem_map, SortedSet.mem_toList, SortedSet.mem_map]
  exact Iff.rfl

/-- Arranged by shape, the literals of a renamed set are the renamed literals in their old
arrangement. -/
theorem arrangeByShape_toList_map_rename {l : SortedSet Term}
    (hl : Set.InjOn Term.shape {t | t ∈ l}) (f : String → String) :
    arrangeByShape (l.map (Term.rename f)).toList =
      (arrangeByShape l.toList).map (Term.rename f) := by
  rw [← arrangeByShape_map_rename]
  refine (arrangeByShape_eq_of_perm ?_ (perm_toList_map_rename hl f)).symm
  intro t ht u hu htu
  obtain ⟨t', ht', rfl⟩ := List.mem_map.1 ht
  obtain ⟨u', hu', rfl⟩ := List.mem_map.1 hu
  rw [Term.shape_rename, Term.shape_rename] at htu
  rw [hl ht' hu' htu]

/-- The names of a variant occur in the same order. -/
theorem namesByOccurrence_rename (hc : c.ShapesApart)
    (hf : Set.InjOn f {x | x ∈ c.variableNames}) :
    (c.rename f).namesByOccurrence = c.namesByOccurrence.map f := by
  have hoccurrences : ∀ l : List Term, (l.map (Term.rename f)).flatMap Term.occurrences =
      (l.flatMap Term.occurrences).map f := by
    intro l
    rw [List.flatMap_map, List.map_flatMap]
    exact List.flatMap_congr fun t _ ↦ Term.occurrences_rename f t
  rw [namesByOccurrence, rename, arrangeByShape_toList_map_rename hc.1,
    arrangeByShape_toList_map_rename hc.2, ← List.map_append, hoccurrences, eraseDups_map]
  · rfl
  · intro x hx y hy
    exact hf (mem_namesByOccurrence.1 (List.mem_eraseDups.2 hx))
      (mem_namesByOccurrence.1 (List.mem_eraseDups.2 hy))

/-- Variants of a clause whose literals differ in shape have one canonical form. -/
theorem canonicalize_rename (hc : c.ShapesApart) (hf : Set.InjOn f {x | x ∈ c.variableNames}) :
    (c.rename f).canonicalize = c.canonicalize := by
  rw [canonicalize, rename_rename, namesByOccurrence_rename hc hf]
  refine rename_congr fun x hx ↦ ?_
  have hnames : {x | x ∈ c.namesByOccurrence} = {x | x ∈ c.variableNames} :=
    Set.ext fun x ↦ mem_namesByOccurrence
  rw [idxOf_map (hnames ▸ hf) (mem_namesByOccurrence.2 hx)]

/-! ### The canonical form of a clause -/

theorem length_namesByOccurrence (c : Clause) :
    c.namesByOccurrence.length = c.variableNames.size := by
  refine ((List.perm_ext_iff_of_nodup (nodup_eraseDups _)
    (SortedSet.nodup_toList c.variableNames)).2 fun x ↦ ?_).length_eq
  exact mem_namesByOccurrence

/-- The only name of a clause becomes the first canonical name. -/
theorem canonicalize_of_variableNames {x : String} (h : c.variableNames = .singleton x) :
    c.canonicalize = c.rename fun _ ↦ "_0" := by
  have hlength : c.namesByOccurrence.length = 1 := by
    rw [length_namesByOccurrence, h]
    rfl
  obtain ⟨y, hy⟩ := List.length_eq_one_iff.1 hlength
  refine rename_congr fun z hz ↦ ?_
  have hz : z = y := List.mem_singleton.1 (hy ▸ mem_namesByOccurrence.2 hz)
  rw [hy, hz, List.idxOf_cons_self]
  rfl

/-- The names of a clause are replaced one by one by the first canonical names. -/
theorem bijOn_canonicalName (c : Clause) :
    Set.BijOn (fun x ↦ canonicalName (c.namesByOccurrence.idxOf x)) {x | x ∈ c.variableNames}
      (canonicalName '' Set.Iio c.variableNames.size) := by
  refine ⟨fun x hx ↦ ⟨_, ?_, rfl⟩, fun x hx y hy hxy ↦ ?_, ?_⟩
  · rw [← length_namesByOccurrence]
    exact List.idxOf_lt_length_of_mem (mem_namesByOccurrence.2 hx)
  · exact (List.idxOf_inj (mem_namesByOccurrence.2 hx)).1 (canonicalName_injective hxy)
  · rintro _ ⟨i, hi, rfl⟩
    have hi : i < c.namesByOccurrence.length := (length_namesByOccurrence c).symm ▸ hi
    refine ⟨c.namesByOccurrence[i], mem_namesByOccurrence.1 (List.getElem_mem hi), ?_⟩
    exact congrArg canonicalName ((nodup_eraseDups _).idxOf_getElem i hi)

/-- A clause is a variant of its canonical form, factored or not. -/
theorem isVariant_canonicalize (c : Clause) : c.IsVariant c.canonicalize :=
  isVariant_rename (bijOn_canonicalName c).injOn

/-- Clauses with the same canonical form are variants. -/
theorem isVariant_of_canonicalize_eq (h : c.canonicalize = d.canonicalize) : c.IsVariant d :=
  c.isVariant_canonicalize.trans (h ▸ d.isVariant_canonicalize.symm)

/-- Where the shapes of one clause are apart, the canonical form decides which clauses are its
variants. -/
theorem canonicalize_eq_iff (hc : c.ShapesApart) :
    c.canonicalize = d.canonicalize ↔ c.IsVariant d := by
  refine ⟨isVariant_of_canonicalize_eq, ?_⟩
  rintro ⟨f, hf, rfl⟩
  exact (canonicalize_rename hc hf).symm

/-- The clause is a result of factoring. -/
def IsFactored (c : Clause) : Prop := ∃ n c₀, (factor n c₀).run = some (.ok c)

/-- One run on some budget shows that a clause is factored. -/
theorem isFactored_of_toOption (n : Nat) (c₀ : Clause)
    (h : (c₀.factor n).run.map Except.toOption = some (some c)) : c.IsFactored := by
  obtain ⟨result, hresult, h⟩ := Option.map_eq_some_iff.1 h
  cases result with
  | error e => cases h
  | ok d => exact ⟨n, c₀, by rw [hresult, Option.some.inj h]⟩

/-- Results of factoring have their shapes apart, on whatever budget they were found. -/
theorem IsFactored.shapesApart (h : c.IsFactored) : c.ShapesApart := by
  obtain ⟨n, c₀, h⟩ := h
  exact shapesApart_of_factor h

end Clause

/-! ### Derived clauses -/

/-- Inferred clauses are canonical forms of factored ones. -/
theorem exists_factored_of_infers {a b : Clause} (h : Search.Infers (resolve n) a b c) :
    ∃ d : Clause, d.IsFactored ∧ c = d.canonicalize := by
  obtain ⟨r, hr, -, hc⟩ := h
  obtain ⟨i, hi, -, rfl⟩ := mem_resolvents.1 hc
  obtain ⟨k, -, hinfer⟩ := exists_of_mem_inferFrom hr hi
  obtain ⟨s, c, d, -, -, hd, hcan, -⟩ := Clash.infer?_eq_ok_some hinfer
  exact ⟨d, ⟨n, c, hd⟩, hcan⟩

/-- Every clause of a run was given, or is the canonical form of a factored clause. -/
theorem Search.Reached.exists_factored {config : Config} {clauses : List Clause} {st : Search}
    {todo : List (ProofTree × ProofTree)} (h : Reached (resolve n) config clauses st todo) :
    ∀ t ∈ st.trees, t.clause ∈ clauses ∨ ∃ d : Clause, d.IsFactored ∧ t.clause = d.canonicalize :=
  h.clause_induction
    (P := fun c ↦ c ∈ clauses ∨ ∃ d : Clause, d.IsFactored ∧ c = d.canonicalize)
    (fun _ hc ↦ .inl hc) fun _ _ _ _ _ _ _ hc ↦ .inr (exists_factored_of_infers hc)

/-- **Canonical naming is exact after factoring.** It renames the variables of a clause injectively
onto the first canonical names; factored clauses get the same canonical form exactly when they are
variants; and so two clauses that a run has derived are the same as soon as they are variants. -/
theorem canonicalize_exact (n : Nat) (config : Config) (clauses : List Clause) :
    (∀ c : Clause, ∃ f, Set.BijOn f {x | x ∈ c.variableNames}
      (canonicalName '' Set.Iio c.variableNames.size) ∧ c.canonicalize = c.rename f) ∧
    (∀ c d : Clause, c.IsFactored → d.IsFactored →
      (c.canonicalize = d.canonicalize ↔ c.IsVariant d)) ∧
    ∀ st todo, Search.Reached (resolve n) config clauses st todo →
      ∀ t ∈ st.trees, ∀ u ∈ st.trees, t.clause ∉ clauses → u.clause ∉ clauses →
        t.clause.IsVariant u.clause → t.clause = u.clause := by
  refine ⟨fun c ↦ ⟨_, c.bijOn_canonicalName, rfl⟩,
    fun c d hc _ ↦ Clause.canonicalize_eq_iff hc.shapesApart, ?_⟩
  intro st todo hreach t ht u hu htin huin hvariant
  obtain ⟨c, hc, htc⟩ := (hreach.exists_factored t ht).resolve_left htin
  obtain ⟨d, -, hud⟩ := (hreach.exists_factored u hu).resolve_left huin
  rw [htc, hud] at hvariant ⊢
  -- what the two forms were made from are variants as well
  have hcd := (c.isVariant_canonicalize.trans hvariant).trans d.isVariant_canonicalize.symm
  exact (Clause.canonicalize_eq_iff hc.shapesApart).2 hcd

/-- The variants `q(x, y + 1) ∨ q(y, z + 1)` and `q(c, b + 1) ∨ q(b, a + 1)` are factored to
variants, which have one canonical form. -/
theorem canonicalize_eq_loop :
    (((Clause.ofLists [.app "q" [.var "x" 0, .var "y" 1], .app "q" [.var "y" 0, .var "z" 1]]
      []).factor 3).run.map Except.toOption =
      some (some (.ofLists [.app "q" [.var "x" 0, .var "x" 1]] []))) ∧
    (((Clause.ofLists [.app "q" [.var "c" 0, .var "b" 1], .app "q" [.var "b" 0, .var "a" 1]]
      []).factor 3).run.map Except.toOption =
      some (some (.ofLists [.app "q" [.var "a" 0, .var "a" 1]] []))) ∧
    (Clause.ofLists [.app "q" [.var "x" 0, .var "x" 1]] []).canonicalize =
      (Clause.ofLists [.app "q" [.var "a" 0, .var "a" 1]] []).canonicalize := by
  refine ⟨by decide +kernel, by decide +kernel, ?_⟩
  refine ((canonicalize_exact 3 {} []).2.1 _ _ ?_ ?_).2 ⟨fun _ ↦ "a", ?_, by decide +kernel⟩
  · exact Clause.isFactored_of_toOption 3 (.ofLists [.app "q" [.var "x" 0, .var "y" 1],
      .app "q" [.var "y" 0, .var "z" 1]] []) (by decide +kernel)
  · exact Clause.isFactored_of_toOption 3 (.ofLists [.app "q" [.var "c" 0, .var "b" 1],
      .app "q" [.var "b" 0, .var "a" 1]] []) (by decide +kernel)
  · have hnames : (Clause.ofLists [.app "q" [.var "x" 0, .var "x" 1]] []).variableNames =
        .singleton "x" := by decide +kernel
    intro x hx y hy _
    rw [hnames] at hx hy
    exact (SortedSet.mem_singleton.1 hx).trans (SortedSet.mem_singleton.1 hy).symm

/-- Before they are factored, the variants have different canonical forms. -/
example :
    (Clause.ofLists [.app "q" [.var "x" 0, .var "y" 1], .app "q" [.var "y" 0, .var "z" 1]]
      []).canonicalize ≠
    (Clause.ofLists [.app "q" [.var "c" 0, .var "b" 1], .app "q" [.var "b" 0, .var "a" 1]]
      []).canonicalize := by
  decide_cbv

end OffsetLogic
