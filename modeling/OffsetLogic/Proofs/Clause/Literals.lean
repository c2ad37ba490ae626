import OffsetLogic.Proofs.Renaming.Canonical
import OffsetLogic.Proofs.Resolution.Factoring
import OffsetLogic.Proofs.Resolution.Symmetry

/-!
# Literal sets are canonical

The search knows a clause again by comparing literal sets, so there must be **one clause for each
pair of sets of literals**, however it was made. Two things make it so. Terms, and with them sets of
terms and clauses, are totally ordered, and what the order finds equal is the same. And whatever is
done to a clause puts its literals into their places again: they change their order when they are
renamed or when a substitution is applied to them, and they may coincide.

A clause `Arranges` two lists of atoms when its sets hold the members of the lists, each once and in
ascending order. There is exactly one such clause (`Clause.arranges_iff`). Renaming, substituting,
factoring, canonical naming and resolving give clauses that arrange the images of literals, and
negating one that arranges the literals themselves (`literals_canonical`).

## What each part rests on

* The orders of sets and of clauses are lexicographic, so their laws are those of the orders of
  lists and of pairs, read through `toList` and through the two sides. Nothing about terms is used
  but that their order is total and that its equality is equality.
* That a result is in ascending order is part of the type of sets. What has to be shown of an
  operation is which literals its result has, and every operation is one function on literals,
  applied to all of them (`ArrangesImage`). Composing operations composes the functions
  (`ArrangesImage.trans`), and that is how resolving is put together from substituting, factoring
  and naming.

The function is not always one substitution. Factoring applies several, one after another, and each
is found in a clause that the ones before have changed, so the images under it are those of
`applyAll`. Nor is it injective: where two literals have the same image the clause has one literal
fewer, and the statement says so by speaking of members.
-/

open Std

namespace OffsetLogic

open Substitution

/-! ### The order of clauses -/

/-- Lists are compared from the first difference on. -/
theorem compare_append_left {α : Type} [Ord α] [ReflOrd α] (l us vs : List α) :
    compare (l ++ us) (l ++ vs) = compare us vs := by
  induction l with
  | nil => rfl
  | cons a l ih =>
    rw [List.cons_append, List.cons_append, List.compare_cons_cons, Std.compare_self, ih]
    rfl

/-- Applications of one name compare by what follows the arguments that they begin with in common.
-/
theorem Term.compare_app_append (g : String) (ts us vs : List Term) :
    compare (app g (ts ++ us)) (app g (ts ++ vs)) = compare us vs := by
  rw [compare_app_app, Std.compare_self, compare_append_left]
  rfl

namespace SortedSet

variable {α : Type} [Ord α]

instance [TransOrd α] : TransOrd (SortedSet α) :=
  inferInstanceAs (TransCmp (compareOn (SortedSet.toList (α := α))))

instance [LawfulEqOrd α] : LawfulEqOrd (SortedSet α) where
  compare_self {s} := ReflCmp.compare_self (a := s.toList)
  eq_of_compare h := toList_inj.1 (LawfulEqOrd.eq_of_compare h)

end SortedSet

namespace Clause

variable {n : Nat} {c d e : Clause} {p q : List Term} {F G : Term → Term} {s : Substitution}

/-- Clauses compare by their positive atoms, and by their negated ones where these agree. -/
theorem compare_eq (c d : Clause) :
    compare c d = (compare c.pos d.pos).then (compare c.neg d.neg) := rfl

instance : TransOrd Clause :=
  inferInstanceAs (TransCmp (compareLex (compareOn Clause.pos) (compareOn Clause.neg)))

instance : LawfulEqOrd Clause where
  compare_self {c} := by
    rw [compare_eq, Std.compare_self, Std.compare_self]
    rfl
  eq_of_compare {c d} h := by
    rw [compare_eq, Ordering.then_eq_eq] at h
    cases c
    cases d
    rw [mk.injEq]
    exact ⟨LawfulEqCmp.eq_of_compare h.1, LawfulEqCmp.eq_of_compare h.2⟩

/-! ### Arranged literals -/

/-- The literal sets are the strictly ascending lists of the members of `p` and of `q`. -/
structure Arranges (c : Clause) (p q : List Term) : Prop where
  pos_ascending : c.pos.toList.Pairwise fun t u ↦ compare t u = .lt
  neg_ascending : c.neg.toList.Pairwise fun t u ↦ compare t u = .lt
  mem_pos : ∀ t, t ∈ c.pos.toList ↔ t ∈ p
  mem_neg : ∀ t, t ∈ c.neg.toList ↔ t ∈ q

/-- Exactly one clause arranges two lists: the one that is made from them. -/
theorem arranges_iff : c.Arranges p q ↔ c = ofLists p q := by
  constructor
  · intro h
    have hpos : c.pos = .ofList p := SortedSet.ext fun t ↦ by
      rw [SortedSet.mem_ofList, ← h.mem_pos, SortedSet.mem_toList]
    have hneg : c.neg = .ofList q := SortedSet.ext fun t ↦ by
      rw [SortedSet.mem_ofList, ← h.mem_neg, SortedSet.mem_toList]
    rw [ofLists, ← hpos, ← hneg]
  · rintro rfl
    exact ⟨SortedSet.ascending _, SortedSet.ascending _, fun t ↦ SortedSet.mem_ofList,
      fun t ↦ SortedSet.mem_ofList⟩

/-- The clause arranges the images of the literals of `c`. -/
def ArrangesImage (d : Clause) (F : Term → Term) (c : Clause) : Prop :=
  d.Arranges (c.pos.toList.map F) (c.neg.toList.map F)

/-- A clause whose sides are images of the sides of another one arranges the images of the literals.
-/
theorem arrangesImage_of_map (hpos : d.pos = c.pos.map F) (hneg : d.neg = c.neg.map F) :
    d.ArrangesImage F c := by
  refine arranges_iff.2 ?_
  cases d
  subst hpos hneg
  rfl

theorem ArrangesImage.trans (h : d.ArrangesImage F c) (h' : e.ArrangesImage G d) :
    e.ArrangesImage (fun t ↦ G (F t)) c := by
  obtain rfl := arranges_iff.1 h
  obtain rfl := arranges_iff.1 h'
  refine arrangesImage_of_map ?_ ?_
  · exact SortedSet.map_map F G c.pos
  · exact SortedSet.map_map F G c.neg

/-- The images of the literals are literals. -/
theorem ArrangesImage.mem {t : Term} (h : d.ArrangesImage F c) (ht : t ∈ c.pos ∨ t ∈ c.neg) :
    F t ∈ d.pos ∨ F t ∈ d.neg :=
  ht.imp (fun ht ↦ (h.mem_pos _).2 (List.mem_map_of_mem ht))
    fun ht ↦ (h.mem_neg _).2 (List.mem_map_of_mem ht)

/-- Negating exchanges the sides and leaves the atoms as they are. -/
theorem arranges_negate (c : Clause) : c.negate.Arranges c.neg.toList c.pos.toList :=
  ⟨c.neg.ascending, c.pos.ascending, fun _ ↦ Iff.rfl, fun _ ↦ Iff.rfl⟩

theorem arrangesImage_rename (f : String → String) (c : Clause) :
    (c.rename f).ArrangesImage (Term.rename f) c :=
  arrangesImage_of_map rfl rfl

theorem arrangesImage_renameSuffix (z : String) (c : Clause) :
    (c.renameSuffix z).ArrangesImage (Term.renameSuffix z) c :=
  arrangesImage_of_map rfl rfl

/-- What a substitution gives has the images of the literals under it. -/
theorem exists_arrangesImage_of_apply (h : c.apply s = .ok d) :
    ∃ F, (∀ t, t ∈ c.pos ∨ t ∈ c.neg → s.apply t = .ok (F t)) ∧ d.ArrangesImage F c := by
  obtain ⟨F, hF, hpos, hneg⟩ := exists_map_of_apply h
  exact ⟨F, hF, arrangesImage_of_map hpos hneg⟩

/-- What factoring gives has the images of the literals under the unifiers that were used, one after
another. -/
theorem exists_arrangesImage_of_factor (h : (c.factor n).run = some (.ok d)) :
    ∃ ss F, c.MergedBy n ss d ∧ (∀ t, t ∈ c.pos ∨ t ∈ c.neg → applyAll ss t = .ok (F t)) ∧
      d.ArrangesImage F c := by
  obtain ⟨ss, hss⟩ := (factored_of_factor h).exists_mergedBy
  obtain ⟨F, hF, hpos, hneg⟩ := hss.exists_map
  exact ⟨ss, F, hss, hF, arrangesImage_of_map hpos hneg⟩

/-- Canonical naming renames the literals, and does so without identifying variables. -/
theorem exists_arrangesImage_canonicalize (c : Clause) :
    ∃ f, Set.InjOn f {x | x ∈ c.variableNames} ∧
      c.canonicalize.ArrangesImage (Term.rename f) c := by
  obtain ⟨f, hf, hcanonical⟩ := c.isVariant_canonicalize
  exact ⟨f, hf, hcanonical ▸ arrangesImage_rename f c⟩

/-- A resolvent arranges the images of the literals that were not resolved upon: under the unifier
and the ones of factoring, one after another, and then renamed. -/
theorem exists_arrangesImage_of_mem_resolvents {l : List Clause}
    (h : resolvents n c d = some (.ok l)) (he : e ∈ l) :
    ∃ k ∈ clashes c d, ∃ (s : Substitution) (ss : List Substitution) (F : Term → Term)
      (f : String → String), mgu? n k.positive k.negated = some (some s) ∧
      (∀ t, t ∈ k.remainder.pos ∨ t ∈ k.remainder.neg → applyAll (s :: ss) t = .ok (F t)) ∧
      e.ArrangesImage (fun t ↦ (F t).rename f) k.remainder := by
  obtain ⟨r, hr, -, rfl⟩ := resolvents_eq_ok h
  obtain ⟨i, hi, -, rfl⟩ := mem_resolvents.1 he
  obtain ⟨k, hk, hinfer⟩ := exists_of_mem_inferFrom hr hi
  obtain ⟨s, c', d', hs, happly, hfactor, hcanonical, -⟩ := Clash.infer?_eq_ok_some hinfer
  obtain ⟨F, hF, himage⟩ := exists_arrangesImage_of_apply happly
  obtain ⟨ss, G, -, hG, himage'⟩ := exists_arrangesImage_of_factor hfactor
  obtain ⟨f, -, himage''⟩ := exists_arrangesImage_canonicalize d'
  refine ⟨k, hk, s, ss, fun t ↦ G (F t), f, hs, fun t ht ↦ ?_, ?_⟩
  · rw [applyAll_cons, hF t ht]
    exact hG (F t) (himage.mem ht)
  · exact hcanonical ▸ (himage.trans himage').trans himage''

/-- **Literal sets are canonical.** Terms and clauses are totally ordered, as deep and as long as
they may be, and compare as equal only when they are the same; argument lists are compared from the
first difference on, and a proper prefix is smaller. A clause made from lists of atoms depends on
their members only, and arranges them in strictly ascending order; so do the clauses that negating,
marking, substituting, factoring, canonical naming and resolving return with the images of the
literals that they were given. -/
theorem literals_canonical :
    (TransOrd Term ∧ LawfulEqOrd Term) ∧ (TransOrd Clause ∧ LawfulEqOrd Clause) ∧
    (∀ g ts us vs, compare (Term.app g (ts ++ us)) (.app g (ts ++ vs)) = compare us vs) ∧
    (∀ g ts u us, compare (Term.app g ts) (.app g (ts ++ u :: us)) = .lt) ∧
    (∀ p p' q q', (∀ t, t ∈ p ↔ t ∈ p') → (∀ t, t ∈ q ↔ t ∈ q') → ofLists p q = ofLists p' q') ∧
    (∀ p q, (ofLists p q).Arranges p q) ∧
    (∀ c : Clause, c.negate.Arranges c.neg.toList c.pos.toList) ∧
    (∀ (z : String) (c : Clause), (c.renameSuffix z).ArrangesImage (Term.renameSuffix z) c) ∧
    (∀ (s : Substitution) (c d : Clause), c.apply s = .ok d →
      ∃ F, (∀ t, t ∈ c.pos ∨ t ∈ c.neg → s.apply t = .ok (F t)) ∧ d.ArrangesImage F c) ∧
    (∀ (n : Nat) (c d : Clause), (c.factor n).run = some (.ok d) →
      ∃ ss F, c.MergedBy n ss d ∧ (∀ t, t ∈ c.pos ∨ t ∈ c.neg → applyAll ss t = .ok (F t)) ∧
        d.ArrangesImage F c) ∧
    (∀ c : Clause, ∃ f, Set.InjOn f {x | x ∈ c.variableNames} ∧
      c.canonicalize.ArrangesImage (Term.rename f) c) ∧
    (∀ (n : Nat) (c d : Clause) (l : List Clause), resolvents n c d = some (.ok l) → ∀ e ∈ l,
      ∃ k ∈ clashes c d, ∃ (s : Substitution) (ss : List Substitution) (F : Term → Term)
        (f : String → String), mgu? n k.positive k.negated = some (some s) ∧
        (∀ t, t ∈ k.remainder.pos ∨ t ∈ k.remainder.neg → applyAll (s :: ss) t = .ok (F t)) ∧
        e.ArrangesImage (fun t ↦ (F t).rename f) k.remainder) := by
  refine ⟨⟨inferInstance, inferInstance⟩, ⟨inferInstance, inferInstance⟩,
    Term.compare_app_append, fun g ts u us ↦ ?_,
    fun p p' q q' hp hq ↦ ofLists_eq_ofLists_iff.2 ⟨hp, hq⟩, fun p q ↦ arranges_iff.2 rfl,
    arranges_negate, arrangesImage_renameSuffix, fun s c d h ↦ exists_arrangesImage_of_apply h,
    fun n c d h ↦ exists_arrangesImage_of_factor h, exists_arrangesImage_canonicalize,
    fun n c d l h e he ↦ exists_arrangesImage_of_mem_resolvents h he⟩
  -- the shorter list ends where the longer one goes on
  have h := Term.compare_app_append g ts [] (u :: us)
  rwa [List.append_nil] at h

/-- In `p(x) ∨ r(b) ∨ r(x) ∨ r(f(b)) ∨ r(f(f(b)))` the literal `r(x)` comes before `r(f(b))`. With
`x ↦ f(f(b))`, also when this is the unifier of a resolution, its image comes after that and is the
last literal; when the clause is factored, it is the first one of `r`. -/
theorem literals_canonical_merged :
    let b := Term.const (.symbol "b")
    let f (t : Term) := Term.app "f" [t]
    let p (t : Term) := Term.app "p" [t]
    let r (t : Term) := Term.app "r" [t]
    let x := Term.var "x" 0
    let c := ofLists [r (f (f b)), r x, r (f b), p x, r b] []
    let s := ofList [("x", f (f b))]
    c = ofLists [p x, r b, r x, p x, r (f b), r (f (f b)), r x] [] ∧
    c.pos.toList = [p x, r b, r x, r (f b), r (f (f b))] ∧
    (∃ d F, c.apply s = .ok d ∧ d.pos.toList = [p (f (f b)), r b, r (f b), r (f (f b))] ∧
      F (r x) = r (f (f b)) ∧ d.ArrangesImage F c) ∧
    (∃ d F, (c.factor 4).run = some (.ok d) ∧
      d.pos.toList = [p b, r b, r (f b), r (f (f b))] ∧ d.ArrangesImage F c) ∧
    ∃ e k F, resolvents 4 c (ofLists [] [p (f (f b))]) = some (.ok [e]) ∧
      e.pos.toList = [r b, r (f b), r (f (f b))] ∧
      k ∈ clashes c (ofLists [] [p (f (f b))]) ∧ e.ArrangesImage F k.remainder := by
  intro b f p r x c s
  obtain ⟨-, -, -, -, hnew, -, -, -, happly, hfactor, -, hresolve⟩ := literals_canonical
  have hc : c = ofLists [p x, r b, r x, p x, r (f b), r (f (f b)), r x] [] :=
    hnew _ _ _ _ (by grind) fun _ ↦ Iff.rfl
  have hd : c.apply s = .ok (ofLists [p (f (f b)), r b, r (f b), r (f (f b))] []) := by
    decide +kernel
  have hd' : (c.factor 4).run = some (.ok (ofLists [p b, r b, r (f b), r (f (f b))] [])) := by
    decide +kernel
  have he : resolvents 4 c (ofLists [] [p (f (f b))]) =
      some (.ok [ofLists [r b, r (f b), r (f (f b))] []]) := by
    decide +kernel
  obtain ⟨F, hF, himage⟩ := happly _ _ _ hd
  have hx : F (r x) = r (f (f b)) := by
    have himageOfX := hF (r x) (.inl (by decide +kernel))
    have hcomputed : s.apply (r x) = .ok (r (f (f b))) := by decide +kernel
    exact Except.ok.inj (himageOfX.symm.trans hcomputed)
  obtain ⟨-, G, -, -, hfactored⟩ := hfactor _ _ _ hd'
  obtain ⟨k, hk, -, -, H, g, -, -, hresolvent⟩ := hresolve _ _ _ _ he _ (List.mem_singleton_self _)
  exact ⟨hc, by decide +kernel, ⟨_, F, hd, by decide +kernel, hx, himage⟩,
    ⟨_, G, hd', by decide +kernel, hfactored⟩, ⟨_, k, _, he, by decide +kernel, hk, hresolvent⟩⟩

end Clause

end OffsetLogic
