import OffsetLogic.Proofs.Rules.Herbrand
import OffsetLogic.Proofs.Rules.Renaming
import OffsetLogic.Proofs.Semantics.Soundness

/-!
# Images of clauses

What resolving, applying a substitution and renaming make of a clause has literals that come from
literals of the clause (`Clause.Image`), by a relation that gives each literal one image and makes
the instances of the images instances of the literals (`Specializes`). Such a clause has no more
literals, and it is `Scattered` if the clause is, which means that no two of its literals have a
common instance. A scattered clause is left alone: factoring does not change it
(`Clause.Scattered.factor_eq`), and it is not tautological (`Clause.Scattered.isTautological_ne`).

**A relation, and not a function**, because a substitution may fail: the image of a literal is what
it can be applied to, and the literals of an image have one by the way they came about. Relations of
this kind compose, so what a whole inference makes of a clause is one such relation, and nothing
about it has to be proved again for the stages together.

Scattered is stated by instances and not by unification. So it passes to images without an argument
about unifiers: a common instance of two images is one of the two literals. Unification comes in at
the end, where literals that unify are shown to have a common instance, since their unifier is
acyclic and makes them equal; this needs the literals to be flat. The converse, that literals with a
common instance unify, needs that there are no offsets as well, and is used only to see from a
computation that a clause is scattered.

`ImageAt` remembers in addition one instance of the clause that the image still has. That is what an
inference keeps of the rule it resolves, and a plain image need not have.
-/

namespace OffsetLogic

open Model

/-- The literals have a common instance. -/
def Term.Meets (t u : Term) : Prop := ∃ v, herbrand.eval v t = herbrand.eval v u

namespace Clause

/-- Each literal of `d` comes from a literal of `c` of the same sign. -/
structure Image (R : Term → Term → Prop) (c d : Clause) : Prop where
  pos : ∀ u, u ∈ d.pos → ∃ t, t ∈ c.pos ∧ R t u
  neg : ∀ u, u ∈ d.neg → ∃ t, t ∈ c.neg ∧ R t u

/-- The clause without one of its negated literals. -/
def without (c : Clause) (b : Term) : Clause := ⟨c.pos, c.neg.erase b⟩

/-- No two literals have a common instance. -/
structure Scattered (c : Clause) : Prop where
  pos : ∀ t u, t ∈ c.pos → u ∈ c.pos → t.Meets u → t = u
  neg : ∀ t u, t ∈ c.neg → u ∈ c.neg → t.Meets u → t = u
  apart : ∀ t u, t ∈ c.pos → u ∈ c.neg → ¬ t.Meets u

end Clause

/-- A term has at most one image, and the values of the images in a valuation are the values of the
terms in another. -/
structure Specializes (R : Term → Term → Prop) : Prop where
  unique : ∀ t u u', R t u → R t u' → u = u'
  eval : ∀ v, ∃ w, ∀ t u, R t u → herbrand.eval v u = herbrand.eval w t

variable {R S : Term → Term → Prop} {c d e : Clause} {s : Substitution} {b t u : Term} {n : Nat}

/-! ### Specializations -/

theorem Specializes.trans (hR : Specializes R) (hS : Specializes S) :
    Specializes fun t v ↦ ∃ u, R t u ∧ S u v := by
  refine ⟨?_, fun v ↦ ?_⟩
  · rintro t v v' ⟨u, hu, hv⟩ ⟨u', hu', hv'⟩
    exact hS.unique u v v' hv (hR.unique t u' u hu' hu ▸ hv')
  · obtain ⟨v₁, hv₁⟩ := hS.eval v
    obtain ⟨v₂, hv₂⟩ := hR.eval v₁
    refine ⟨v₂, ?_⟩
    rintro t x ⟨u, hu, hx⟩
    rw [hv₁ u x hx, hv₂ t u hu]

theorem specializes_rename (f : String → String) : Specializes fun t u ↦ t.rename f = u := by
  refine ⟨?_, fun v ↦ ⟨fun x ↦ v (f x), ?_⟩⟩
  · rintro t _ _ rfl rfl
    rfl
  · rintro t _ rfl
    exact eval_rename f v t

/-- Applying acyclic bindings is a specialization: a valuation of the images extends to one that
solves the bindings. -/
theorem specializes_apply (hs : s.Acyclic) (al : s.Aliasing) :
    Specializes fun t u ↦ s.apply t = .ok u := by
  refine ⟨fun t u u' hu hu' ↦ Except.ok.inj (hu.symm.trans hu'), fun v ↦ ?_⟩
  obtain ⟨w, hw, hwv⟩ := exists_solves (M := herbrand) hs al v
  exact ⟨w, fun t u hu ↦ eval_apply hs al hw hwv hu⟩

/-- Literals whose images have a common instance have one. -/
theorem Specializes.meets (hR : Specializes R) {t' u' : Term} (ht : R t t') (hu : R u u')
    (h : t'.Meets u') : t.Meets u := by
  obtain ⟨v, hv⟩ := h
  obtain ⟨w, hw⟩ := hR.eval v
  exact ⟨w, by rw [← hw t t' ht, ← hw u u' hu, hv]⟩

/-- Flat literals that unify have a common instance. -/
theorem Term.meets_of_mgu? {o : Offsets} (ht : t.isFlat o = true) (hu : u.isFlat o = true)
    (h : mgu? n t u = some (some s)) : t.Meets u := by
  obtain ⟨al⟩ := nonempty_aliasing_of_mgu? h
  have hacyclic := (shallow_of_mgu? ht hu h).acyclic
  obtain ⟨w, hw, -⟩ := exists_solves (M := herbrand) hacyclic al fun x ↦ .var x 0
  exact ⟨w, eval_eq_of_mgu? h hw⟩

/-- Flat literals without offsets that have a common instance unify. -/
theorem Term.unifiable_of_meets (ht : t.isFlat .zero = true) (hu : u.isFlat .zero = true)
    (h : t.Meets u) : unifiable 2 t u = some true := by
  obtain ⟨v, hv⟩ := h
  obtain ⟨s, hs, -⟩ := exists_mgu? ht hu hv 0
  rw [unifiable, hs]
  rfl

/-! ### Images -/

theorem SortedSet.size_erase_lt {s : SortedSet Term} (hb : b ∈ s) : (s.erase b).size < s.size := by
  refine List.length_filter_lt_length_iff_exists.2 ⟨b, SortedSet.mem_toList.2 hb, ?_⟩
  simp

namespace Clause

/-- Only what the relation does to literals of the clause matters. -/
theorem Image.mono (h : Image R c d)
    (hRS : ∀ t u, t ∈ c.pos ∨ t ∈ c.neg → R t u → S t u) : Image S c d := by
  refine ⟨fun u hu ↦ ?_, fun u hu ↦ ?_⟩
  · obtain ⟨t, ht, htu⟩ := h.pos u hu
    exact ⟨t, ht, hRS t u (.inl ht) htu⟩
  · obtain ⟨t, ht, htu⟩ := h.neg u hu
    exact ⟨t, ht, hRS t u (.inr ht) htu⟩

theorem Image.trans (h : Image R c d) (h' : Image S d e) :
    Image (fun t v ↦ ∃ u, R t u ∧ S u v) c e := by
  refine ⟨fun v hv ↦ ?_, fun v hv ↦ ?_⟩
  · obtain ⟨u, hu, huv⟩ := h'.pos v hv
    obtain ⟨t, ht, htu⟩ := h.pos u hu
    exact ⟨t, ht, u, htu, huv⟩
  · obtain ⟨u, hu, huv⟩ := h'.neg v hv
    obtain ⟨t, ht, htu⟩ := h.neg u hu
    exact ⟨t, ht, u, htu, huv⟩

theorem image_rename (f : String → String) (c : Clause) :
    Image (fun t u ↦ t.rename f = u) c (c.rename f) :=
  ⟨fun _ hu ↦ SortedSet.mem_map.1 hu, fun _ hu ↦ SortedSet.mem_map.1 hu⟩

/-- What a substitution makes of a clause is an image. -/
theorem image_apply (h : c.apply s = .ok d) : Image (fun t u ↦ s.apply t = .ok u) c d :=
  ⟨fun _ hu ↦ (mem_pos_apply h).1 hu, fun _ hu ↦ (mem_neg_apply h).1 hu⟩

/-- Renaming a clause without a literal leaves no more than renaming first. -/
theorem image_without_rename (f : String → String) (c : Clause) (b : Term) :
    Image (fun t u ↦ t.rename f = u) (c.without b) ((c.rename f).without (b.rename f)) := by
  refine ⟨fun u hu ↦ SortedSet.mem_map.1 hu, fun u hu ↦ ?_⟩
  obtain ⟨hu, hne⟩ := SortedSet.mem_erase.1 hu
  obtain ⟨t, ht, rfl⟩ := SortedSet.mem_map.1 hu
  exact ⟨t, SortedSet.mem_erase.2 ⟨ht, fun htb ↦ hne (htb ▸ rfl)⟩, rfl⟩

/-- An image has no more negated literals than the clause. -/
theorem Image.size_neg_le (hR : ∀ t u u', R t u → R t u' → u = u') (h : Image R c d) :
    d.neg.size ≤ c.neg.size := by
  classical
  -- the images are chosen, and each literal of `d` is the chosen one
  have hsub : d.neg.toList ⊆ c.neg.toList.map fun t ↦ if h : ∃ u, R t u then h.choose else t := by
    intro u hu
    obtain ⟨t, ht, htu⟩ := h.neg u (SortedSet.mem_toList.1 hu)
    have hex : ∃ u, R t u := ⟨u, htu⟩
    refine List.mem_map.2 ⟨t, SortedSet.mem_toList.2 ht, ?_⟩
    rw [dif_pos hex]
    exact hR t _ u hex.choose_spec htu
  simpa [SortedSet.size] using
    (List.subperm_of_subset (SortedSet.nodup_toList d.neg) hsub).length_le

/-- Images of scattered clauses are scattered. -/
theorem Scattered.image (hc : c.Scattered) (hR : Specializes R) (h : Image R c d) :
    d.Scattered := by
  refine ⟨fun t' u' ht hu hmeet ↦ ?_, fun t' u' ht hu hmeet ↦ ?_, fun t' u' ht hu hmeet ↦ ?_⟩
  · obtain ⟨t, ht, htt⟩ := h.pos t' ht
    obtain ⟨u, hu, huu⟩ := h.pos u' hu
    exact hR.unique u t' u' (hc.pos t u ht hu (hR.meets htt huu hmeet) ▸ htt) huu
  · obtain ⟨t, ht, htt⟩ := h.neg t' ht
    obtain ⟨u, hu, huu⟩ := h.neg u' hu
    exact hR.unique u t' u' (hc.neg t u ht hu (hR.meets htt huu hmeet) ▸ htt) huu
  · obtain ⟨t, ht, htt⟩ := h.pos t' ht
    obtain ⟨u, hu, huu⟩ := h.neg u' hu
    exact hc.apart t u ht hu (hR.meets htt huu hmeet)

/-! ### Images with an instance -/

/-- `d` is an image of `c` and still has the instance that `c` has in the valuation. -/
def ImageAt (v : String → Term) (c d : Clause) : Prop :=
  ∃ R, Specializes R ∧
    ∃ u, Image (fun t t' ↦ R t t' ∧ herbrand.eval u t' = herbrand.eval v t) c d

variable {v : String → Term}

theorem ImageAt.scattered (h : ImageAt v c d) (hc : c.Scattered) : d.Scattered := by
  obtain ⟨R, hR, u, himage⟩ := h
  exact hc.image hR (himage.mono fun _ _ _ h ↦ h.1)

/-- An image that keeps an instance has no more negated literals either. -/
theorem ImageAt.size_neg_le (h : ImageAt v c d) : d.neg.size ≤ c.neg.size := by
  obtain ⟨R, hR, u, himage⟩ := h
  exact (himage.mono fun _ _ _ h ↦ h.1).size_neg_le hR.unique

/-- Some valuation gives the literals of the image values of literals of the clause. -/
theorem ImageAt.exists_values (h : ImageAt v c d) :
    ∃ u, Image (fun t t' ↦ herbrand.eval u t' = herbrand.eval v t) c d := by
  obtain ⟨R, -, u, himage⟩ := h
  exact ⟨u, himage.mono fun _ _ _ h ↦ h.2⟩

/-- A renamed clause has the same instances. -/
theorem eval_rename_of_mem {f : String → String} {w : String → Term}
    (hw : ∀ x ∈ c.variableNames, w (f x) = v x) (ht : t ∈ c.pos ∨ t ∈ c.neg) :
    herbrand.eval w (t.rename f) = herbrand.eval v t := by
  rw [eval_rename]
  exact eval_congr fun x hx ↦
    hw x (ht.elim (mem_variableNames_of_mem_pos · hx) (mem_variableNames_of_mem_neg · hx))

theorem ImageAt.canonicalize (h : ImageAt v c d) : ImageAt v c d.canonicalize := by
  obtain ⟨R, hR, u, himage⟩ := h
  obtain ⟨f, w, hf, hw⟩ := exists_valuation_canonicalize d u
  rw [hf]
  refine ⟨_, hR.trans (specializes_rename f), w, fun t' ht' ↦ ?_, fun t' ht' ↦ ?_⟩
  · obtain ⟨t₁, ht₁, rfl⟩ := SortedSet.mem_map.1 ht'
    obtain ⟨t, ht, htt, heq⟩ := himage.pos t₁ ht₁
    exact ⟨t, ht, ⟨t₁, htt, rfl⟩, (eval_rename_of_mem hw (.inl ht₁)).trans heq⟩
  · obtain ⟨t₁, ht₁, rfl⟩ := SortedSet.mem_map.1 ht'
    obtain ⟨t, ht, htt, heq⟩ := himage.neg t₁ ht₁
    exact ⟨t, ht, ⟨t₁, htt, rfl⟩, (eval_rename_of_mem hw (.inr ht₁)).trans heq⟩

/-! ### Scattered clauses -/

/-- A scattered clause is scattered without one of its literals. -/
theorem Scattered.without (hc : c.Scattered) (b : Term) : (c.without b).Scattered :=
  ⟨hc.pos, fun t u ht hu ↦ hc.neg t u (SortedSet.mem_erase.1 ht).1 (SortedSet.mem_erase.1 hu).1,
    fun t u ht hu ↦ hc.apart t u ht (SortedSet.mem_erase.1 hu).1⟩

/-- Factoring leaves a scattered clause alone, since no two of its literals unify. -/
theorem Scattered.factor_eq {o : Offsets} (hc : c.Scattered) (hflat : c.isFlat o = true)
    (h : (c.factor n).run = some (.ok d)) : d = c := by
  cases factored_of_factor h with
  | done => rfl
  | @merge _ d' _ s pre post e hpairs _ hs =>
    have he : e ∈ c.pairs := hpairs ▸ List.mem_append_right _ List.mem_cons_self
    obtain ⟨h₁, h₂⟩ := isFlat_of_mem_pairs hflat he
    have hmeet := Term.meets_of_mgu? h₁ h₂ hs
    refine absurd ?_ (ne_of_mem_pairs he)
    obtain ⟨h₁, h₂⟩ | ⟨h₁, h₂⟩ := mem_of_mem_pairs he
    · exact hc.pos _ _ h₁ h₂ hmeet
    · exact hc.neg _ _ h₁ h₂ hmeet

/-- A scattered clause does not count as tautological. -/
theorem Scattered.isTautological_ne {o : Offsets} (hc : c.Scattered) (hflat : c.isFlat o = true) :
    c.isTautological n ≠ some true := by
  intro h
  obtain ⟨p, hp, q, hq, s, hs⟩ := exists_mgu?_of_isTautological h
  obtain ⟨hpos, hneg⟩ := isFlat_iff.1 hflat
  exact hc.apart p q hp hq (Term.meets_of_mgu? (hpos p hp) (hneg q hq) hs)

end Clause

end OffsetLogic
