import OffsetLogic.Proofs.Rules.Image
import OffsetLogic.Proofs.Rules.Renaming

/-!
# Resolving facts away

A fact and an instance of a rule whose negated literal is an instance of the fact are resolved, and
the conclusion still has the rest of the instance of the rule (`exists_factStep`). The search does
not keep conclusions as they are: it factors them, and it drops what is tautological. An inference
is **lossless** when neither does harm, which means that factoring changes nothing, and that a
conclusion that is dropped has an atom of both signs (`Clash.Lossless`).

**One literal of each rule is enough.** If every rule of a set of definite clauses has some negated
literal upon which facts can be resolved away without loss, and the conclusions are in the set
again, then the facts of the set cover what its rules give: when the instances of the negated
literals are instances of facts, so is the instance of the positive one (`Selective.covered`). The
proof is by induction on the number of negated literals.

## What is kept of an instance

A conclusion is less general than the rule it comes from: the unifier has bound variables of it.
What matters is that it still has the one instance that is wanted. `FactStep` says so with a
valuation: in it, the literals of the conclusion have the values that the other literals of the rule
have, because the unifier is most general and the instance solves it. Renaming apart, before, and
naming canonically, after, keep this, since they can be undone on the names that occur.

A conclusion that has an atom of both signs may be dropped, and then the induction does not go on
with it. There the positive literal is among the negated ones, so its instance is covered already,
as one of the instances of the body. That is the only kind of tautology that does no harm; one whose
literals merely unify has instances which are none.
-/

namespace OffsetLogic

open Model

/-! ### Facts and rules -/

namespace Clause

/-- Exactly one literal is positive. -/
def IsDefinite (c : Clause) : Prop := c.pos.size = 1

instance (c : Clause) : Decidable c.IsDefinite := inferInstanceAs (Decidable (_ = _))

/-- The only literal is positive. -/
def IsFact (c : Clause) : Prop := c.IsDefinite ∧ c.neg = ∅

variable {c d : Clause} {R : Term → Term → Prop} {s : Substitution} {t u : Term}

/-- A clause is definite when it has a positive literal and no other one. -/
theorem isDefinite_iff : c.IsDefinite ↔ ∃ h, ∀ t, t ∈ c.pos ↔ t = h := by
  rw [IsDefinite, SortedSet.size, List.length_eq_one_iff]
  refine exists_congr fun h ↦ ⟨fun heq t ↦ ?_, fun hmem ↦ ?_⟩
  · rw [← SortedSet.mem_toList, heq, List.mem_singleton]
  · have : c.pos = .ofList [h] := SortedSet.ext fun t ↦ by simp [hmem t]
    rw [this]
    rfl

theorem IsDefinite.exists_mem_pos (hc : c.IsDefinite) : ∃ h, h ∈ c.pos := by
  obtain ⟨h, hh⟩ := isDefinite_iff.1 hc
  exact ⟨h, (hh h).2 rfl⟩

/-- A definite clause has no two positive literals. -/
theorem IsDefinite.eq_of_mem_pos (hc : c.IsDefinite) (ht : t ∈ c.pos) (hu : u ∈ c.pos) : t = u := by
  obtain ⟨h, hh⟩ := isDefinite_iff.1 hc
  rw [(hh t).1 ht, (hh u).1 hu]

/-- An image of a definite clause is definite, unless it has lost its positive literal. -/
theorem IsDefinite.image (hc : c.IsDefinite) (hR : ∀ t u u', R t u → R t u' → u = u')
    (h : Image R c d) (hne : ∃ u, u ∈ d.pos) : d.IsDefinite := by
  obtain ⟨u, hu⟩ := hne
  refine isDefinite_iff.2 ⟨u, fun u' ↦ ⟨fun hu' ↦ ?_, fun huu ↦ huu ▸ hu⟩⟩
  obtain ⟨t, ht, htu⟩ := h.pos u hu
  obtain ⟨t', ht', htu'⟩ := h.pos u' hu'
  exact hR t u' u (hc.eq_of_mem_pos ht' ht ▸ htu') htu

theorem IsDefinite.rename (hc : c.IsDefinite) (f : String → String) : (c.rename f).IsDefinite := by
  obtain ⟨h, hh⟩ := hc.exists_mem_pos
  exact hc.image (specializes_rename f).unique (image_rename f c)
    ⟨_, SortedSet.mem_map.2 ⟨h, hh, rfl⟩⟩

/-- Renaming adds no negated literals. -/
theorem neg_rename_eq_empty (hc : c.neg = ∅) (f : String → String) : (c.rename f).neg = ∅ := by
  rw [Clause.rename, hc]
  rfl

theorem IsFact.rename (hc : c.IsFact) (f : String → String) : (c.rename f).IsFact :=
  ⟨hc.1.rename f, neg_rename_eq_empty hc.2 f⟩

theorem exists_mem_neg (hc : c.neg ≠ ∅) : ∃ b, b ∈ c.neg := by
  refine Classical.byContradiction fun h ↦ hc (SortedSet.ext fun t ↦ ?_)
  exact iff_of_false (fun ht ↦ h ⟨t, ht⟩) SortedSet.not_mem_empty

end Clause

/-! ### Conclusions -/

/-- Factoring does not change the clause, and if it counts as tautological, it has an atom of both
signs. -/
def Clause.Untouched (n : Nat) (c : Clause) : Prop :=
  (c.factor n).run = some (.ok c) ∧ (c.canonicalize.isTautological n = some true → c.Clashing)

namespace Clash

/-- The conclusion before it is factored. -/
def Conclusion (n : Nat) (k : Clash) (c : Clause) : Prop :=
  ∃ s, mgu? n k.positive k.negated = some (some s) ∧ k.remainder.apply s = .ok c

/-- The search takes the conclusion as it is, or drops it for an atom of both signs. -/
def Lossless (n : Nat) (k : Clash) : Prop := ∀ c, k.Conclusion n c → c.Untouched n

variable {n : Nat} {k : Clash} {c fact x y : Clause} {r : Resolution} {a b : Term}
variable {u : String → Term}

/-- Resolving with a fact leaves the other clause without the literal resolved upon. -/
theorem remainder_of_isFact (hl : k.left.IsFact) (hp : k.positive ∈ k.left.pos) :
    k.remainder = k.right.without k.negated := by
  have hpos : k.remainder.pos = k.right.pos := SortedSet.ext fun t ↦ by
    rw [mem_pos_remainder]
    exact ⟨fun h ↦ h.resolve_left fun h ↦ h.2 (hl.1.eq_of_mem_pos h.1 hp), .inr⟩
  have hneg : k.remainder.neg = k.right.neg.erase k.negated := SortedSet.ext fun t ↦ by
    rw [mem_neg_remainder, SortedSet.mem_erase, hl.2]
    exact ⟨fun h ↦ h.resolve_left SortedSet.not_mem_empty, .inr⟩
  exact congr (congrArg Clause.mk hpos) hneg

/-- A conclusion that is taken as it is is among the resolvents, unless it has an atom of both
signs. -/
theorem Conclusion.mem_resolvents_or (hc : k.Conclusion n c) (huntouched : c.Untouched n)
    (hk : k ∈ clashes x y) (hr : resolve n x y = some r) (hf : r.fault = none) :
    c.canonicalize ∈ r.resolvents ∨ c.Clashing := by
  obtain ⟨i?, hi, hdrawn⟩ := infer?_of_mem_inferFrom hr hf hk
  obtain ⟨s, hs, happly⟩ := hc
  obtain ⟨hfactor, htaut⟩ := huntouched
  rw [infer?_run, hs, Option.bind_some] at hi
  dsimp only at hi
  rw [happly] at hi
  dsimp only at hi
  rw [hfactor, Option.bind_some] at hi
  obtain ⟨t, ht, hi⟩ := Option.map_eq_some_iff.1 hi
  cases hi
  cases t with
  | true => exact .inr (htaut ht)
  | false => exact .inl (mem_resolvents.2 ⟨_, hdrawn _ rfl, rfl, rfl⟩)

/-- Two clauses clash, in either order, upon any literals of opposite signs, and have all their
instances together as they stand in the clash. -/
theorem exists_mem_clashes (ha : a ∈ fact.pos) (hb : b ∈ c.neg)
    (hxy : x = fact ∧ y = c ∨ x = c ∧ y = fact) (w v : String → Term) :
    ∃ (f g : String → String) (u : String → Term),
      ⟨fact.rename f, c.rename g, a.rename f, b.rename g⟩ ∈ clashes x y ∧
      (∀ z ∈ fact.variableNames, u (f z) = w z) ∧ ∀ z ∈ c.variableNames, u (g z) = v z := by
  have hbetween : ∀ f g, ⟨fact.rename f, c.rename g, a.rename f, b.rename g⟩ ∈
      between (fact.rename f) (c.rename g) := fun f g ↦
    mem_between.2 ⟨_, SortedSet.mem_map.2 ⟨a, ha, rfl⟩, _, SortedSet.mem_map.2 ⟨b, hb, rfl⟩, rfl⟩
  obtain ⟨rfl, rfl⟩ | ⟨rfl, rfl⟩ := hxy
  · obtain ⟨f, g, u, hxy, hw, hv⟩ := x.exists_valuation_standardizeApart y w v
    refine ⟨f, g, u, ?_, hw, hv⟩
    rw [clashes, hxy]
    exact List.mem_append_left _ (hbetween f g)
  · obtain ⟨g, f, u, hxy, hv, hw⟩ := x.exists_valuation_standardizeApart y v w
    refine ⟨f, g, u, ?_, hw, hv⟩
    rw [clashes, hxy]
    exact List.mem_append_right _ (hbetween f g)

/-- When a clash upon literals with a common instance is resolved, it has a conclusion. The
conclusion is made by a unifier that the instance solves, and it is factored. -/
theorem exists_conclusion (hl : k.left.isFlat .zero = true) (hr : k.right.isFlat .zero = true)
    (hp : k.positive ∈ k.left.pos) (hq : k.negated ∈ k.right.neg)
    (heq : herbrand.eval u k.positive = herbrand.eval u k.negated) (hk : k ∈ clashes x y)
    (hres : resolve n x y = some r) (hf : r.fault = none) :
    ∃ s c d, mgu? n k.positive k.negated = some (some s) ∧ k.remainder.apply s = .ok c ∧
      (c.factor n).run = some (.ok d) ∧ s.Shallow .zero ∧ herbrand.Solves u s := by
  obtain ⟨i?, hi, -⟩ := infer?_of_mem_inferFrom hres hf hk
  have hpflat := (Clause.isFlat_iff.1 hl).1 _ hp
  have hqflat := (Clause.isFlat_iff.1 hr).2 _ hq
  rw [infer?_run] at hi
  obtain ⟨s?, hs, hi⟩ := Option.bind_eq_some_iff.1 hi
  obtain ⟨s, rfl, hu⟩ := solves_of_mgu? hpflat hqflat heq hs
  dsimp only at hi
  split at hi
  · cases hi
  · rename_i c hc
    obtain ⟨e | d, hd, hi⟩ := Option.bind_eq_some_iff.1 hi
    · cases hi
    · exact ⟨s, c, d, hs, hc, hd, shallow_of_mgu? hpflat hqflat hs, hu⟩

end Clash

/-! ### Resolving with a fact -/

/-- The clash is of a fact and of `c`, whose names may have been changed, upon `b`. -/
def Clash.Upon (k : Clash) (c : Clause) (b : Term) : Prop :=
  k.left.IsFact ∧ ∃ f, k.right = c.rename f ∧ k.negated = b.rename f

/-- `k` resolves a fact with `c` upon `b`. The conclusion `d` comes from the rest of `c`, and still
has its instance in the valuation. -/
structure FactStep (n : Nat) (v : String → Term) (c : Clause) (b : Term) (k : Clash) (d : Clause) :
    Prop where
  upon : k.Upon c b
  conclusion : k.Conclusion n d
  imageAt : (c.without b).ImageAt v d
  flat : d.isFlat .zero = true
  definite : c.IsDefinite → d.IsDefinite
  factor : ∃ d', (d.factor n).run = some (.ok d')

variable {n : Nat} {x y c fact : Clause} {r : Resolution} {a b : Term} {v w : String → Term}

/-- A fact and a clause, in either order, are resolved upon literals with equal instances. -/
theorem exists_factStep (hfact : fact.IsFact) (hfactflat : fact.isFlat .zero = true)
    (hflat : c.isFlat .zero = true) (ha : a ∈ fact.pos) (hb : b ∈ c.neg)
    (heq : herbrand.eval w a = herbrand.eval v b) (hxy : x = fact ∧ y = c ∨ x = c ∧ y = fact)
    (hr : resolve n x y = some r) (hf : r.fault = none) :
    ∃ k ∈ clashes x y, ∃ d, FactStep n v c b k d := by
  obtain ⟨f, g, u, hk, hw, hv⟩ := Clash.exists_mem_clashes ha hb hxy w v
  have hleft := hfact.rename f
  have hp : a.rename f ∈ (fact.rename f).pos := SortedSet.mem_map.2 ⟨a, ha, rfl⟩
  have heq' : herbrand.eval u (a.rename f) = herbrand.eval u (b.rename g) := by
    rw [Clause.eval_rename_of_mem hw (.inl ha), heq, Clause.eval_rename_of_mem hv (.inr hb)]
  obtain ⟨s, d, d', hs, hd, hfactor, hshallow, hu⟩ := Clash.exists_conclusion
    (Clause.isFlat_rename f hfactflat) (Clause.isFlat_rename g hflat) hp
    (SortedSet.mem_map.2 ⟨b, hb, rfl⟩) heq' hk hr hf
  obtain ⟨al⟩ := nonempty_aliasing_of_mgu? hs
  have hdflat := Clause.isFlat_apply hshallow al (Clash.isFlat_remainder
    (Clause.isFlat_rename f hfactflat) (Clause.isFlat_rename g hflat)) hd
  have hconclusion : Clash.Conclusion n _ d := ⟨s, hs, hd⟩
  rw [Clash.remainder_of_isFact hleft hp] at hd
  -- the rest of the clause is renamed, and then the unifier is applied
  have himage := (Clause.image_without_rename g c b).trans (Clause.image_apply hd)
  have hspecial := (specializes_rename g).trans (specializes_apply hshallow.acyclic al)
  refine ⟨_, hk, d, ⟨hleft, g, rfl, rfl⟩, hconclusion, ⟨_, hspecial, u, himage.mono ?_⟩, hdflat,
    fun hc ↦ ?_, d', hfactor⟩
  · rintro t t' ht ⟨_, rfl, htt⟩
    refine ⟨⟨_, rfl, htt⟩, ?_⟩
    rw [eval_apply hshallow.acyclic al hu (fun _ _ _ ↦ rfl) htt]
    exact Clause.eval_rename_of_mem hv (ht.imp_right fun ht ↦ (SortedSet.mem_erase.1 ht).1)
  · obtain ⟨h, hh⟩ := hc.exists_mem_pos
    obtain ⟨h', hh', -⟩ := Clause.exists_image_of_mem_pos hd (SortedSet.mem_map.2 ⟨h, hh, rfl⟩)
    exact Clause.IsDefinite.image (c := c.without b) hc hspecial.unique himage ⟨h', hh'⟩

/-! ### Selected literals -/

/-- A set of definite clauses each of which has, unless it is a fact, a negated literal upon which
all facts of the set were resolved away, and the conclusions were taken as they are. -/
structure Selective (n : Nat) (S : Clause → Prop) : Prop where
  flat : ∀ c, S c → c.isFlat .zero = true
  definite : ∀ c, S c → c.IsDefinite
  step : ∀ c, S c → c.neg ≠ ∅ → ∃ b, b ∈ c.neg ∧ ∀ fact, S fact → fact.IsFact →
    ∃ x y r, (x = fact ∧ y = c ∨ x = c ∧ y = fact) ∧ resolve n x y = some r ∧ r.fault = none ∧
      ∀ v, ∀ k ∈ clashes x y, ∀ d, FactStep n v c b k d →
        d.Untouched n ∧ (d.canonicalize ∈ r.resolvents → S d.canonicalize)

/-- The term is an instance of a fact of the set. -/
def Covered (S : Clause → Prop) (t : Term) : Prop :=
  ∃ fact, S fact ∧ fact.IsFact ∧ ∃ a w, a ∈ fact.pos ∧ herbrand.eval w a = t

/-- When the instances of the negated literals of a rule are covered, so is the instance of the
positive one. -/
theorem Selective.covered {S : Clause → Prop} (hS : Selective n S) {h : Term} (hc : S c)
    (hh : h ∈ c.pos) (hbody : ∀ b, b ∈ c.neg → Covered S (herbrand.eval v b)) :
    Covered S (herbrand.eval v h) := by
  induction hsize : c.neg.size using Nat.strongRecOn generalizing c h v with
  | ind size ih =>
    subst hsize
    by_cases hneg : c.neg = ∅
    · exact ⟨c, hc, ⟨hS.definite c hc, hneg⟩, h, v, hh, rfl⟩
    obtain ⟨b, hb, hstep⟩ := hS.step c hc hneg
    obtain ⟨fact, hfact, hisFact, a, w, ha, heq⟩ := hbody b hb
    obtain ⟨x, y, r, hxy, hr, hf, hstep⟩ := hstep fact hfact hisFact
    obtain ⟨k, hk, d, hd⟩ := exists_factStep hisFact (hS.flat fact hfact) (hS.flat c hc) ha hb heq
      hxy hr hf
    obtain ⟨huntouched, hmem⟩ := hstep v k hk d hd
    -- the head of a conclusion has the value of `h`, and its other literals are covered
    have hpos : ∀ t, t ∈ (c.without b).pos → t = h := fun t ht ↦
      (hS.definite c hc).eq_of_mem_pos ht hh
    have hcovered : ∀ t, t ∈ (c.without b).neg → Covered S (herbrand.eval v t) := fun t ht ↦
      hbody t (SortedSet.mem_erase.1 ht).1
    rcases hd.conclusion.mem_resolvents_or huntouched hk hr hf with hres | ⟨t, htp, htn⟩
    · obtain ⟨u, hu⟩ := hd.imageAt.canonicalize.exists_values
      obtain ⟨h', hh'⟩ := (hS.definite _ (hmem hres)).exists_mem_pos
      -- the literal resolved upon is gone, so the conclusion is a smaller rule
      have hlt : d.canonicalize.neg.size < c.neg.size :=
        hd.imageAt.canonicalize.size_neg_le.trans_lt (SortedSet.size_erase_lt hb)
      obtain ⟨t, ht, htt⟩ := hu.pos h' hh'
      rw [← hpos t ht, ← htt]
      refine ih _ hlt (hmem hres) hh' (fun b' hb' ↦ ?_) rfl
      obtain ⟨t, ht, htt⟩ := hu.neg b' hb'
      exact htt ▸ hcovered t ht
    · -- the atom of both signs has the value of the head and of a negated literal
      obtain ⟨u, hu⟩ := hd.imageAt.exists_values
      obtain ⟨t₁, ht₁, hval₁⟩ := hu.pos t htp
      obtain ⟨t₂, ht₂, hval₂⟩ := hu.neg t htn
      rw [← hpos t₁ ht₁, ← hval₁, hval₂]
      exact hcovered t₂ ht₂

end OffsetLogic
