import Mathlib.Logic.Relation
import OffsetLogic.Proofs.Renaming.Canonical
import OffsetLogic.Proofs.Unification.Renamed

/-!
# Merging literals in any order

`factor` merges the first two literals of one sign whose merging makes the clause smaller, and what
comes first is decided by names. Here literals are merged in **any order** (`Clause.Merges`), of
which factoring is one (`Clause.Factored.merges`), and that is a notion which renaming respects: if
no variable has an offset, each merging of a clause is a merging of its variants, up to names
(`Clause.Merges.exists_of_isVariant`).

So two variants are factored to variants as soon as a clause has **one factored form**, whichever
literals are merged first (`Clause.FactorsUniquely`). Not every clause has: of `q(x, a)`, `q(u, b)`
and `q(A, y)` the third can be merged with the first or with the second, and not with both.

The condition is about the clause alone, and not about how `factor` goes through it, so it can be
checked without looking at the order of terms. It holds of clauses with at most two literals
(`Clause.factorsUniquely_of_size_le_two`), since there is one pair then at most.

**Offsets are excluded for the unifier's sake.** Which of two variables a unifier binds, and in
which direction an offset is added, is decided by names; the unifiers of renamed terms are renamed
unifiers only up to a change of names in what they give (`OffsetLogic.Proofs.Unification.Renamed`),
and with offsets not even that.
-/

namespace OffsetLogic

open Relation Substitution

variable {m n : Nat} {f : String → String} {S : Set String} {t u : Term} {s : Substitution}

/-- A renaming that keeps names apart keeps the terms over them apart. -/
theorem Term.PlainOver.eq_of_rename_eq (ht : t.PlainOver S) (hu : u.PlainOver S)
    (hf : Set.InjOn f S) (h : t.rename f = u.rename f) : t = u := by
  have hback : ∀ {t : Term}, t.PlainOver S → (t.rename f).rename (Function.invFunOn f S) = t := by
    intro t ht
    have hid : ∀ x ∈ t.occurrences, Function.invFunOn f S (f x) = id x := fun x hx ↦
      have ⟨_, hk⟩ := mem_occurrences_iff.1 hx
      hf.leftInvOn_invFunOn (ht _ hk).1
    rw [rename_rename, rename_congr hid, rename_id]
  rw [← hback ht, h, hback hu]

namespace Clause

variable {c c' d d' : Clause}

/-- Two different literals of one sign have a unifier that makes `c` the smaller clause `d`. -/
def Merges (c d : Clause) : Prop :=
  ∃ n t u s, (t ∈ c.pos ∧ u ∈ c.pos ∨ t ∈ c.neg ∧ u ∈ c.neg) ∧ t ≠ u ∧
    mgu? n t u = some (some s) ∧ c.apply s = .ok d ∧ d.size < c.size

/-- No two literals can be merged. -/
def IsMerged (c : Clause) : Prop := ∀ d, ¬ c.Merges d

/-- Whichever literals are merged first, merging ends in one clause, up to its names. -/
def FactorsUniquely (c : Clause) : Prop :=
  ∀ d d', ReflTransGen Merges c d → d.IsMerged → ReflTransGen Merges c d' → d'.IsMerged →
    d.IsVariant d'

/-- Two different literals of one sign are a pair in one order, and in that order they have the same
unifier. -/
theorem exists_mem_pairs (hmem : t ∈ c.pos ∧ u ∈ c.pos ∨ t ∈ c.neg ∧ u ∈ c.neg) (htu : t ≠ u)
    (hs : mgu? n t u = some (some s)) :
    ∃ e ∈ c.pairs, ∃ s', mgu? n e.1 e.2 = some (some s') ∧ s.Same s' := by
  have hpair : (t, u) ∈ c.pairs ∨ (u, t) ∈ c.pairs := by
    rcases hmem with ⟨ht, hu⟩ | ⟨ht, hu⟩
    · exact (mem_orderedPairs_or_swap ht hu htu).imp (List.mem_append_left _)
        (List.mem_append_left _)
    · exact (mem_orderedPairs_or_swap ht hu htu).imp (List.mem_append_right _)
        (List.mem_append_right _)
  rcases hpair with he | he
  · exact ⟨_, he, s, hs, .refl s⟩
  · -- with exchanged sides the same bindings are made
    obtain ⟨r, hr⟩ := (inStep_unify_comm (.refl ∅) n t u).exists_run_iff.1 ⟨_, hs⟩
    cases rel_of_unify_comm (.refl ∅) hs hr with
    | @some _ s' hsame => exact ⟨_, he, s', hr, hsame⟩

/-- The order of the two literals does not matter. -/
theorem merges_iff : c.Merges d ↔ ∃ e ∈ c.pairs, ∃ n s,
    mgu? n e.1 e.2 = some (some s) ∧ c.apply s = .ok d ∧ d.size < c.size := by
  constructor
  · rintro ⟨n, t, u, s, hmem, htu, hs, hd, hlt⟩
    obtain ⟨e, he, s', hs', hsame⟩ := exists_mem_pairs hmem htu hs
    exact ⟨e, he, n, s', hs', (hsame.apply_clause c).symm.trans hd, hlt⟩
  · rintro ⟨e, he, n, s, hs, hd, hlt⟩
    exact ⟨n, e.1, e.2, s, mem_of_mem_pairs he, ne_of_mem_pairs he, hs, hd, hlt⟩

/-! ### Factoring is one order of merging -/

/-- Factoring merges literals until no two can be merged. -/
theorem Factored.merges (h : c.Factored n d) : ReflTransGen Merges c d ∧ d.IsMerged := by
  refine ⟨?_, fun d' hd' ↦ ?_⟩
  · induction h with
    | done => exact .refl
    | merge hpairs _ hs hd hlt _ ih =>
      have he := hpairs ▸ List.mem_append_right _ List.mem_cons_self
      exact .head (merges_iff.2 ⟨_, he, _, _, hs, hd, hlt⟩) ih
  · obtain ⟨e, he, m, s, hs, hd', hlt⟩ := merges_iff.1 hd'
    obtain ⟨d'', hd'', hle⟩ := size_le_of_merge? (h.merge?_eq_none e he) hs
    cases hd''.symm.trans hd'
    exact Nat.not_lt.2 hle hlt

/-! ### Mergings of variants -/

/-- What can be merged can be merged in a variant. -/
theorem Merges.exists_of_isVariant (h : c.Merges d) (hc : c.isOffsetFree = true)
    (hcc : c.IsVariant c') : ∃ d', c'.Merges d' ∧ d.IsVariant d' ∧ d.isOffsetFree = true := by
  obtain ⟨f, hf, rfl⟩ := hcc
  obtain ⟨n, t, u, s, hmem, htu, hs, hd, hlt⟩ := h
  have hplain := plainOver_variableNames hc
  have hatoms : (t ∈ c.pos ∨ t ∈ c.neg) ∧ (u ∈ c.pos ∨ u ∈ c.neg) :=
    hmem.elim (fun h ↦ ⟨.inl h.1, .inl h.2⟩) fun h ↦ ⟨.inr h.1, .inr h.2⟩
  have ht := hplain t hatoms.1
  have hu := hplain u hatoms.2
  have hstep := (IsRenamed.empty hf).unify n ht hu
  obtain ⟨r, hr⟩ := hstep.exists_run_iff.1 ⟨_, hs⟩
  have hrel := hstep.rel hs hr
  cases hrel with
  | @some _ s' hrenamed =>
    obtain ⟨d₁, d', hd₁, hd', hfree, hvariant⟩ := hrenamed.exists_variants hf hplain
    rw [hd] at hd₁
    obtain rfl := Except.ok.inj hd₁
    have hsize : ∀ {a b : Clause}, a.IsVariant b → b.size = a.size := fun h ↦ by
      rw [size, size, h.size_eq.1, h.size_eq.2]
    refine ⟨d', ⟨n, t.rename f, u.rename f, s', ?_, ?_, hr, hd', ?_⟩, hvariant, hfree⟩
    · exact hmem.imp
        (fun h ↦ ⟨SortedSet.mem_map.2 ⟨t, h.1, rfl⟩, SortedSet.mem_map.2 ⟨u, h.2, rfl⟩⟩)
        fun h ↦ ⟨SortedSet.mem_map.2 ⟨t, h.1, rfl⟩, SortedSet.mem_map.2 ⟨u, h.2, rfl⟩⟩
    · exact fun h ↦ htu (ht.eq_of_rename_eq hu hf h)
    · rw [hsize hvariant, hsize (isVariant_rename hf)]
      exact hlt

theorem isOffsetFree_of_isVariant (hc : c.isOffsetFree = true) (h : c.IsVariant c') :
    c'.isOffsetFree = true := by
  obtain ⟨f, -, rfl⟩ := h
  exact ((plainOver_variableNames hc).rename f).isOffsetFree

/-- Whatever a clause can become by merging, its variants can become. -/
theorem exists_merges_of_isVariant (h : ReflTransGen Merges c d) (hc : c.isOffsetFree = true)
    (hcc : c.IsVariant c') :
    ∃ d', ReflTransGen Merges c' d' ∧ d.IsVariant d' ∧ d.isOffsetFree = true := by
  induction h with
  | refl => exact ⟨c', .refl, hcc, hc⟩
  | tail _ hstep ih =>
    obtain ⟨d', hd', hvariant, hfree⟩ := ih
    obtain ⟨e', he', hvariant', hfree'⟩ := hstep.exists_of_isVariant hfree hvariant
    exact ⟨e', hd'.tail he', hvariant', hfree'⟩

/-- Where nothing can be merged, nothing can be merged in a variant. -/
theorem IsMerged.of_isVariant (h : c.IsMerged) (hc : c.isOffsetFree = true)
    (hcc : c.IsVariant c') : c'.IsMerged := by
  intro d hd
  obtain ⟨d', hd', -⟩ := hd.exists_of_isVariant (isOffsetFree_of_isVariant hc hcc) hcc.symm
  exact h d' hd'

/-- Variants are factored to the same canonical form, if the order of merging does not matter. -/
theorem canonicalize_eq_of_factor (hunique : c.FactorsUniquely) (hc : c.isOffsetFree = true)
    (hcc : c.IsVariant c') (hd : (c.factor m).run = some (.ok d))
    (hd' : (c'.factor n).run = some (.ok d')) : d.canonicalize = d'.canonicalize := by
  obtain ⟨hmerges, hmerged⟩ := (factored_of_factor hd).merges
  obtain ⟨hmerges', hmerged'⟩ := (factored_of_factor hd').merges
  -- what the variant was factored to is a variant of what merging the clause itself can end in
  have hc' := isOffsetFree_of_isVariant hc hcc
  obtain ⟨d₁, hd₁, hvariant, hfree⟩ := exists_merges_of_isVariant hmerges' hc' hcc.symm
  have hd₁d := hunique d d₁ hmerges hmerged hd₁ (hmerged'.of_isVariant hfree hvariant)
  exact (canonicalize_eq_iff (shapesApart_of_factor hd)).2 (hd₁d.trans hvariant.symm)

/-! ### Images of clauses -/

/-- A substitution that can be applied takes the literals to their images. -/
theorem exists_map_of_apply (h : c.apply s = .ok d) : ∃ F : Term → Term,
    (∀ t, t ∈ c.pos ∨ t ∈ c.neg → s.apply t = .ok (F t)) ∧ d.pos = c.pos.map F ∧
      d.neg = c.neg.map F := by
  have himage : ∀ t, t ∈ c.pos ∨ t ∈ c.neg → ∃ u, s.apply t = .ok u := by
    rintro t (ht | ht)
    · exact (exists_image_of_mem_pos h ht).imp fun _ hu ↦ hu.2
    · exact (exists_image_of_mem_neg h ht).imp fun _ hu ↦ hu.2
  choose! F hF using himage
  refine ⟨F, hF, ?_, ?_⟩
  · ext u
    rw [mem_pos_apply h, SortedSet.mem_map]
    refine exists_congr fun t ↦ and_congr_right fun ht ↦ ?_
    rw [hF t (.inl ht), Except.ok.injEq]
  · ext u
    rw [mem_neg_apply h, SortedSet.mem_map]
    refine exists_congr fun t ↦ and_congr_right fun ht ↦ ?_
    rw [hF t (.inr ht), Except.ok.injEq]

/-- Literals can coincide in an image, but not multiply. -/
theorem size_le_of_map {F : Term → Term} (hpos : d.pos = c.pos.map F) (hneg : d.neg = c.neg.map F) :
    d.size ≤ c.size := by
  rw [size, size, hpos, hneg]
  exact Nat.add_le_add (SortedSet.size_map_le F _) (SortedSet.size_map_le F _)

/-- A substitution does not give a clause more literals. -/
theorem size_apply_le (h : c.apply s = .ok d) : d.size ≤ c.size :=
  have ⟨_, _, hpos, hneg⟩ := exists_map_of_apply h
  size_le_of_map hpos hneg

/-! ### Clauses with one factored form -/

/-- A clause with at most two literals has at most one pair of one sign. -/
theorem length_pairs_le (h : c.size ≤ 2) : c.pairs.length ≤ c.size - 1 := by
  have hchoose : ∀ i ≤ 2, i.choose 2 ≤ i - 1 := by decide
  have hpos := hchoose c.pos.size (by rw [size] at h; omega)
  have hneg := hchoose c.neg.size (by rw [size] at h; omega)
  rw [pairs, List.length_append, length_orderedPairs, length_orderedPairs]
  simp only [size, SortedSet.size] at *
  omega

theorem isMerged_of_size_le_one (h : c.size ≤ 1) : c.IsMerged := by
  intro d hd
  obtain ⟨e, he, -⟩ := merges_iff.1 hd
  have hlen := length_pairs_le (h.trans (Nat.le_succ 1))
  have hpos := List.length_pos_of_mem he
  omega

/-- A clause with at most two literals has one factored form. -/
theorem factorsUniquely_of_size_le_two (h : c.size ≤ 2) : c.FactorsUniquely := by
  have hone : ∀ {d d'}, c.Merges d → c.Merges d' → d = d' := by
    intro d d' hd hd'
    obtain ⟨e, he, n, s, hs, hd, -⟩ := merges_iff.1 hd
    obtain ⟨e', he', n', s', hs', hd', -⟩ := merges_iff.1 hd'
    obtain ⟨p, hp⟩ : ∃ p, c.pairs ⊆ [p] := by
      have hlen := length_pairs_le h
      cases hpairs : c.pairs with
      | nil => exact ⟨e, List.nil_subset _⟩
      | cons p l =>
        rw [hpairs, List.length_cons] at hlen
        obtain rfl := List.length_eq_zero_iff.1 (by omega : l.length = 0)
        exact ⟨p, List.Subset.refl _⟩
    obtain rfl : e = e' := (List.mem_singleton.1 (hp he)).trans (List.mem_singleton.1 (hp he')).symm
    obtain rfl := Option.some.inj (unify_unique hs hs')
    exact Except.ok.inj (hd.symm.trans hd')
  -- one merging leaves one literal
  have hend : ∀ {d}, ReflTransGen Merges c d → d = c ∨ c.Merges d := by
    intro d hd
    rcases hd.cases_head with rfl | ⟨c₁, hc₁, hd⟩
    · exact .inl rfl
    · have hmerged : c₁.IsMerged := isMerged_of_size_le_one (by
        obtain ⟨-, -, -, -, -, -, -, -, hlt⟩ := hc₁
        omega)
      rcases hd.cases_head with rfl | ⟨c₂, hc₂, -⟩
      · exact .inr hc₁
      · exact absurd hc₂ (hmerged c₂)
  intro d d' hd hmerged hd' hmerged'
  rcases hend hd with rfl | hd <;> rcases hend hd' with rfl | hd'
  · exact .refl _
  · exact absurd hd' (hmerged _)
  · exact absurd hd (hmerged' _)
  · exact hone hd hd' ▸ .refl d

end Clause

end OffsetLogic
