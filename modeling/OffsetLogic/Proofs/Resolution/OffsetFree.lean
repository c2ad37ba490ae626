import OffsetLogic.Proofs.Renaming.Merging
import OffsetLogic.Proofs.Resolution.Symmetry

/-!
# Resolving without offsets

A shift can fail only where an offset is to be absorbed. Every step adds up offsets, also where
bindings are cyclic and an occurrence stays in place, so that no offset appears out of nothing is an
invariant of all of them.

**One lemma carries it.** Bindings that unify terms without offsets can be applied to a clause
without offsets, and leave it without (`Clause.exists_apply_of_isOffsetFree`): they are a renaming
of themselves, and what such bindings make of a clause is known. Factoring and resolution only apply
unifiers and rename, so neither meets a shift error (`Clause.factor_ne_error`, `fault_of_resolve`),
and what they make has no offsets (`Clause.isOffsetFree_of_factor`, `Clash.Makes.isOffsetFree`).

The terms need not be flat, and unifiers may be cyclic. That is why the argument does not go through
the semantics, where cyclic bindings have no solution to speak of, but through the bindings
themselves: each binds a name to a term without offsets, and the offset with which a variable is
reached is a sum of zeros.

The statements say that there is **no error**, and not that there is a result. A unification of such
terms can run on without end, and then there is no answer on any budget; what there is, is without
error and without offsets. The clauses that are made on the way are covered too, and not only the
resolvents: `Clash.Makes` lists the conclusion, what it is factored to, and that with canonical
names.
-/

namespace OffsetLogic

open Substitution

variable {n : Nat} {t u : Term} {s : Substitution} {err : ShiftError}

/-! ### Unifiers -/

namespace Clause

variable {c d : Clause} {e : Term × Term}

/-- No term of the clause has an offset. -/
theorem plainOver_univ (hc : c.isOffsetFree = true) : c.PlainOver Set.univ :=
  (plainOver_variableNames hc).mono (Set.subset_univ _)

theorem isOffsetFree_rename (f : String → String) (hc : c.isOffsetFree = true) :
    (c.rename f).isOffsetFree = true :=
  ((plainOver_variableNames hc).rename f).isOffsetFree

theorem isOffsetFree_negate (hc : c.isOffsetFree = true) : c.negate.isOffsetFree = true := by
  have hplain := plainOver_univ hc
  exact PlainOver.isOffsetFree (S := Set.univ) fun t ht ↦ hplain t ht.symm

/-- A unifier of terms without offsets can be applied to a clause without offsets, and leaves it
without. -/
theorem exists_apply_of_isOffsetFree (ht : t.PlainOver Set.univ) (hu : u.PlainOver Set.univ)
    (hs : mgu? n t u = some (some s)) (hc : c.isOffsetFree = true) :
    ∃ d, c.apply s = .ok d ∧ d.isOffsetFree = true := by
  -- the bindings are a renaming of themselves, by the identity
  have hid : Set.InjOn id (Set.univ : Set String) := Set.injOn_id _
  have hstep := (IsRenamed.empty hid).unify n ht hu
  rw [Term.rename_id, Term.rename_id] at hstep
  cases hstep.rel hs hs with
  | some hrenamed =>
    obtain ⟨d, -, hd, -, hfree, -⟩ := hrenamed.exists_variants hid (plainOver_univ hc)
    exact ⟨d, hd, hfree⟩

/-! ### Factoring -/

/-- The literals of a pair of a clause without offsets have none. -/
theorem plainOver_of_mem_pairs (hc : c.isOffsetFree = true) (he : e ∈ c.pairs) :
    e.1.PlainOver Set.univ ∧ e.2.PlainOver Set.univ := by
  have hplain := plainOver_univ hc
  exact (mem_of_mem_pairs he).elim (fun h ↦ ⟨hplain _ (.inl h.1), hplain _ (.inl h.2)⟩)
    fun h ↦ ⟨hplain _ (.inr h.1), hplain _ (.inr h.2)⟩

/-- Merging a pair of a clause without offsets meets no error. -/
theorem merge?_ne_error (hc : c.isOffsetFree = true) (he : e ∈ c.pairs) :
    (c.merge? n e).run ≠ some (.error err) := by
  intro h
  rw [merge?_run] at h
  obtain ⟨s?, hs, h⟩ := Option.bind_eq_some_iff.1 h
  cases s? with
  | none => cases h
  | some s =>
    obtain ⟨ht, hu⟩ := plainOver_of_mem_pairs hc he
    obtain ⟨d, hd, -⟩ := exists_apply_of_isOffsetFree ht hu hs hc
    dsimp only at h
    rw [hd] at h
    cases h

/-- A merging leaves the clause without offsets. -/
theorem isOffsetFree_of_merge? {d : { d : Clause // d.size < c.size }}
    (hc : c.isOffsetFree = true) (he : e ∈ c.pairs)
    (h : (c.merge? n e).run = some (.ok (some d))) : d.1.isOffsetFree = true := by
  obtain ⟨s, hs, hd⟩ := merge?_eq_ok_some h
  obtain ⟨ht, hu⟩ := plainOver_of_mem_pairs hc he
  obtain ⟨d', hd', hfree⟩ := exists_apply_of_isOffsetFree ht hu hs hc
  cases hd.symm.trans hd'
  exact hfree

/-- Factoring a clause without offsets meets no error, along all its merges. -/
theorem factor_ne_error {c : Clause} (hc : c.isOffsetFree = true) :
    (c.factor n).run ≠ some (.error err) := by
  intro h
  rw [factor, ExceptT.run_bind] at h
  obtain ⟨r, hr, h⟩ := Option.bind_eq_some_iff.1 h
  obtain err' | e? := r
  · obtain ⟨e, he, hr⟩ := exists_of_findSomeM?_eq_error hr
    exact merge?_ne_error hc he hr
  · cases e? with
    | none => cases h
    | some d =>
      obtain ⟨pre, e, post, hpairs, -, he⟩ := findSomeM?_eq_ok_some hr
      have hmem : e ∈ c.pairs := by
        rw [pairs, hpairs]
        exact List.mem_append_right _ List.mem_cons_self
      have h : (d.1.factor n).run = some (.error err) := h
      exact factor_ne_error (isOffsetFree_of_merge? hc hmem he) h
termination_by c.size
decreasing_by exact d.2

theorem isOffsetFree_of_factor (hc : c.isOffsetFree = true)
    (h : (c.factor n).run = some (.ok d)) : d.isOffsetFree = true := by
  obtain ⟨-, -, -, hfree⟩ :=
    exists_merges_of_isVariant (factored_of_factor h).merges.1 hc (.refl c)
  exact hfree

end Clause

/-! ### Inferences -/

namespace Clash

variable {k : Clash} {c : Clause}

/-- The clause is made when the clash is resolved: it is the conclusion, what the conclusion is
factored to, or the resolvent, which is that with canonical names. -/
def Makes (n : Nat) (k : Clash) (c : Clause) : Prop :=
  ∃ s e, mgu? n k.positive k.negated = some (some s) ∧ k.remainder.apply s = .ok e ∧
    (c = e ∨ ∃ d, (e.factor n).run = some (.ok d) ∧ (c = d ∨ c = d.canonicalize))

variable (h : k.PlainOver Set.univ)

include h

/-- A clash without offsets whose literals unify has a conclusion, without offsets. -/
theorem PlainOver.exists_conclusion (hs : mgu? n k.positive k.negated = some (some s)) :
    ∃ e, k.remainder.apply s = .ok e ∧ e.isOffsetFree = true :=
  Clause.exists_apply_of_isOffsetFree (h.left _ (.inl h.positive)) (h.right _ (.inr h.negated)) hs
    h.remainder.isOffsetFree

/-- Nothing that is made from a clash without offsets has offsets. -/
theorem Makes.isOffsetFree (hc : k.Makes n c) : c.isOffsetFree = true := by
  obtain ⟨s, e, hs, he, hc⟩ := hc
  obtain ⟨e', he', hfree⟩ := h.exists_conclusion hs
  cases he.symm.trans he'
  rcases hc with rfl | ⟨d, hd, rfl | rfl⟩
  · exact hfree
  · exact Clause.isOffsetFree_of_factor hfree hd
  · exact Clause.isOffsetFree_rename _ (Clause.isOffsetFree_of_factor hfree hd)

/-- Resolving a clash without offsets meets no error. -/
theorem infer?_ne_error : (k.infer? n).run ≠ some (.error err) := by
  intro hi
  rw [infer?_run] at hi
  obtain ⟨s?, hs, hi⟩ := Option.bind_eq_some_iff.1 hi
  cases s? with
  | none => cases hi
  | some s =>
    obtain ⟨e, he, hfree⟩ := h.exists_conclusion hs
    dsimp only at hi
    rw [he] at hi
    obtain ⟨r, hr, hi⟩ := Option.bind_eq_some_iff.1 hi
    obtain err' | d := r
    · exact Clause.factor_ne_error hfree hr
    · obtain ⟨b, -, hi⟩ := Option.map_eq_some_iff.1 hi
      cases hi

end Clash

/-! ### Resolvents -/

section

variable {k : Clash} {c d : Clause} {r : Resolution} {i : Inference}

/-- The resolvent of an inference is one of the clauses that are made. -/
theorem Clash.makes_of_infer? (hi : (k.infer? n).run = some (.ok (some i))) :
    k.Makes n i.resolvent := by
  obtain ⟨s, e, d, hs, he, hd, hres, -⟩ := infer?_eq_ok_some hi
  exact ⟨s, e, hs, he, .inr ⟨d, hd, .inr hres⟩⟩

variable (hc : c.isOffsetFree = true) (hd : d.isOffsetFree = true)

include hc hd

theorem plainOver_of_mem_clashes (hk : k ∈ clashes c d) : k.PlainOver Set.univ := by
  obtain ⟨hl, hr, hpos, hneg⟩ := sides_of_mem_clashes (P := fun c ↦ c.isOffsetFree = true) hk
    (fun f _ h ↦ Clause.isOffsetFree_rename f h) hc hd
  exact ⟨Clause.plainOver_univ hl, Clause.plainOver_univ hr, hpos, hneg⟩

/-- Resolving clauses without offsets completes without error. -/
theorem fault_of_resolve (hr : resolve n c d = some r) : r.fault = none := by
  have hr : inferFrom n (clashes c d) = some r := hr
  cases hf : r.fault with
  | none => rfl
  | some err =>
    obtain ⟨k, hk, hi⟩ := exists_of_fault_inferFrom hr hf
    exact absurd hi (Clash.infer?_ne_error (plainOver_of_mem_clashes hc hd hk))

/-- The resolvents of clauses without offsets are found without error. -/
theorem resolvents_ne_error : resolvents n c d ≠ some (.error err) := by
  intro h
  obtain ⟨r, hr, h⟩ := Option.bind_eq_some_iff.1 h
  rw [fault_of_resolve hc hd hr] at h
  cases h

/-- Conclusions have no offsets, those that are tautological included. -/
theorem isOffsetFree_of_mem_resolve (hr : resolve n c d = some r) (hi : i ∈ r.inferences) :
    i.resolvent.isOffsetFree = true := by
  have hr : inferFrom n (clashes c d) = some r := hr
  obtain ⟨k, hk, hi⟩ := exists_of_mem_inferFrom hr hi
  exact Clash.Makes.isOffsetFree (plainOver_of_mem_clashes hc hd hk) (Clash.makes_of_infer? hi)

end

end OffsetLogic
