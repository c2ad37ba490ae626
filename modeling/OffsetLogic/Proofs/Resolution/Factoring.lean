import OffsetLogic.Proofs.Renaming.Merging
import OffsetLogic.Proofs.Semantics.Free

/-!
# What factoring leaves

What a clause is factored to is an **instance** of it: its literals are the images of the clause's
literals under unifiers of two literals of one sign, applied one after another (`Clause.MergedBy`).
Literals can coincide on the way, but none is lost and none changes its sign.

It is a **complete** one. Two literals of one sign that still unify were tried and passed over, so
their unifier can be applied and does not make the clause smaller. An acyclic unifier makes its two
literals one (`Clause.size_apply_lt`), so theirs is cyclic. Cyclic unifiers are what the test of the
size is there for: the images of `r(z, z)` and `r(w, f(w))` stay apart.

The first statement is an induction on how the clause was factored, where each merge adds one
unifier in front and leaves the rest of the list for the clause that it gives. The composition
cannot be said to be one substitution: the unifiers are found in different clauses, each with
triangular bindings of its own, and applying them in turn is not applying their union. So `applyAll`
applies them in turn, and a literal has an image because each of them could be applied to the whole
clause.

The second statement looks at the end of the factoring only, where every pair that is left has been
tried. It holds for unifiers found on any budget: a pair is passed over on the budget of the
factoring, and within a larger budget its unifier is the same.
-/

namespace OffsetLogic

open Substitution

variable {n : Nat} {c d : Clause} {s s' : Substitution} {ss : List Substitution} {t u : Term}

/-! ### Images under several substitutions -/

namespace Substitution

/-- The term with the substitutions of a list applied, the first one first. -/
def applyAll (ss : List Substitution) (t : Term) : Except ShiftError Term :=
  ss.foldlM (fun t s ↦ s.apply t) t

theorem applyAll_cons (s : Substitution) (ss : List Substitution) (t : Term) :
    applyAll (s :: ss) t = s.apply t >>= applyAll ss :=
  List.foldlM_cons

/-- Whether bindings lead back to their class does not depend on their order. -/
theorem Same.acyclic (h : s.Same s') (hs : s.Acyclic) : s'.Acyclic := by
  have hget : s.get? = s'.get? := funext h
  have hleads : s.LeadsTo = s'.LeadsTo := by
    funext x y
    simp only [LeadsTo, Alias, hget]
  exact fun x hx ↦ hs x (hleads ▸ hx)

end Substitution

theorem SortedSet.map_eq_empty_iff {F : Term → Term} {l : SortedSet Term} :
    l.map F = ∅ ↔ l = ∅ := by
  constructor <;> intro h
  · ext t
    exact iff_of_false (fun ht ↦ not_mem_empty (h ▸ mem_map.2 ⟨t, ht, rfl⟩)) not_mem_empty
  · rw [h]
    rfl

namespace Clause

/-- A substitution that makes two literals of one sign the same makes a clause smaller. -/
theorem size_apply_lt {e : Term × Term} (h : c.apply s = .ok d) (he : e ∈ c.pairs)
    (heq : ∀ t u, s.apply e.1 = .ok t → s.apply e.2 = .ok u → t = u) : d.size < c.size := by
  obtain ⟨F, hF, hpos, hneg⟩ := exists_map_of_apply h
  have hside : ∀ {t u}, (t ∈ c.pos ∧ u ∈ c.pos ∨ t ∈ c.neg ∧ u ∈ c.neg) →
      s.apply t = .ok (F t) ∧ s.apply u = .ok (F u) := by
    rintro t u (⟨ht, hu⟩ | ⟨ht, hu⟩)
    · exact ⟨hF t (.inl ht), hF u (.inl hu)⟩
    · exact ⟨hF t (.inr ht), hF u (.inr hu)⟩
  obtain ⟨h₁, h₂⟩ := hside (mem_of_mem_pairs he)
  rw [size, hpos, hneg]
  exact size_map_lt he (heq _ _ h₁ h₂)

/-! ### Factored clauses are instances -/

/-- The substitutions take the first clause to the second one, and each is the unifier of two
different literals of one sign of the clause that it is applied to. -/
inductive MergedBy (n : Nat) : Clause → List Substitution → Clause → Prop where
  /-- Nothing is merged. -/
  | nil {c : Clause} : MergedBy n c [] c
  /-- Two literals are unified first. -/
  | cons {c d d' : Clause} {t u : Term} {s : Substitution} {ss : List Substitution} :
      (t ∈ c.pos ∧ u ∈ c.pos ∨ t ∈ c.neg ∧ u ∈ c.neg) → t ≠ u → mgu? n t u = some (some s) →
      c.apply s = .ok d → MergedBy n d ss d' → MergedBy n c (s :: ss) d'

/-- Each merge of a factoring applies the unifier of two literals of one sign. -/
theorem Factored.exists_mergedBy (h : c.Factored n d) : ∃ ss, c.MergedBy n ss d := by
  induction h with
  | done => exact ⟨[], .nil⟩
  | @merge _ _ _ s _ _ _ hpairs _ hs happly _ _ ih =>
    obtain ⟨ss, hss⟩ := ih
    have he := hpairs ▸ List.mem_append_right _ List.mem_cons_self
    exact ⟨s :: ss, .cons (mem_of_mem_pairs he) (ne_of_mem_pairs he) hs happly hss⟩

/-- The literals of the result are the images of all literals under the composition. -/
theorem MergedBy.exists_map (h : c.MergedBy n ss d) : ∃ F : Term → Term,
    (∀ t, t ∈ c.pos ∨ t ∈ c.neg → applyAll ss t = .ok (F t)) ∧ d.pos = c.pos.map F ∧
      d.neg = c.neg.map F := by
  induction h with
  | nil => exact ⟨id, fun t _ ↦ rfl, by ext; simp, by ext; simp⟩
  | @cons c d d' _ _ s ss _ _ _ happly _ ih =>
    obtain ⟨F, hF, hpos, hneg⟩ := exists_map_of_apply happly
    obtain ⟨G, hG, hpos', hneg'⟩ := ih
    refine ⟨fun t ↦ G (F t), fun t ht ↦ ?_, ?_, ?_⟩
    · have himage : F t ∈ d.pos ∨ F t ∈ d.neg := by
        rw [hpos, hneg]
        exact ht.imp (fun ht ↦ SortedSet.mem_map.2 ⟨t, ht, rfl⟩)
          fun ht ↦ SortedSet.mem_map.2 ⟨t, ht, rfl⟩
      rw [applyAll_cons, hF t ht]
      exact hG (F t) himage
    · rw [hpos', hpos, SortedSet.map_map]
    · rw [hneg', hneg, SortedSet.map_map]

/-! ### Factored clauses are complete -/

/-- A pair with an acyclic unifier is not passed over. -/
theorem not_acyclic_of_merge? {m : Nat} {e : Term × Term} (he : e ∈ c.pairs)
    (h : (c.merge? n e).run = some (.ok none)) (hs : mgu? m e.1 e.2 = some (some s)) :
    ¬ s.Acyclic := by
  intro hac
  obtain ⟨d, hd, hle⟩ := size_le_of_merge? h hs
  obtain ⟨al⟩ := nonempty_aliasing_of_mgu? hs
  refine Nat.not_lt.2 hle (size_apply_lt hd he fun t u ht hu ↦ ?_)
  exact Model.apply_unique hac al (fun w hw ↦ Model.eval_eq_of_mgu? hs hw) ht hu

/-- **A factored clause is a complete instance.** It is the image of the clause under unifiers of
two literals of one sign, applied one after another; it has no more literals, and literals of the
same signs; and two different literals of one sign that still unify have a cyclic unifier. -/
theorem mergedBy_of_factor (h : (c.factor n).run = some (.ok d)) :
    (∃ ss F, c.MergedBy n ss d ∧ (∀ t, t ∈ c.pos ∨ t ∈ c.neg → applyAll ss t = .ok (F t)) ∧
      d.pos = c.pos.map F ∧ d.neg = c.neg.map F) ∧
    d.size ≤ c.size ∧ (d.pos = ∅ ↔ c.pos = ∅) ∧ (d.neg = ∅ ↔ c.neg = ∅) ∧
    ∀ t u, (t ∈ d.pos ∧ u ∈ d.pos ∨ t ∈ d.neg ∧ u ∈ d.neg) → t ≠ u →
      ∀ m s, mgu? m t u = some (some s) → ¬ s.Acyclic := by
  have hfactored := factored_of_factor h
  obtain ⟨ss, hss⟩ := hfactored.exists_mergedBy
  obtain ⟨F, hF, hpos, hneg⟩ := hss.exists_map
  refine ⟨⟨ss, F, hss, hF, hpos, hneg⟩, size_le_of_map hpos hneg, hpos ▸ SortedSet.map_eq_empty_iff,
    hneg ▸ SortedSet.map_eq_empty_iff, fun t u hmem htu m s hs hac ↦ ?_⟩
  obtain ⟨e, he, s', hs', hsame⟩ := exists_mem_pairs hmem htu hs
  exact not_acyclic_of_merge? he (hfactored.merge?_eq_none e he) hs' (hsame.acyclic hac)

/-- The clause `p(x, 1) ∨ p(b, y + 1) ∨ p(u, v) ∨ ¬q(x, y) ∨ ¬r(z, z) ∨ ¬r(w, f(w))` is factored to
`p(b, 1) ∨ ¬q(b, 0) ∨ ¬r(w, f(w)) ∨ ¬r(z, z)`, where the literals of `r` unify, by a cyclic
unifier. -/
theorem mergedBy_of_factor_cyclic :
    let c := ofLists [.app "p" [.var "x" 0, .const (.int 1)],
      .app "p" [.const (.symbol "b"), .var "y" 1], .app "p" [.var "u" 0, .var "v" 0]]
      [.app "q" [.var "x" 0, .var "y" 0], .app "r" [.var "z" 0, .var "z" 0],
        .app "r" [.var "w" 0, .app "f" [.var "w" 0]]]
    let d := ofLists [.app "p" [.const (.symbol "b"), .const (.int 1)]]
      [.app "q" [.const (.symbol "b"), .const (.int 0)], .app "r" [.var "z" 0, .var "z" 0],
        .app "r" [.var "w" 0, .app "f" [.var "w" 0]]]
    (c.factor 4).run = some (.ok d) ∧ (∃ ss, c.MergedBy 4 ss d) ∧
      ∃ s, mgu? 4 (.app "r" [.var "z" 0, .var "z" 0])
        (.app "r" [.var "w" 0, .app "f" [.var "w" 0]]) = some (some s) ∧ ¬ s.Acyclic := by
  intro c d
  have h : (c.factor 4).run = some (.ok d) := by decide +kernel
  have hs : mgu? 4 (.app "r" [.var "z" 0, .var "z" 0])
      (.app "r" [.var "w" 0, .app "f" [.var "w" 0]]) =
        some (some (.ofList [("z", .var "w" 0), ("w", .app "f" [.var "w" 0])])) := by
    decide +kernel
  obtain ⟨⟨ss, -, hss, -⟩, -, -, -, hcyclic⟩ := mergedBy_of_factor h
  exact ⟨h, ⟨ss, hss⟩, _, hs, hcyclic _ _ (.inr (by decide +kernel)) (by decide +kernel) 4 _ hs⟩

end Clause

end OffsetLogic
