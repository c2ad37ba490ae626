import OffsetLogic.Proofs.Unification.Alias

/-!
# Successful unifications

What a unification did when it succeeded is a derivation, `Unified es s s'`: the equations `es` were
solved from left to right, on top of the bindings `s`, and gave `s'`. The arguments of two
applications are put in front of the equations that are left, so the derivation is **linear**, and a
property of unifiers is proved by one induction over it, without a budget and without folds.

The derivation forgets the order of the two sides. An equation may be solved for a variable on its
left or on its right, and arguments may be equated in either direction; a property that is kept by
all of these steps is kept by the unification, whichever of them it takes. What matters of each step
is what its sides **resolve** to, and not what they are.

Facts about failure and about ends are not read off derivations. For these the module has the
equations of unification between terms that are not variables, and one lemma for lists: if a
property of the bindings allows each equation to be solved and is kept by that, then the list can be
solved (`exists_unifyAll_of_step`).

The first property that is proved by induction over a derivation is that the alias classes survive
(`Unified.aliasing`). It is a consequence of one step (`Substitution.Aliasing.solve`), since what is
solved for is a representative without a value, and so is the variable on the other side
(`Substitution.Aliasing.of_resolve_eq_var`).
-/

namespace OffsetLogic

open Substitution

variable {n : Nat} {a b : Term} {es : List (Term × Term)} {s s₁ s' : Substitution}

/-- Solving the equations of a list from left to right on top of `s` gives `s'`. -/
inductive Unified : List (Term × Term) → Substitution → Substitution → Prop where
  /-- No equation is left. -/
  | nil {s : Substitution} : Unified [] s s
  /-- One side, `c`, is a variable, and the equation is solved for it. -/
  | solve {a b c d t : Term} {x : String} {k : Int64} {es : List (Term × Term)}
      {s s₁ s' : Substitution} : c = a ∧ d = b ∨ c = b ∧ d = a →
      s.resolve c = some (.var x k) → s.resolve d = some t → s.solve x k t = some s₁ →
      Unified es s₁ s' → Unified ((a, b) :: es) s s'
  /-- Both sides are the same constant. -/
  | same {a b : Term} {v : Value} {es : List (Term × Term)} {s s' : Substitution} :
      s.resolve a = some (.const v) → s.resolve b = some (.const v) →
      Unified es s s' → Unified ((a, b) :: es) s s'
  /-- Both sides are applications of one name, and the arguments are equated. -/
  | args {a b : Term} {g : String} {ts us : List Term} {args es : List (Term × Term)}
      {s s' : Substitution} :
      s.resolve a = some (.app g ts) → s.resolve b = some (.app g us) → ts.length = us.length →
      args = ts.zip us ∨ args = us.zip ts →
      Unified (args ++ es) s s' → Unified ((a, b) :: es) s s'

/-- Equations that are solved by a fold are put in front of those that are left. -/
theorem unified_append_of_foldlM {args : List (Term × Term)}
    (step : ∀ a b es s s₁ s', (unify n a b s).run = some (some s₁) → Unified es s₁ s' →
      Unified ((a, b) :: es) s s')
    (h : (args.foldlM (fun s e ↦ unify n e.1 e.2 s) s).run = some (some s₁))
    (hes : Unified es s₁ s') : Unified (args ++ es) s s' := by
  induction args generalizing s with
  | nil =>
    cases h
    exact hes
  | cons e args ih =>
    rw [List.foldlM_cons, OptionT.run_bind] at h
    obtain ⟨s₂?, hs₂, h⟩ := Option.bind_eq_some_iff.1 h
    cases s₂? with
    | none => cases h
    | some s₂ => exact step _ _ _ _ _ _ hs₂ (ih h)

/-- A successful call solves its equation in one of the three ways; by induction on the budget. -/
theorem unified_cons_of_unify (h : (unify n a b s).run = some (some s₁)) (hes : Unified es s₁ s') :
    Unified ((a, b) :: es) s s' := by
  induction n generalizing a b es s s₁ s' with
  | zero => cases h
  | succ n ih =>
    rw [unify] at h
    split at h
    · rename_i ha hb
      exact .solve (.inl ⟨rfl, rfl⟩) ha hb (Option.some.inj h) hes
    · rename_i ha hb
      exact .solve (.inr ⟨rfl, rfl⟩) hb ha (Option.some.inj h) hes
    · rename_i ha hb
      split at h
      · rename_i huv
        cases h
        exact .same ha (huv ▸ hb) hes
      · cases h
    · rename_i ha hb
      split at h
      · rename_i hgh
        obtain ⟨rfl, hlen⟩ := hgh
        refine .args ha hb hlen ?_
          (unified_append_of_foldlM (fun _ _ _ _ _ _ ↦ ih) h hes)
        split
        · exact .inr rfl
        · exact .inl rfl
      · cases h
    · cases h

/-- What a most general unifier did. -/
theorem unified_of_mgu? (h : mgu? n a b = some (some s)) : Unified [(a, b)] ∅ s :=
  unified_cons_of_unify h .nil

/-! ### Lists of equations -/

/-- Equations that can each be solved on top of bindings with a property, which is kept, can be
solved together. -/
theorem exists_unifyAll_of_step {P : Substitution → Prop}
    (step : ∀ e ∈ es, ∀ s, P s → ∃ s', (unify n e.1 e.2 s).run = some (some s') ∧ P s')
    (hs : P s) : ∃ s', (unifyAll n es s).run = some (some s') ∧ P s' := by
  induction es generalizing s with
  | nil => exact ⟨s, rfl, hs⟩
  | cons e es ih =>
    obtain ⟨s₁, hs₁, hP⟩ := step e List.mem_cons_self s hs
    rw [unifyAll, List.foldlM_cons, OptionT.run_bind, hs₁]
    exact ih (fun e he ↦ step e (List.mem_cons_of_mem _ he)) hP

theorem eq_of_mem_zip {α β : Type} {f : α → β} {l l' : List α} (h : l.map f = l'.map f) :
    ∀ e ∈ l.zip l', f e.1 = f e.2 := by
  intro e he
  obtain ⟨i, hi, rfl⟩ := List.getElem_of_mem he
  rw [List.length_zip] at hi
  have hi := List.getElem_of_eq h (i := i) (by rw [List.length_map]; omega)
  simpa using hi

/-! ### Terms that are not variables -/

theorem unify_const_const (u v : Value) :
    unify (n + 1) (.const u) (.const v) s = if u = v then pure s else failure := rfl

/-- A constant clashes with an application. -/
theorem unify_const_app (u : Value) (g : String) (ts : List Term) :
    unify (n + 1) (.const u) (.app g ts) s = failure := rfl

theorem unify_app_const (u : Value) (g : String) (ts : List Term) :
    unify (n + 1) (.app g ts) (.const u) s = failure := rfl

/-- Applications of one name and arity are unified argument by argument, and others clash. -/
theorem unify_app_app (g h : String) (ts us : List Term) :
    unify (n + 1) (.app g ts) (.app h us) s = if g = h ∧ ts.length = us.length then
      (ts.zip us).foldlM (fun s e ↦ unify n e.1 e.2 s) s else failure := rfl

/-! ### Resolved terms -/

theorem Term.isVariable_of_shifted {t u : Term} {k : Int64} (h : t.shifted k = some u) :
    u.isVariable = t.isVariable := by
  unfold shifted at h
  split at h
  · rw [Option.some.inj h]
  · split at h
    · obtain ⟨_, _, rfl⟩ := Option.map_eq_some_iff.1 h
      rfl
    · obtain ⟨_, _, rfl⟩ := Option.map_eq_some_iff.1 h
      rfl
    · cases h
    · cases h

namespace Substitution

variable {t u : Term} {x y : String} {j k : Int64}

/-- A variable resolves to the representative of its class or to the value of that, shifted; other
terms resolve to themselves. -/
theorem Aliasing.resolve_cases (al : Aliasing s) (h : s.resolve t = some u) :
    (∃ x k j, t = .var x k ∧ u = .var (al.root x) j ∧ j.toInt = k.toInt + al.height x ∧
      ¬ s.Rigid (al.root x)) ∨
    (∃ x k j r, t = .var x k ∧ s.get? (al.root x) = some r ∧ r.isVariable = false ∧
      j.toInt = k.toInt + al.height x ∧ r.shifted j = some u) ∨
    t.isVariable = false ∧ u = t := by
  unfold resolve at h
  split at h
  · rename_i x k
    split at h
    · rename_i y j hf
      cases h
      obtain ⟨rfl, hj, hr⟩ := al.follow_free hf
      exact .inl ⟨x, k, j, rfl, rfl, hj, hr⟩
    · rename_i y r j hf
      obtain ⟨rfl, hj, hr, hrv⟩ := al.follow_bound hf
      exact .inr (.inl ⟨x, k, j, r, rfl, hr, hrv, hj, h⟩)
    · cases h
  · rename_i ht
    cases h
    exact .inr (.inr ⟨Term.isVariable_eq_false ht, rfl⟩)

/-- A variable that a term resolves to represents its class, and has no value. -/
theorem Aliasing.of_resolve_eq_var (al : Aliasing s) (h : s.resolve t = some (.var y j)) :
    al.root y = y ∧ ¬ s.Rigid y := by
  obtain ⟨x, k, i, -, hu, -, hr⟩ | ⟨x, k, i, r, -, -, hrv, -, hu⟩ | ⟨htv, hu⟩ := al.resolve_cases h
  · cases hu
    exact ⟨al.root_root x, hr⟩
  · cases (Term.isVariable_of_shifted hu).trans hrv
  · cases hu ▸ htv

end Substitution

/-! ### Unifiers keep their classes apart or join them -/

/-- Each step keeps the classes or joins two of them. -/
theorem Unified.aliasing (h : Unified es s s') (hs : Nonempty (Aliasing s)) :
    Nonempty (Aliasing s') := by
  induction h with
  | nil => exact hs
  | solve _ hc hd hsolve _ ih =>
    obtain ⟨al⟩ := hs
    obtain ⟨hx, hrx⟩ := al.of_resolve_eq_var hc
    exact ih (al.solve hx hrx (fun y l ht ↦ al.of_resolve_eq_var (ht ▸ hd)) hsolve)
  | same _ _ _ ih => exact ih hs
  | args _ _ _ _ _ ih => exact ih hs

/-- Every unifier that starts from no bindings has alias classes. -/
theorem nonempty_aliasing_of_mgu? (h : mgu? n a b = some (some s)) : Nonempty (Aliasing s) :=
  (unified_of_mgu? h).aliasing ⟨.empty⟩

end OffsetLogic
