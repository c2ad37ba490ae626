import OffsetLogic.Clause.Canonical
import OffsetLogic.Proofs.Semantics.Free
import OffsetLogic.Proofs.Semantics.Soundness

/-!
# Terms of one shape

Terms of one shape differ in nothing but the names of their variables, so all that unification has
to do is to identify names. It always succeeds, whatever the offsets are and however deep the terms
(`exists_unify_of_shape`), because names are bound to **names without offset** only
(`Substitution.Plain`): classes of names have no heights then, and nothing can overflow or clash.

To apply such a unifier is to rename, and it makes the two terms the same (`exists_mgu?_of_shape`).

Offsets may occur in the terms and do not occur in the bindings. The two terms have the same offset
at each place, and an equation `x + k = y + k` is solved by binding the names to each other, with
the difference of the offsets, which is zero. So the sums that a walk forms are all equal to the
offset that it began with, and none is out of range, even where the offset itself is at the end of
the range.

The terms may share names, and one name may stand opposite to several others; then all of these are
identified. That is why the unifier is a renaming but in general not an injective one. What
factoring makes of two literals of one shape is settled by this: they can always be merged, and
merging them only identifies variables.
-/

namespace OffsetLogic

open Substitution

variable {n : Nat} {s s' : Substitution} {t u : Term} {x : String} {k : Int64}

/-! ### Shapes -/

namespace Term

@[simp] theorem shape_const (a : Value) : (const a).shape = const a := rfl

/-- Of a variable the offset is left. -/
@[simp] theorem shape_var (x : String) (k : Int64) : (var x k).shape = var "" k := rfl

@[simp] theorem shape_app (g : String) (ts : List Term) :
    (app g ts).shape = app g (ts.map shape) := by
  rw [shape, rename, renameArgs_eq_map]
  rfl

end Term

/-! ### Bindings of names to names -/

/-- Names are bound to names only, without offset. -/
def Substitution.Plain (s : Substitution) : Prop := ∀ x t, s.get? x = some t → ∃ y, t = .var y 0

namespace Substitution.Plain

theorem empty : (∅ : Substitution).Plain := fun _ _ h ↦ nomatch h

/-- Binding a name to a name keeps the bindings plain. -/
theorem bind {y : String} (hs : s.Plain) (x : String) : (s.bind x (.var y 0)).Plain := by
  intro z t hz
  rw [get?_bind] at hz
  split at hz
  · exact ⟨y, (Option.some.inj hz).symm⟩
  · exact hs z t hz

/-- Nothing is bound to an application. -/
theorem shallow (hs : s.Plain) : s.Shallow .zero := by
  intro x t hx
  obtain ⟨y, rfl⟩ := hs x t hx
  rfl

/-- Offsets along bindings add up zeros. -/
theorem height_eq_zero (hs : s.Plain) (al : s.Aliasing) (x : String) : al.height x = 0 :=
  beq_iff_eq.1 (hs.shallow.allows_height al x)

/-- A walk adds zeros to its offset, so it meets no sum out of range, and it ends at a variable. -/
theorem exists_followFrom (hs : s.Plain) (path : List (String × Int64)) (x : String) (k : Int64) :
    ∃ y j, s.followFrom path x k = .ok (.free y j) := by
  fun_induction followFrom s path x k with
  | case1 => exact ⟨_, _, rfl⟩
  | case2 => exact ⟨_, _, rfl⟩
  | case3 path x k _ y step _ j _ ih => exact ih
  | case4 path x k _ y step hx hj =>
    -- no sum along the walk overflows, since the steps are zero
    obtain ⟨y', hy⟩ := hs x _ hx
    cases hy
    cases (Int64.add?_zero k).symm.trans hj
  | case5 path x k _ u hu hx =>
    obtain ⟨y, rfl⟩ := hs x u hx
    exact absurd rfl (hu y 0)

/-- The walk ends at the representative, with the offset that it began with. -/
theorem follow_eq (hs : s.Plain) (al : s.Aliasing) (x : String) (k : Int64) :
    s.follow x k = .ok (.free (al.root x) k) := by
  obtain ⟨y, j, h⟩ := hs.exists_followFrom [] x k
  obtain ⟨rfl, hj, -⟩ := al.follow_free h
  rw [hs.height_eq_zero al, Int.add_zero] at hj
  rw [follow, h, Int64.toInt_inj.1 hj]

/-- A variable resolves to its representative, and keeps its offset. -/
theorem resolve_var (hs : s.Plain) (al : s.Aliasing) (x : String) (k : Int64) :
    s.resolve (.var x k) = some (.var (al.root x) k) := by
  rw [resolve, hs.follow_eq al]

/-- To apply such bindings is to rename every variable to the representative of its class. -/
theorem apply_eq (hs : s.Plain) (al : s.Aliasing) (t : Term) :
    s.apply t = .ok (t.rename al.root) := by
  rw [apply, applyAvoiding_eq_bindM]
  induction t with
  | const a => rfl
  | var x k => exact applyAvoiding_var_eq_ok.2 (.inl ⟨_, k, hs.follow_eq al x k, rfl⟩)
  | app g ts ih =>
    refine Term.bindM_app_eq_ok.2 ⟨ts.map (Term.rename al.root), ?_, ?_⟩
    · exact mapM_eq_ok_map ih
    · rw [Term.rename, Term.renameArgs_eq_map]

/-- Applying the bindings renames all literals by the same renaming. -/
theorem apply_clause_eq (hs : s.Plain) (al : s.Aliasing) (c : Clause) :
    c.apply s = .ok (c.rename al.root) := by
  have hmapM : ∀ l : List Term, l.mapM s.apply = .ok (l.map (Term.rename al.root)) := fun l ↦
    mapM_eq_ok_map fun t _ ↦ hs.apply_eq al t
  exact Clause.apply_eq_ok.2 ⟨_, _, hmapM _, hmapM _, rfl⟩

end Substitution.Plain

/-! ### Unification -/

/-- On top of bindings of names to names, by induction on the term; a bound name resolves to a name,
so each equation between two variables is one between representatives. -/
theorem exists_unify_of_shape (h : t.shape = u.shape) (hs : s.Plain) (al : Nonempty s.Aliasing)
    (hn : sizeOf t < n) :
    ∃ s', (unify n t u s).run = some (some s') ∧ s'.Plain ∧ Nonempty s'.Aliasing := by
  obtain ⟨n, rfl⟩ : ∃ m, n = m + 1 := ⟨n - 1, by omega⟩
  -- a unifier that is plain has classes, as all unifiers have
  suffices hplain : ∃ s', (unify (n + 1) t u s).run = some (some s') ∧ s'.Plain by
    obtain ⟨s', hs', hplain⟩ := hplain
    exact ⟨s', hs', hplain, (unified_cons_of_unify hs' .nil).aliasing al⟩
  induction t generalizing u s n with
  | const a =>
    cases u with
    | const b =>
      obtain rfl : a = b := by simpa using h
      exact ⟨s, by simp [unify_const_const], hs⟩
    | var | app => simp at h
  | var x k =>
    cases u with
    | const | app => simp at h
    | var y l =>
      obtain rfl : k = l := by simpa using h
      obtain ⟨al⟩ := al
      rw [unify, hs.resolve_var al, hs.resolve_var al]
      dsimp only
      rw [solve]
      by_cases hxy : al.root x = al.root y
      · exact ⟨s, by rw [if_pos hxy, if_pos rfl]; rfl, hs⟩
      · have hsub : k.sub? k = some 0 := Int64.sub?_eq_some_iff.2 (by simp)
        exact ⟨_, by rw [if_neg hxy, hsub]; rfl, (hs.bind _).bind _⟩
  | app g ts ih =>
    cases u with
    | const | var => simp at h
    | app g' us =>
      simp only [Term.shape_app, Term.app.injEq] at h
      obtain ⟨rfl, hargs⟩ := h
      have hlen : ts.length = us.length := by simpa using congrArg List.length hargs
      rw [unify_app_app, if_pos ⟨rfl, hlen⟩]
      -- the arguments have one shape in pairs, and each equation leaves plain bindings
      have hstep : ∀ e ∈ ts.zip us, ∀ s, s.Plain ∧ Nonempty s.Aliasing →
          ∃ s', (unify n e.1 e.2 s).run = some (some s') ∧ s'.Plain ∧ Nonempty s'.Aliasing := by
        rintro e he s ⟨hs, al⟩
        have hmem := (List.of_mem_zip he).1
        have hsize := List.sizeOf_lt_of_mem hmem
        rw [Term.app.sizeOf_spec] at hn
        obtain ⟨n, rfl⟩ : ∃ m, n = m + 1 := ⟨n - 1, by omega⟩
        obtain ⟨s₁, hs₁, hplain⟩ := ih e.1 hmem (eq_of_mem_zip hargs e he) hs al n (by omega)
        exact ⟨s₁, hs₁, hplain, (unified_cons_of_unify hs₁ .nil).aliasing al⟩
      obtain ⟨s', hs', hplain, -⟩ := exists_unifyAll_of_step hstep ⟨hs, al⟩
      exact ⟨s', hs', hplain⟩

/-- **Terms of one shape unify**, and to apply the unifier is to rename, which makes them the
same. -/
theorem exists_mgu?_of_shape (h : t.shape = u.shape) (hn : sizeOf t < n) :
    ∃ s f, mgu? n t u = some (some s) ∧ t.rename f = u.rename f ∧
      ∀ c : Clause, c.apply s = .ok (c.rename f) := by
  obtain ⟨s, hs, hplain, ⟨al⟩⟩ := exists_unify_of_shape h .empty ⟨.empty⟩ hn
  have hsame := Model.apply_unique hplain.shallow.acyclic al
    (fun w hw ↦ Model.eval_eq_of_mgu? hs hw) (hplain.apply_eq al t) (hplain.apply_eq al u)
  exact ⟨s, al.root, hs, hsame, hplain.apply_clause_eq al⟩

end OffsetLogic
