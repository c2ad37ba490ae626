import Mathlib.Data.List.Forall2
import Mathlib.Data.List.Zip
import Mathlib.Data.Option.Basic
import OffsetLogic.Proofs.Substitution.Applied
import OffsetLogic.Unification

/-!
# Unification is symmetric

The two sides of an equation are not treated alike: they are resolved in a different order, the
arguments of two applications are equated from one side or from the other, and an alias is bound
first for one variable and then for the other. None of this can be seen afterwards, except in the
order in which names were first bound.

**Two runs in step.** `unify n a b` and `unify n b a` make the same calls, the sides of some of them
exchanged, on bindings that are the same up to their order (`Substitution.Same`). Bindings are only
ever looked up, so their order has no influence, and each call ends in the same way in both runs:
both run out of the budget, both clash, or both make the same bindings (`InStep`).

## Any bindings to start with

The bindings that the two runs start from are arbitrary. They may have cycles on which the offsets
do not add up to zero, and names that stand for terms containing them. None of this matters, since
no meaning is given to bindings here; all that is used is that a lookup gives the same in both runs,
and that two bindings of different names can be made in either order
(`Substitution.Same.bind_comm`).

## Where the order of two sides is felt

An equation between two variables is solved for the left one in one run and for the right one in the
other, and both bind each to the other at opposite offsets. The two offsets are differences of the
same words, so both exist or neither does (`Substitution.Same.solve_comm`). This is the only step in
which the two runs do different things; in all others the exchange is handed on to the recursive
calls.

The budgets of the two runs may differ in the final statement. On a larger budget an answer is the
same, so two answers can be compared on the larger of the two (`rel_of_unify_comm`).
-/

namespace OffsetLogic

open Substitution

/-! ### Computations in step -/

/-- Both computations run out of their budgets, both fail, or they have related results. -/
def InStep {σ τ : Type} (R : σ → τ → Prop) (x : OptionT Budgeted σ) (y : OptionT Budgeted τ) :
    Prop :=
  Option.Rel (Option.Rel R) x.run y.run

namespace InStep

variable {α β σ τ : Type} {R : σ → τ → Prop} {x : OptionT Budgeted σ} {y : OptionT Budgeted τ}

theorem exists_run_iff (h : InStep R x y) : (∃ r, x.run = some r) ↔ ∃ r, y.run = some r := by
  unfold InStep at h
  generalize x.run = x at h ⊢
  generalize y.run = y at h ⊢
  cases h with
  | none => simp
  | some => simp

/-- Two answers of computations in step are related. -/
theorem rel {r : Option σ} {r' : Option τ} (h : InStep R x y) (hx : x.run = some r)
    (hy : y.run = some r') : Option.Rel R r r' := by
  unfold InStep at h
  rw [hx, hy] at h
  cases h with
  | some h => exact h

/-- Sequences are in step when their parts are, from related results on. -/
theorem bind {R' : α → β → Prop} {f : σ → OptionT Budgeted α} {g : τ → OptionT Budgeted β}
    (hxy : InStep R x y) (hfg : ∀ a b, R a b → InStep R' (f a) (g b)) :
    InStep R' (x >>= f) (y >>= g) := by
  unfold InStep at hxy ⊢
  rw [OptionT.run_bind, OptionT.run_bind]
  cases hxy with
  | none => exact .none
  | some h =>
    cases h with
    | none => exact .some .none
    | some h => exact hfg _ _ h

/-- Folds are in step when their steps are. -/
theorem foldlM {f : σ → α → OptionT Budgeted σ} {g : τ → β → OptionT Budgeted τ} {l : List α}
    {l' : List β} {s : σ} {t : τ}
    (h : List.Forall₂ (fun a b ↦ ∀ s t, R s t → InStep R (f s a) (g t b)) l l') (hst : R s t) :
    InStep R (l.foldlM f s) (l'.foldlM g t) := by
  induction h generalizing s t with
  | nil => exact .some (.some hst)
  | cons hab _ ih =>
    rw [List.foldlM_cons, List.foldlM_cons]
    exact (hab s t hst).bind fun _ _ ↦ ih

end InStep

/-! ### Bindings that are the same up to their order -/

namespace Substitution.Same

variable {s s' s'' : Substitution} {x y : String} {k l : Int64} {t u : Term}

theorem refl (s : Substitution) : s.Same s := fun _ ↦ rfl

theorem symm (h : s.Same s') : s'.Same s := fun x ↦ (h x).symm

theorem trans (h : s.Same s') (h' : s'.Same s'') : s.Same s'' := fun x ↦ (h x).trans (h' x)

/-- The same binding is added to both. -/
theorem bind (h : s.Same s') (x : String) (t : Term) : (s.bind x t).Same (s'.bind x t) := by
  intro z
  rw [get?_bind, get?_bind, h z]

/-- Different names can be bound in either order. -/
theorem bind_comm (h : s.Same s') (hxy : x ≠ y) (t u : Term) :
    ((s.bind x t).bind y u).Same ((s'.bind y u).bind x t) := by
  intro z
  simp only [get?_bind, h z]
  by_cases hzx : z = x
  · simp [hzx, hxy]
  · simp [hzx]

/-- A walk looks bindings up and does nothing else with them. -/
theorem followFrom (h : s.Same s') (path : List (String × Int64)) (x : String) (k : Int64) :
    s.followFrom path x k = s'.followFrom path x k := by
  fun_induction Substitution.followFrom s path x k with
  | case1 path x k y j hp => rw [followFrom_eq, hp]
  | case2 path x k hp hx => rw [followFrom_eq, hp, ← h x, hx]
  | case3 path x k hp y step hx j hj ih =>
    rw [ih, s'.followFrom_eq path, hp, ← h x, hx]
    simp only [hj]
  | case4 path x k hp y step hx hj =>
    rw [followFrom_eq, hp, ← h x, hx]
    simp only [hj]
  | case5 path x k hp u hu hx =>
    rw [followFrom_eq, hp, ← h x, hx]
    cases u with
    | var y step => exact absurd rfl (hu y step)
    | const | app => rfl

theorem follow (h : s.Same s') (x : String) (k : Int64) : s.follow x k = s'.follow x k :=
  h.followFrom [] x k

/-- Resolving is a walk and a shift, so the order of bindings has no influence on it. -/
theorem resolve (h : s.Same s') (t : Term) : s.resolve t = s'.resolve t := by
  cases t with
  | var x k => rw [Substitution.resolve, Substitution.resolve, h.follow]
  | const | app => rfl

/-- Solving asks for offsets only, and binds the same names in both. -/
theorem solve (h : s.Same s') (x : String) (k : Int64) (t : Term) :
    Option.Rel Same (s.solve x k t) (s'.solve x k t) := by
  cases t with
  | const a =>
    cases a with
    | int n =>
      rw [Substitution.solve, Substitution.solve]
      cases n.sub? k with
      | none => exact .none
      | some m => exact .some (h.bind _ _)
    | symbol a =>
      rw [Substitution.solve, Substitution.solve]
      split
      · exact .some (h.bind _ _)
      · exact .none
  | app g ts =>
    rw [Substitution.solve, Substitution.solve]
    split
    · exact .some (h.bind _ _)
    · exact .none
  | var y l =>
    rw [Substitution.solve, Substitution.solve]
    split
    · split
      · exact .some h
      · exact .none
    · cases l.sub? k with
      | none => exact .none
      | some f =>
        cases k.sub? l with
        | none => exact .none
        | some b => exact .some ((h.bind _ _).bind _ _)

/-- An equation between two variables can be solved for either of them. -/
theorem solve_comm (h : s.Same s') (x : String) (k : Int64) (y : String) (l : Int64) :
    Option.Rel Same (s.solve x k (.var y l)) (s'.solve y l (.var x k)) := by
  rw [Substitution.solve, Substitution.solve]
  by_cases hxy : x = y
  · rw [if_pos hxy, if_pos hxy.symm]
    by_cases hkl : k = l
    · rw [if_pos hkl, if_pos hkl.symm]
      exact .some h
    · rw [if_neg hkl, if_neg (Ne.symm hkl)]
      exact .none
  · rw [if_neg hxy, if_neg (Ne.symm hxy)]
    cases l.sub? k with
    | none => cases k.sub? l <;> exact .none
    | some f =>
      cases k.sub? l with
      | none => exact .none
      | some b => exact .some (h.bind_comm hxy _ _)

/-- The same call on the same bindings in another order. -/
theorem unify (h : s.Same s') (n : Nat) (a b : Term) :
    InStep Same (unify n a b s) (unify n a b s') := by
  induction n generalizing a b s s' with
  | zero => exact .none
  | succ n ih =>
    have hargs : ∀ es : List (Term × Term),
        InStep Same (es.foldlM (fun s e ↦ OffsetLogic.unify n e.1 e.2 s) s)
          (es.foldlM (fun s e ↦ OffsetLogic.unify n e.1 e.2 s) s') := fun es ↦
      .foldlM (List.forall₂_same.2 fun e _ s s' h ↦ ih h e.1 e.2) h
    rw [OffsetLogic.unify, OffsetLogic.unify, ← h.resolve a, ← h.resolve b]
    split
    · exact .some (h.solve _ _ _)
    · exact .some (h.solve _ _ _)
    · split
      · exact .some (.some h)
      · exact .some .none
    · split
      · exact hargs _
      · exact .some .none
    · exact .some .none

/-- An application looks bindings up as well. -/
theorem applyAvoiding (h : s.Same s') (expanding : List String) (t : Term) :
    s.applyAvoiding expanding t = s'.applyAvoiding expanding t := by
  induction hp : s.pending expanding using Nat.strong_induction_on generalizing expanding t with
  | _ p ih =>
    rw [applyAvoiding_eq_bindM, s'.applyAvoiding_eq_bindM]
    congr
    funext x k
    rw [applyAvoiding_var, applyAvoiding_var, ← h.follow]
    split
    · rfl
    · rfl
    · rename_i y u j hy
      split
      · rfl
      · rename_i hmem
        have hlt := pending_cons_lt (mem_names_of_get? (get?_of_follow hy)) hmem
        rw [ih _ (hp ▸ hlt) (y :: expanding) u rfl]

theorem apply_clause (h : s.Same s') (c : Clause) : c.apply s = c.apply s' := by
  have happly : s.apply = s'.apply := funext fun t ↦ h.applyAvoiding [] t
  rw [Clause.apply, Clause.apply, happly]

end Substitution.Same

/-! ### Exchanged sides -/

/-- The run on exchanged sides stays in step. -/
theorem inStep_unify_comm {s s' : Substitution} (h : s.Same s') (n : Nat) (a b : Term) :
    InStep Same (unify n a b s) (unify n b a s') := by
  induction n generalizing a b s s' with
  | zero => exact .none
  | succ n ih =>
    -- arguments are equated with exchanged sides, or, when one term is a variable and the other is
    -- not, from the same side in both runs
    have hswap : ∀ ts us : List Term,
        InStep Same ((ts.zip us).foldlM (fun s e ↦ unify n e.1 e.2 s) s)
          ((us.zip ts).foldlM (fun s e ↦ unify n e.1 e.2 s) s') := by
      intro ts us
      rw [← List.zip_swap ts us]
      exact .foldlM (List.forall₂_map_right_iff.2
        (List.forall₂_same.2 fun e _ s s' h ↦ ih h e.1 e.2)) h
    have hsame : ∀ ts us : List Term,
        InStep Same ((ts.zip us).foldlM (fun s e ↦ unify n e.1 e.2 s) s)
          ((ts.zip us).foldlM (fun s e ↦ unify n e.1 e.2 s) s') := fun ts us ↦
      .foldlM (List.forall₂_same.2 fun e _ s s' h ↦ h.unify n e.1 e.2) h
    rw [unify, unify, ← h.resolve a, ← h.resolve b]
    cases s.resolve a with
    | none =>
      cases s.resolve b with
      | none => exact .some .none
      | some d => cases d <;> exact .some .none
    | some c =>
      cases s.resolve b with
      | none => cases c <;> exact .some .none
      | some d =>
        cases c with
        | var x k =>
          cases d with
          | var y l => exact .some (h.solve_comm x k y l)
          | const | app => exact .some (h.solve x k _)
        | const u =>
          cases d with
          | var y l => exact .some (h.solve y l _)
          | app => exact .some .none
          | const v =>
            dsimp only
            by_cases huv : u = v
            · rw [if_pos huv, if_pos huv.symm]
              exact .some (.some h)
            · rw [if_neg huv, if_neg (Ne.symm huv)]
              exact .some .none
        | app g ts =>
          cases d with
          | var y l => exact .some (h.solve y l _)
          | const => exact .some .none
          | app g' us =>
            dsimp only
            by_cases hgh : g = g' ∧ ts.length = us.length
            · have hhg : g' = g ∧ us.length = ts.length := ⟨hgh.1.symm, hgh.2.symm⟩
              rw [if_pos hgh, if_pos hhg]
              cases a.isVariable <;> cases b.isVariable
              · exact hswap ts us
              · exact hsame us ts
              · exact hsame ts us
              · exact hswap us ts
            · rw [if_neg hgh, if_neg fun h ↦ hgh ⟨h.1.symm, h.2.symm⟩]
              exact .some .none

/-- Whatever the budgets, runs on exchanged sides end in the same way. -/
theorem rel_of_unify_comm {m n : Nat} {a b : Term} {s s' : Substitution}
    {r r' : Option Substitution} (h : s.Same s') (hr : (unify m a b s).run = some r)
    (hr' : (unify n b a s').run = some r') : Option.Rel Same r r' :=
  (inStep_unify_comm h (max m n) a b).rel (unify_eq_some_of_le (Nat.le_max_left m n) hr)
    (unify_eq_some_of_le (Nat.le_max_right m n) hr')

/-- **Unification is symmetric**, on whatever bindings it starts. Within a budget it ends on both
orders of the two terms or on neither, and whenever both end, both clash or both bind the same names
to the same terms. -/
theorem unify_comm (a b : Term) (s : Substitution) :
    (∀ n, (∃ r, (unify n a b s).run = some r) ↔ ∃ r, (unify n b a s).run = some r) ∧
    ∀ m n r r', (unify m a b s).run = some r → (unify n b a s).run = some r' →
      Option.Rel Same r r' :=
  ⟨fun n ↦ (inStep_unify_comm (.refl s) n a b).exists_run_iff,
    fun _ _ _ _ hr hr' ↦ rel_of_unify_comm (.refl s) hr hr'⟩

/-- On the cycle `x ↦ y + 1`, `y ↦ x - 1`, the terms `f(x, v + 3, 5)` and `f(z + 1, u, y + 2)` make
the same bindings in both orders, `v` before `u` or `u` before `v`. -/
theorem unify_comm_cycle :
    let a := Term.app "f" [.var "x" 0, .var "v" 3, .const (.int 5)]
    let b := Term.app "f" [.var "z" 1, .var "u" 0, .var "y" 2]
    let s : Substitution := .ofList [("x", .var "y" 1), ("y", .var "x" (-1))]
    ∃ r r', (unify 3 a b s).run = some (some r) ∧ (unify 2 b a s).run = some (some r') ∧
      r.names = ["x", "y", "z", "v", "u"] ∧ r'.names = ["x", "y", "z", "u", "v"] ∧ r.Same r' := by
  intro a b s
  have hr : (unify 3 a b s).run = some (some (.ofList [("x", .const (.int 4)),
      ("y", .var "x" (-1)), ("z", .var "x" (-1)), ("v", .var "u" (-3)), ("u", .var "v" 3)])) := by
    decide +kernel
  have hr' : (unify 2 b a s).run = some (some (.ofList [("x", .const (.int 4)),
      ("y", .var "x" (-1)), ("z", .var "x" (-1)), ("u", .var "v" 3), ("v", .var "u" (-3))])) := by
    decide +kernel
  have h := (unify_comm a b s).2 3 2 _ _ hr hr'
  cases h with
  | some h => exact ⟨_, _, hr, hr', by decide +kernel, by decide +kernel, h⟩

end OffsetLogic
