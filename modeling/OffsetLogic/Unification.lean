import OffsetLogic.Substitution.Apply

/-!
# Unification with offsets

Unification solves an equation between two terms on top of bindings already made. Both sides are
first resolved through the bindings. Two equal constants need nothing, two applications of one name
and arity are unified argument by argument, and a variable is solved for: `x + k = n` binds `x` to
`n - k`, and `x + k = y + l` binds **both directions**, `x ↦ y + (l - k)` and `y ↦ x + (k - l)`, so
that the variables form an alias class. A symbol or an application can only be equated with a
variable of offset zero, and a difference that overflows has no solution.

**No occurs check.** `x` may be bound to a term that contains `x`. Bindings can then make the
recursion run on without end, so unification takes a **budget**, the depth of recursion it may use,
and has three answers: a unifier, a clash, or no answer within the budget (`Budgeted`). What it
answers within a budget does not depend on the budget.

The two kinds of failure must not be confused, and the type keeps them apart: the outer `none` says
that the budget ran out, and the inner one that there is no unifier. So a clash is `some none`, and
a run that answers is one whose outer `Option` is not `none`; a larger budget does not change what
it answers (`unify_eq_some_of_le`).

A variable that represents an alias class is bound already, within the cycle of its class, and
solving for it overwrites that binding. Where two classes are joined, both cycles are opened at
their representatives and one is closed through the two of them, so all names of either class now
lead to it; which of them represents the new class is settled by the walk (`Substitution.follow`).

The arguments of two applications are taken from left to right, and each is unified on top of the
bindings that those before it have made. When the second term is a variable before it is resolved,
the two argument lists change sides. The unifiers of either order bind the same names to the same
terms (`OffsetLogic.Proofs.Unification.Symmetry`).
-/

namespace OffsetLogic

/-- A computation on a budget; `none` when the budget ran out before there was an answer. -/
abbrev Budgeted : Type → Type := Option

namespace Substitution

/-- The substitution that also makes `x + k` equal to `t`, where `x` is unbound (or represents its
alias class) and `t` is resolved; `none` if nothing does. -/
def solve (s : Substitution) (x : String) (k : Int64) (t : Term) : Option Substitution :=
  match t with
  | .var y l =>
    if x = y then if k = l then some s else none
    else do
      let forward ← l.sub? k
      let backward ← k.sub? l
      return (s.bind x (.var y forward)).bind y (.var x backward)
  | .const (.int n) => (n.sub? k).map fun m ↦ s.bind x (.const (.int m))
  | .const (.symbol _) | .app .. => if k = 0 then some (s.bind x t) else none

end Substitution

/-- The bindings of `s` extended so that `a` and `b` become equal. The inner `none` is a clash. When
`b` is a variable, the arguments of two applications are equated with those of `b` first. -/
def unify : Nat → Term → Term → Substitution → OptionT Budgeted Substitution
  | 0, _, _, _ => OptionT.mk none
  | n + 1, a, b, s =>
    match s.resolve a, s.resolve b with
    | some (.var x k), some u => OptionT.mk (some (s.solve x k u))
    | some t, some (.var y l) => OptionT.mk (some (s.solve y l t))
    | some (.const u), some (.const v) => if u = v then pure s else failure
    | some (.app g ts), some (.app h us) =>
      if g = h ∧ ts.length = us.length then
        (if b.isVariable then us.zip ts else ts.zip us).foldlM (fun s e ↦ unify n e.1 e.2 s) s
      else failure
    | _, _ => failure

/-- The bindings of `s` extended so that every pair of a list becomes equal, from left to right. -/
def unifyAll (n : Nat) (equations : List (Term × Term)) (s : Substitution) :
    OptionT Budgeted Substitution :=
  equations.foldlM (fun s e ↦ unify n e.1 e.2 s) s

/-! ### More budget keeps the answer -/

/-- A fold whose steps keep their answers keeps its answer. -/
theorem foldlM_eq_some_of_step {σ α : Type} {f g : σ → α → OptionT Budgeted σ}
    (step : ∀ s a r, (f s a).run = some r → (g s a).run = some r) {l : List α} {s : σ}
    {r : Option σ} (h : (l.foldlM f s).run = some r) : (l.foldlM g s).run = some r := by
  induction l generalizing s with
  | nil => exact h
  | cons a l ih =>
    simp only [List.foldlM_cons, OptionT.run_bind] at h ⊢
    obtain ⟨t?, ht, h⟩ := Option.bind_eq_some_iff.1 h
    refine Option.bind_eq_some_iff.2 ⟨t?, step _ _ _ ht, ?_⟩
    cases t? with
    | none => exact h
    | some t => exact ih h

/-- One more step of budget keeps the answer. The induction is on the budget and follows the cases
of the definition. -/
theorem unify_succ_of_eq_some {n : Nat} {a b : Term} {s : Substitution} {r : Option Substitution}
    (h : (unify n a b s).run = some r) : (unify (n + 1) a b s).run = some r := by
  induction n generalizing a b s r with
  | zero => simp [unify] at h
  | succ n ih =>
    rw [unify] at h ⊢
    split at h
    · exact h
    · exact h
    · exact h
    · split at h
      · rename_i hgh
        rw [if_pos hgh]
        exact foldlM_eq_some_of_step (fun _ _ _ ↦ ih) h
      · rename_i hgh
        rw [if_neg hgh]
        exact h
    · exact h

/-- An answer within a budget is the answer within every larger budget. -/
theorem unify_eq_some_of_le {m n : Nat} (hmn : m ≤ n) {a b : Term} {s : Substitution}
    {r : Option Substitution} (h : (unify m a b s).run = some r) :
    (unify n a b s).run = some r := by
  induction hmn with
  | refl => exact h
  | step _ ih => exact unify_succ_of_eq_some ih

/-- Answers within two budgets are both the answer within the larger one. -/
theorem unify_unique {m n : Nat} {a b : Term} {s : Substitution} {r r' : Option Substitution}
    (h : (unify m a b s).run = some r) (h' : (unify n a b s).run = some r') : r = r' := by
  have hmax := unify_eq_some_of_le (Nat.le_max_left m n) h
  rw [unify_eq_some_of_le (Nat.le_max_right m n) h'] at hmax
  exact (Option.some.inj hmax).symm

/-- The most general unifier of two terms, if there is one. -/
def mgu? (n : Nat) (a b : Term) : Budgeted (Option Substitution) := (unify n a b ∅).run

/-- Whether two terms have a unifier. -/
def unifiable (n : Nat) (a b : Term) : Budgeted Bool := (·.isSome) <$> mgu? n a b

end OffsetLogic
