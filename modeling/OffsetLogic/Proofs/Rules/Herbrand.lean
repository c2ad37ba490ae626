import OffsetLogic.Proofs.Resolution.Flat
import OffsetLogic.Proofs.Semantics.Acyclic

/-!
# Instances of literals without offsets

The terms form a model of their own, in which names mean themselves and offsets wrap around, so the
values of a literal are its **instances** (`Model.herbrand`). For flat literals without offsets,
unification is complete: literals that have a common instance unify, and the valuation under which
they have it solves the bindings of the unifier (`exists_mgu?`). No occurs check and no overflow can
get in the way there, since names are bound to constants and plain variables only.

That offsets wrap around is of no consequence and makes the definition short. A model needs an
action of the integers, and the words are one when sums wrap around; the literals that are evaluated
here have no offsets, so the action is only ever applied at zero. For literals with offsets this
model would be wrong, because the library's sums do not wrap around, and another one is used
(`OffsetLogic.Proofs.Semantics.Free`).

Completeness is proved with the valuation carried along: it solves the bindings made so far, and
makes the two sides of the equation equal. Then an equation between leaves is either one between
equal constants or one that binds a variable to the value that it has. So there is no clash, and the
new bindings are solved again. The same is true of every budget that gives an answer
(`solves_of_mgu?`), since a budget of two gives the answer too.
-/

namespace OffsetLogic

open Model Substitution

namespace Model

/-- The terms as a model. Only the values matter, so nothing is called true. -/
def herbrand : Model Term where
  shift
    | .const (.int n), k => .const (.int (n + .ofInt k))
    | t, _ => t
  shift_zero t := by
    cases t with
    | const a => cases a <;> simp
    | var | app => rfl
  shift_shift t j k := by
    cases t with
    | const a => cases a <;> simp [Int64.ofInt_add, Int64.add_assoc]
    | var | app => rfl
  int n := .const (.int (.ofInt n))
  shift_int n k := by simp [Int64.ofInt_add]
  symbol a := .const (.symbol a)
  app := .app
  Holds _ := False

variable {v : String → Term}

@[simp] theorem eval_herbrand_const (a : Value) : herbrand.eval v (.const a) = .const a := by
  cases a with
  | int n => exact congrArg (fun m ↦ Term.const (.int m)) (Int64.ofInt_toInt n)
  | symbol a => rfl

@[simp] theorem eval_herbrand_var (x : String) : herbrand.eval v (.var x 0) = v x := by
  rw [eval, Int64.toInt_zero, shift_zero]

@[simp] theorem eval_herbrand_app (g : String) (ts : List Term) :
    herbrand.eval v (.app g ts) = .app g (ts.map (herbrand.eval v)) := by
  rw [eval, evalArgs_eq_map]
  rfl

end Model

variable {n : Nat} {v : String → Term} {s s' : Substitution} {a b t u : Term}

/-- Without offsets, the only offset is zero. -/
theorem eq_zero_of_allows {k : Int64} (hk : Offsets.zero.allows k.toInt = true) : k = 0 :=
  Int64.toInt_inj.1 ((beq_iff_eq.1 hk).trans Int64.toInt_zero.symm)

/-! ### The walk between plain variables -/

/-- A walk between plain variables adds up zeros, so it never fails. -/
theorem exists_followFrom (hs : s.Shallow .zero) (path : List (String × Int64)) (x : String) :
    ∃ e, s.followFrom path x 0 = .ok e := by
  generalize hk : (0 : Int64) = k
  fun_induction followFrom s path x k with
  | case1 => exact ⟨_, rfl⟩
  | case2 => exact ⟨_, rfl⟩
  | case3 path x k _ y step hx j hj ih =>
    have hstep := eq_zero_of_allows (hs x _ hx)
    rw [hstep, ← hk, Int64.add?_zero] at hj
    exact ih (Option.some.inj hj)
  | case4 path x k _ y step hx hj =>
    have hstep := eq_zero_of_allows (hs x _ hx)
    rw [hstep, ← hk, Int64.add?_zero] at hj
    cases hj
  | case5 => exact ⟨_, rfl⟩

/-- A plain variable resolves to a plain variable or a constant. -/
theorem exists_resolve (hs : s.Shallow .zero) (al : s.Aliasing) (ht : t.isLeaf .zero = true) :
    ∃ u, s.resolve t = some u := by
  cases t with
  | app => cases ht
  | const a => exact ⟨_, rfl⟩
  | var x k =>
    obtain rfl := eq_zero_of_allows ht
    obtain ⟨e, he⟩ := exists_followFrom hs [] x
    rw [Substitution.resolve, follow, he]
    cases e with
    | free y j => exact ⟨_, rfl⟩
    | bound y u j =>
      obtain ⟨-, hj, -⟩ := al.follow_bound he
      have hzero : j = 0 := by
        refine eq_zero_of_allows ?_
        rw [hj, Int64.toInt_zero, Int.zero_add]
        exact hs.allows_height al x
      rw [hzero]
      exact ⟨u, Term.shifted_zero u⟩

/-! ### Literals with a common instance unify -/

/-- An equation of a plain variable that holds under a valuation can be solved. -/
theorem exists_solve (hu : u.isLeaf .zero = true) (hv : herbrand.Solves v s) {x : String}
    (heq : v x = herbrand.eval v u) :
    ∃ s', s.solve x 0 u = some s' ∧ herbrand.Solves v s' := by
  cases u with
  | app => cases hu
  | const a =>
    cases a with
    | int m => exact ⟨_, by rw [solve, Int64.sub?_zero]; rfl, hv.bind heq⟩
    | symbol a => exact ⟨_, by rw [solve, if_pos rfl], hv.bind heq⟩
  | var y k =>
    obtain rfl := eq_zero_of_allows hu
    by_cases hxy : x = y
    · exact ⟨s, by rw [solve, if_pos hxy, if_pos rfl], hv⟩
    · rw [eval_herbrand_var] at heq
      -- both directions are bound, and the values agree in both
      refine ⟨(s.bind x (.var y 0)).bind y (.var x 0), ?_, (hv.bind ?_).bind ?_⟩
      · rw [solve, if_neg hxy, Int64.sub?_zero]
        rfl
      · rw [eval_herbrand_var, heq]
      · rw [eval_herbrand_var, heq]

/-- Leaves with equal values unify in one step, and the valuation solves the new bindings. -/
theorem exists_unify_leaf (hs : s.Shallow .zero) (al : s.Aliasing)
    (hv : herbrand.Solves v s) (ha : a.isLeaf .zero = true) (hb : b.isLeaf .zero = true)
    (heq : herbrand.eval v a = herbrand.eval v b) :
    ∃ s', (unify (n + 1) a b s).run = some (some s') ∧ herbrand.Solves v s' := by
  obtain ⟨t, ht⟩ := exists_resolve hs al ha
  obtain ⟨u, hu⟩ := exists_resolve hs al hb
  have htl := hs.isLeaf_resolve al ha ht
  have hul := hs.isLeaf_resolve al hb hu
  rw [← eval_resolve al hv ht, ← eval_resolve al hv hu] at heq
  rw [unify, ht, hu]
  cases t with
  | app => cases htl
  | var x k =>
    obtain rfl := eq_zero_of_allows htl
    rw [eval_herbrand_var] at heq
    obtain ⟨s', hsolve, hv'⟩ := exists_solve hul hv heq
    exact ⟨s', congrArg some hsolve, hv'⟩
  | const c =>
    cases u with
    | app => cases hul
    | var y l =>
      obtain rfl := eq_zero_of_allows hul
      rw [eval_herbrand_var] at heq
      obtain ⟨s', hsolve, hv'⟩ := exists_solve htl hv heq.symm
      exact ⟨s', congrArg some hsolve, hv'⟩
    | const d =>
      rw [eval_herbrand_const, eval_herbrand_const] at heq
      cases heq
      exact ⟨s, by simp, hv⟩

/-- Argument lists with equal values unify, one argument after the other. -/
theorem exists_foldlM_unify {ts us : List Term} (hs : s.Shallow .zero) (al : Nonempty s.Aliasing)
    (hv : herbrand.Solves v s) (hts : ∀ t ∈ ts, t.isLeaf .zero = true)
    (hus : ∀ u ∈ us, u.isLeaf .zero = true)
    (heq : ts.map (herbrand.eval v) = us.map (herbrand.eval v)) :
    ∃ s', ((ts.zip us).foldlM (fun s e ↦ unify (n + 1) e.1 e.2 s) s).run = some (some s') ∧
      herbrand.Solves v s' := by
  have hstep : ∀ e ∈ ts.zip us, ∀ s : Substitution,
      s.Shallow .zero ∧ Nonempty s.Aliasing ∧ herbrand.Solves v s →
      ∃ s', (unify (n + 1) e.1 e.2 s).run = some (some s') ∧
        s'.Shallow .zero ∧ Nonempty s'.Aliasing ∧ herbrand.Solves v s' := by
    rintro e he s ⟨hs, ⟨al⟩, hv⟩
    have ht := hts _ (List.of_mem_zip he).1
    have hu := hus _ (List.of_mem_zip he).2
    obtain ⟨s₁, hs₁, hv₁⟩ := exists_unify_leaf (n := n) hs al hv ht hu (eq_of_mem_zip heq e he)
    -- the bindings made so far stay shallow and without conflicts
    exact ⟨s₁, hs₁, shallow_of_unify_leaf hs ⟨al⟩ ht hu hs₁,
      (unified_cons_of_unify hs₁ .nil).aliasing ⟨al⟩, hv₁⟩
  obtain ⟨s', hs', -, -, hv'⟩ := exists_unifyAll_of_step hstep ⟨hs, al, hv⟩
  exact ⟨s', hs', hv'⟩

/-- **Unification is complete.** Flat literals without offsets that have a common instance unify
within a budget of two, and the valuation that gives the instance solves the bindings. -/
theorem exists_mgu? (ha : a.isFlat .zero = true) (hb : b.isFlat .zero = true)
    (heq : herbrand.eval v a = herbrand.eval v b) (n : Nat) :
    ∃ s, mgu? (n + 2) a b = some (some s) ∧ herbrand.Solves v s := by
  cases a with
  | const | var => cases ha
  | app g ts =>
    cases b with
    | const | var => cases hb
    | app h' us =>
      rw [eval_herbrand_app, eval_herbrand_app] at heq
      obtain ⟨rfl, hargs⟩ := Term.app.inj heq
      have hlen : ts.length = us.length := by simpa using congrArg List.length hargs
      obtain ⟨s, hs, hv⟩ := exists_foldlM_unify (n := n) (s := ∅) Substitution.shallow_empty
        ⟨.empty⟩ (fun x t hx ↦ nomatch hx) (Term.isFlat_app_iff.1 ha) (Term.isFlat_app_iff.1 hb)
        hargs
      exact ⟨s, by rw [mgu?, unify_app_app, if_pos ⟨rfl, hlen⟩, hs], hv⟩

/-- An answer about literals that have a common instance is a unifier. -/
theorem solves_of_mgu? {r : Option Substitution} (ha : a.isFlat .zero = true)
    (hb : b.isFlat .zero = true)
    (heq : herbrand.eval v a = herbrand.eval v b) (h : mgu? n a b = some r) :
    ∃ s, r = some s ∧ herbrand.Solves v s := by
  obtain ⟨s, hs, hv⟩ := exists_mgu? ha hb heq n
  exact ⟨s, unify_unique h hs, hv⟩

end OffsetLogic
