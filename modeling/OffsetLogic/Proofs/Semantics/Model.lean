import OffsetLogic.Clause.Canonical
import OffsetLogic.Proofs.Semantics.Assignment
import OffsetLogic.Proofs.Unification.Success

/-!
# Models

A model gives every term a value. **Offsets act**: the integers act on the whole domain, an integer
constant moves as its number does, and `x + k` is the value of `x` moved by `k`. Nothing else is
asked of a model; in particular symbols and the values of functions have successors too, whatever
they are.

Bindings are equations, so they have solutions (`Model.Solves`), and a unifier is sound when every
solution of its bindings also makes the two terms equal (`Model.eval_eq_of_mgu?`). Since the
bindings of variables to variables are cyclic, a solution is described by its values at the
representatives: `Model.solves_iff`.

## Why the whole domain is moved

An offset on a variable is written before anything is known of the variable. A clause with `p(x +
1)` must have a truth value wherever `x` may be, so every element has a place one further on. Were
only integers moved, such a clause would have to be given a meaning at symbols by convention, and
the convention would decide what is sound. With an action there is nothing to decide, and a term
that has no shift has a moved value all the same; only the term for it is missing.

## Soundness without an order of events

Unification replaces bindings as it goes, so what it made first may be gone when it ends.
`Model.solves_of_unified` says that nothing is lost: every solution of the final bindings solves
those before and all the equations. It is proved along the run, one equation at a time, and asks for
no acyclicity; a substitution that no finite tree solves may still have solutions in some model.
-/

namespace OffsetLogic

universe u

/-- A domain on which the integers act, with the meaning of all names, and the true elements. -/
structure Model (D : Type u) where
  /-- The element moved by an integer. -/
  shift : D → Int → D
  shift_zero : ∀ d, shift d 0 = d
  shift_shift : ∀ d j k, shift (shift d j) k = shift d (j + k)
  /-- The element of an integer. -/
  int : Int → D
  shift_int : ∀ n k, shift (int n) k = int (n + k)
  /-- The element of a symbol. -/
  symbol : String → D
  /-- The function of a name; its restriction to lists of one length is that of the arity. -/
  app : String → List D → D
  /-- The elements that are true. -/
  Holds : D → Prop

namespace Model

variable {D : Type u} (M : Model D)

mutual

/-- The value of a term when `v` gives the values of the variables. -/
def eval (v : String → D) : Term → D
  | .const (.int n) => M.int n.toInt
  | .const (.symbol a) => M.symbol a
  | .var x k => M.shift (v x) k.toInt
  | .app g ts => M.app g (evalArgs v ts)

/-- The values of an argument list. -/
def evalArgs (v : String → D) : List Term → List D
  | [] => []
  | t :: ts => eval v t :: evalArgs v ts

end

/-- Some positive literal is true or some negated atom is false under the valuation. -/
def TrueAt (v : String → D) (c : Clause) : Prop := c.HoldsIn fun t ↦ M.Holds (M.eval v t)

/-- The clause is true under every valuation of its variables. -/
def Satisfies (c : Clause) : Prop := ∀ v, M.TrueAt v c

/-- The valuation satisfies every binding. -/
def Solves (v : String → D) (s : Substitution) : Prop :=
  ∀ x t, s.get? x = some t → v x = M.eval v t

variable {M}
variable {v w : String → D} {s s' : Substitution} {x y : String} {j k : Int64} {t u : Term}

/-! ### Values of terms -/

theorem evalArgs_eq_map (v : String → D) (ts : List Term) :
    M.evalArgs v ts = ts.map (M.eval v) := by
  induction ts with
  | nil => rfl
  | cons t ts ih => rw [evalArgs, ih, List.map_cons]

theorem eval_congr (h : ∀ x ∈ t.occurrences, v x = w x) : M.eval v t = M.eval w t := by
  induction t with
  | const a => cases a <;> rfl
  | var x k => rw [eval, eval, h x (List.mem_singleton_self x)]
  | app g ts ih =>
    rw [eval, eval, evalArgs_eq_map, evalArgs_eq_map]
    exact congrArg _ (List.map_congr_left fun t ht ↦ ih t ht fun x hx ↦
      h x (Term.mem_occurrences_app.2 ⟨t, ht, hx⟩))

/-- Renaming a term is renaming its valuation. -/
theorem eval_rename (f : String → String) (v : String → D) (t : Term) :
    M.eval v (t.rename f) = M.eval (fun x ↦ v (f x)) t := by
  induction t with
  | const a => cases a <;> rfl
  | var x k => rfl
  | app g ts ih =>
    rw [Term.rename, eval, eval, Term.renameArgs_eq_map, evalArgs_eq_map, evalArgs_eq_map,
      List.map_map]
    exact congrArg _ (List.map_congr_left ih)

/-- A term that has a shift is moved by it. -/
theorem eval_shifted (h : t.shifted k = some u) (v : String → D) :
    M.eval v u = M.shift (M.eval v t) k.toInt := by
  unfold Term.shifted at h
  split at h
  · rename_i hk
    rw [← Option.some.inj h, hk, Int64.toInt_zero, M.shift_zero]
  · split at h
    · obtain ⟨l, hl, rfl⟩ := Option.map_eq_some_iff.1 h
      rw [eval, eval, M.shift_shift, Int64.add?_eq_some_iff.1 hl]
    · obtain ⟨l, hl, rfl⟩ := Option.map_eq_some_iff.1 h
      rw [eval, eval, M.shift_int, Int64.add?_eq_some_iff.1 hl]
    · cases h
    · cases h

/-- Moving can be undone, so it is injective. -/
theorem eq_of_shift_eq_shift {d e : D} {j : Int} (h : M.shift d j = M.shift e j) : d = e := by
  have := congrArg (M.shift · (-j)) h
  simpa [M.shift_shift, Int.add_right_neg, M.shift_zero] using this

/-! ### Solutions of bindings -/

/-- A binding that holds can be added. -/
theorem Solves.bind (hv : M.Solves v s) (hx : v x = M.eval v t) : M.Solves v (s.bind x t) := by
  intro y u hy
  rw [Substitution.get?_bind] at hy
  split at hy
  · rename_i hyx
    rw [hyx, ← Option.some.inj hy, hx]
  · exact hv y u hy

/-- The value of a name is that of its representative at its height, as soon as the bindings of
the other names are satisfied. -/
theorem value_eq (al : s.Aliasing)
    (hv : ∀ x y k, s.get? x = some (.var y k) → al.root x ≠ x → v x = M.shift (v y) k.toInt)
    (x : String) : v x = M.shift (v (al.root x)) (al.height x) := by
  induction hd : al.depth x using Nat.strongRecOn generalizing x with
  | ind d ih =>
    subst hd
    by_cases hx : al.root x = x
    · rw [hx, al.height_eq_zero hx, M.shift_zero]
    · obtain ⟨y, k, hxy⟩ := al.exists_link hx
      obtain ⟨hroot, hheight, hdepth⟩ := al.link hxy
      rw [hv x y k hxy hx, ih _ (hdepth hx) y rfl, M.shift_shift, hroot, hheight]

/-- Bindings of variables to variables say that each name stands at its height over its
representative; the others give values. -/
theorem solves_iff (al : s.Aliasing) :
    M.Solves v s ↔ (∀ x, v x = M.shift (v (al.root x)) (al.height x)) ∧
      ∀ x t, s.get? x = some t → t.isVariable = false → v x = M.eval v t := by
  refine ⟨fun h ↦ ⟨value_eq al fun x y k hx _ ↦ h x _ hx, fun x t hx _ ↦ h x t hx⟩, ?_⟩
  rintro ⟨hroot, hrigid⟩ x t hx
  cases t with
  | const a => exact hrigid x _ hx rfl
  | app g ts => exact hrigid x _ hx rfl
  | var y k =>
    obtain ⟨hxy, hheight, -⟩ := al.link hx
    rw [eval, hroot x, hxy, hheight, ← M.shift_shift, ← hroot y]

/-- Bindings of representatives to variables may be changed without losing a solution. -/
theorem solves_of_agree (al : s.Aliasing)
    (h : ∀ z t, s.get? z = some t → al.root z ≠ z ∨ t.isVariable = false → s'.get? z = some t)
    (hv : M.Solves v s') : M.Solves v s :=
  (solves_iff al).2 ⟨value_eq al fun x _ _ hx hroot ↦ hv x _ (h x _ hx (.inl hroot)),
    fun x t hx ht ↦ hv x t (h x t hx (.inr ht))⟩

/-- A walk that ends at a value stays in its place. -/
theorem eval_of_follow_bound (al : s.Aliasing) (hv : M.Solves v s)
    (h : s.follow x k = .ok (.bound y u j)) :
    M.eval v (.var x k) = M.shift (M.eval v u) j.toInt := by
  obtain ⟨rfl, hj, hget, -⟩ := al.follow_bound h
  rw [eval, ((solves_iff al).1 hv).1 x, M.shift_shift, Int.add_comm, ← hj, hv _ u hget]

/-- What a term resolves to has the value of the term. -/
theorem eval_resolve (al : s.Aliasing) (hv : M.Solves v s) (h : s.resolve t = some u) :
    M.eval v u = M.eval v t := by
  have hroot := ((solves_iff al).1 hv).1
  obtain ⟨x, k, j, rfl, rfl, hj, -⟩ | ⟨x, k, j, r, rfl, hr, -, hj, hu⟩ | ⟨-, rfl⟩ :=
    al.resolve_cases h
  · rw [eval, eval, hroot x, M.shift_shift, hj, Int.add_comm]
  · rw [eval_shifted hu, ← hv _ r hr, eval, hroot x, M.shift_shift, hj, Int.add_comm]
  · rfl

/-- Solving an equation adds it to the bindings and keeps the others. -/
theorem solves_of_solve (al : s.Aliasing) (hx : al.root x = x) (hrx : ¬ s.Rigid x)
    (ht : ∀ y l, t = .var y l → al.root y = y ∧ ¬ s.Rigid y) (h : s.solve x k t = some s')
    (hv : M.Solves v s') : M.Solves v s ∧ M.eval v (.var x k) = M.eval v t := by
  obtain ⟨rfl, rfl⟩ | ⟨y, l, f, b, rfl, hxy, hf, hb, rfl⟩ | ⟨u, hu, -, hut, rfl⟩ :=
    Substitution.solve_eq_some h
  · exact ⟨hv, rfl⟩
  · obtain ⟨hy, hry⟩ := ht y l rfl
    refine ⟨solves_of_agree al (fun z t hz hzt ↦ ?_) hv, ?_⟩
    -- only bindings of representatives without values have changed
    · have hzx : z ≠ x := by
        rintro rfl
        exact hzt.elim (· hx) fun ht ↦ hrx ⟨t, hz, ht⟩
      have hzy : z ≠ y := by
        rintro rfl
        exact hzt.elim (· hy) fun ht ↦ hry ⟨t, hz, ht⟩
      rw [Substitution.get?_bind, if_neg hzy, Substitution.get?_bind, if_neg hzx, hz]
    · have hget : v x = M.shift (v y) f.toInt :=
        hv x (.var y f) (by simp [Substitution.get?_bind, hxy])
      rw [eval, eval, hget, M.shift_shift, hf, Int.sub_add_cancel]
  · refine ⟨solves_of_agree al (fun z t hz hzt ↦ ?_) hv, ?_⟩
    · have hzx : z ≠ x := by
        rintro rfl
        exact hzt.elim (· hx) fun ht ↦ hrx ⟨t, hz, ht⟩
      rw [Substitution.get?_bind, if_neg hzx, hz]
    · have hget : v x = M.eval v u := hv x u (by simp [Substitution.get?_bind])
      rw [eval, eval_shifted hut, hget]

/-! ### Unifiers are sound -/

theorem eval_eq_of_mem_zip {ts us : List Term} (hlen : ts.length = us.length)
    (h : ∀ e ∈ ts.zip us, M.eval v e.1 = M.eval v e.2) (g : String) :
    M.eval v (.app g ts) = M.eval v (.app g us) := by
  rw [eval, eval, evalArgs_eq_map, evalArgs_eq_map]
  refine congrArg _ (List.ext_getElem (by simpa using hlen) fun i hi hi' ↦ ?_)
  rw [List.getElem_map, List.getElem_map]
  have hi : i < (ts.zip us).length := by
    rw [List.length_zip, ← hlen, Nat.min_self]
    simpa using hi
  simpa using h _ (List.getElem_mem hi)

/-- Every solution of the bindings made by a unification satisfies the bindings before it and makes
the equations true. -/
theorem solves_of_unified {es : List (Term × Term)} (h : Unified es s s') (hs : Nonempty s.Aliasing)
    (hv : M.Solves v s') : M.Solves v s ∧ ∀ e ∈ es, M.eval v e.1 = M.eval v e.2 := by
  induction h with
  | nil => exact ⟨hv, fun e he ↦ nomatch he⟩
  | @solve a b c d t x k es s s₁ s' hcd hc hd hsolve _ ih =>
    obtain ⟨al⟩ := hs
    obtain ⟨hx, hrx⟩ := al.of_resolve_eq_var hc
    have ht : ∀ y l, t = .var y l → al.root y = y ∧ ¬ s.Rigid y :=
      fun y l ht ↦ al.of_resolve_eq_var (ht ▸ hd)
    obtain ⟨hs₁, hes⟩ := ih (al.solve hx hrx ht hsolve) hv
    obtain ⟨hvs, heq⟩ := solves_of_solve al hx hrx ht hsolve hs₁
    have hcd' : M.eval v c = M.eval v d := by
      rw [← eval_resolve al hvs hc, ← eval_resolve al hvs hd, heq]
    refine ⟨hvs, fun e he ↦ ?_⟩
    rcases List.mem_cons.1 he with rfl | he
    · obtain ⟨rfl, rfl⟩ | ⟨rfl, rfl⟩ := hcd
      · exact hcd'
      · exact hcd'.symm
    · exact hes e he
  | same ha hb _ ih =>
    obtain ⟨al⟩ := hs
    obtain ⟨hvs, hes⟩ := ih ⟨al⟩ hv
    refine ⟨hvs, fun e he ↦ ?_⟩
    rcases List.mem_cons.1 he with rfl | he
    · rw [← eval_resolve al hvs ha, ← eval_resolve al hvs hb]
    · exact hes e he
  | @args a b g ts us args es s s' ha hb hlen hargs _ ih =>
    obtain ⟨al⟩ := hs
    obtain ⟨hvs, hes⟩ := ih ⟨al⟩ hv
    refine ⟨hvs, fun e he ↦ ?_⟩
    rcases List.mem_cons.1 he with rfl | he
    · rw [← eval_resolve al hvs ha, ← eval_resolve al hvs hb]
      obtain rfl | rfl := hargs
      · exact eval_eq_of_mem_zip hlen (fun e he ↦ hes e (List.mem_append_left _ he)) g
      · exact (eval_eq_of_mem_zip hlen.symm (fun e he ↦ hes e (List.mem_append_left _ he)) g).symm
    · exact hes e (List.mem_append_right _ he)

/-- A unifier makes its two terms equal. -/
theorem eval_eq_of_mgu? {n : Nat} {a b : Term} (h : mgu? n a b = some (some s))
    (hv : M.Solves v s) : M.eval v a = M.eval v b :=
  (solves_of_unified (unified_of_mgu? h) ⟨.empty⟩ hv).2 (a, b) (List.mem_singleton_self _)

/-! ### Clauses -/

/-- A clause is true under every valuation, so it stays true when it is renamed. -/
theorem Satisfies.rename {c : Clause} (h : M.Satisfies c) (f : String → String) :
    M.Satisfies (c.rename f) := by
  intro v
  have hlit : ∀ t, M.Holds (M.eval v (t.rename f)) ↔ M.Holds (M.eval (fun x ↦ v (f x)) t) :=
    fun t ↦ by rw [eval_rename]
  exact (h fun x ↦ v (f x)).map (fun t ht ↦ ⟨_, SortedSet.mem_map.2 ⟨t, ht, rfl⟩, hlit t⟩)
    fun t ht ↦ ⟨_, SortedSet.mem_map.2 ⟨t, ht, rfl⟩, hlit t⟩

/-- The empty clause has no model, whatever the domain: there are valuations. -/
theorem not_satisfies_empty : ¬ M.Satisfies ∅ :=
  fun h ↦ Clause.not_holdsIn_empty (h fun _ ↦ M.int 0)

end Model

end OffsetLogic
