import OffsetLogic.Proofs.Semantics.Acyclic

/-!
# The free model

Terms are finite trees, and the free model keeps them so: its elements are trees over **unbounded**
integers, in which everything but an integer records the offset by which it was moved. Nothing is
identified there that need not be. Three facts follow, and none of them holds in every model.

* A term is determined by its value when variables stand for themselves (`Model.free_injective`). So
  what a unifier makes equal in all models it makes equal as terms.
* Functions are injective, so unification loses no solution: whatever solves the equations solves
  the bindings that are made for them (`Model.solves_free`).
* Elements are finite, so bindings that have a solution are acyclic (`Model.acyclic_of_solves`).

## Why the integers are unbounded

Words would make shifting partial: some elements could not be moved, and a model asks for an action
of all integers. With unbounded integers every element can be moved by every offset, and a term that
has a shift in words has it here with the same value. That sums of words stay words is a matter of
the unification at hand, which does not go on when they do not, and no matter of the model.

## Two directions

That unifiers are sound is a statement about all models: a solution of the bindings solves the
equations. The converse, that a solution of the equations solves the bindings, fails in a model in
which a function takes one value at two arguments. Both directions hold in the free model, so there
the bindings are **equivalent** to the equations, and what is proved here about terms is proved by
going to values and coming back.
-/

namespace OffsetLogic

open Substitution

/-- A tree over the integers; a symbol, a variable and an application carry the offset by which they
were moved. -/
inductive Element where
  /-- An integer. -/
  | int (n : Int)
  /-- A symbol, moved by `k`. -/
  | symbol (a : String) (k : Int)
  /-- A variable, moved by `k`. -/
  | var (x : String) (k : Int)
  /-- An application, moved by `k`. -/
  | app (g : String) (ds : List Element) (k : Int)

namespace Element

/-- The element moved by an integer. -/
def shift : Element → Int → Element
  | int n, k => int (n + k)
  | symbol a j, k => symbol a (j + k)
  | var x j, k => var x (j + k)
  | app g ds j, k => app g ds (j + k)

theorem shift_zero (d : Element) : d.shift 0 = d := by
  cases d <;> simp [shift]

theorem shift_shift (d : Element) (j k : Int) : (d.shift j).shift k = d.shift (j + k) := by
  cases d <;> simp [shift, Int.add_assoc]

/-- An element is at different places after different shifts. -/
theorem shift_injective (d : Element) : Function.Injective d.shift := by
  intro j k h
  cases d <;> simpa [shift] using h

end Element

namespace Model

/-- The model of finite trees. Only the values matter, so nothing is called true. -/
def free : Model Element where
  shift := Element.shift
  shift_zero := Element.shift_zero
  shift_shift := Element.shift_shift
  int := .int
  shift_int _ _ := rfl
  symbol a := .symbol a 0
  app g ds := .app g ds 0
  Holds _ := False

variable {v : String → Element} {s s' : Substitution} {x y : String} {k : Int64} {t u : Term}

@[simp] theorem shift_free (d : Element) (k : Int) : free.shift d k = d.shift k := rfl

@[simp] theorem eval_free_int (n : Int64) : free.eval v (.const (.int n)) = .int n.toInt := rfl

/-- A symbol stands for itself, not moved. -/
@[simp] theorem eval_free_symbol (a : String) :
    free.eval v (.const (.symbol a)) = .symbol a 0 := rfl

@[simp] theorem eval_free_var (x : String) (k : Int64) :
    free.eval v (.var x k) = (v x).shift k.toInt := rfl

/-- An application stands for the tree of its arguments, not moved. -/
@[simp] theorem eval_free_app (g : String) (ts : List Term) :
    free.eval v (.app g ts) = .app g (ts.map (free.eval v)) 0 := by
  rw [eval, evalArgs_eq_map]
  rfl

/-! ### Terms are determined by their values -/

/-- A map that is injective at the members of a list is injective at the list. -/
theorem eq_of_map_eq_map {α β : Type} {f : α → β} {l l' : List α} (h : l.map f = l'.map f)
    (hf : ∀ a ∈ l, ∀ b, f a = f b → a = b) : l = l' := by
  induction l generalizing l' with
  | nil => exact (List.map_eq_nil_iff.1 h.symm).symm
  | cons a l ih =>
    obtain ⟨b, l', rfl, hab, hl⟩ := List.map_eq_cons_iff.1 h.symm
    rw [hf a List.mem_cons_self b hab.symm,
      ih hl.symm fun c hc ↦ hf c (List.mem_cons_of_mem a hc)]

/-- Only an integer has the value of one. -/
theorem eq_int_of_eval_free {n : Int} (h : free.eval (.var · 0) u = .int n) :
    ∃ m, u = .const (.int m) ∧ m.toInt = n := by
  cases u with
  | const a =>
    cases a with
    | int m => exact ⟨m, rfl, Element.int.inj h⟩
    | symbol a => cases h
  | var | app => simp [Element.shift] at h

/-- Only a symbol has the value of one. -/
theorem eq_symbol_of_eval_free {a : String} {n : Int}
    (h : free.eval (.var · 0) u = .symbol a n) : u = .const (.symbol a) ∧ n = 0 := by
  cases u with
  | const b =>
    cases b with
    | int m => cases h
    | symbol b =>
      obtain ⟨rfl, rfl⟩ := Element.symbol.inj h
      exact ⟨rfl, rfl⟩
  | var | app => simp [Element.shift] at h

/-- Only a variable has the value of one, and its offset can be read off. -/
theorem eq_var_of_eval_free {n : Int} (h : free.eval (.var · 0) u = .var x n) :
    ∃ l, u = .var x l ∧ l.toInt = n := by
  cases u with
  | const b => cases b <;> cases h
  | var y l =>
    obtain ⟨rfl, hl⟩ := Element.var.inj h
    exact ⟨l, rfl, (Int.zero_add _).symm.trans hl⟩
  | app => simp at h

/-- Only an application has the value of one; its arguments have the parts as their values. -/
theorem eq_app_of_eval_free {g : String} {ds : List Element} {n : Int}
    (h : free.eval (.var · 0) u = .app g ds n) :
    ∃ us, u = .app g us ∧ us.map (free.eval (.var · 0)) = ds ∧ n = 0 := by
  cases u with
  | const b => cases b <;> cases h
  | var y l => simp [Element.shift] at h
  | app g us =>
    rw [eval_free_app] at h
    obtain ⟨rfl, hus, rfl⟩ := Element.app.inj h
    exact ⟨us, rfl, hus, rfl⟩

/-- When variables stand for themselves, different terms have different values. -/
theorem free_injective : Function.Injective (free.eval (.var · 0)) := by
  intro t
  induction t with
  | const a =>
    intro u h
    cases a with
    | int n =>
      obtain ⟨m, rfl, hm⟩ := eq_int_of_eval_free h.symm
      rw [Int64.toInt_inj.1 hm]
    | symbol a => exact (eq_symbol_of_eval_free h.symm).1.symm
  | var x k =>
    intro u h
    obtain ⟨l, rfl, hl⟩ := eq_var_of_eval_free h.symm
    rw [Int.zero_add] at hl
    rw [Int64.toInt_inj.1 hl]
  | app g ts ih =>
    intro u h
    rw [eval_free_app] at h
    obtain ⟨us, rfl, hus, -⟩ := eq_app_of_eval_free h.symm
    rw [eq_of_map_eq_map hus.symm fun t ht _ htu ↦ ih t ht htu]

/-- Images of two terms that are equal in every solution of the bindings are the same term. -/
theorem apply_unique {a b : Term} (hs : s.Acyclic) (al : s.Aliasing)
    (hab : ∀ w, free.Solves w s → free.eval w a = free.eval w b) (ha : s.apply a = .ok t)
    (hb : s.apply b = .ok u) : t = u := by
  obtain ⟨w, hw, hwv⟩ := exists_solves (M := free) hs al (.var · 0)
  refine free_injective ?_
  calc free.eval (.var · 0) t
      = free.eval w a := eval_apply hs al hw hwv ha
    _ = free.eval w b := hab w hw
    _ = free.eval (.var · 0) u := (eval_apply hs al hw hwv hb).symm

/-! ### Unification loses no solution -/

/-- A solution of an equation solves the bindings that are made for it. -/
theorem Solves.solve {D : Type} {M : Model D} {v : String → D} (hv : M.Solves v s)
    (heq : M.eval v (.var x k) = M.eval v t) (h : s.solve x k t = some s') : M.Solves v s' := by
  obtain ⟨-, rfl⟩ | ⟨y, l, f, b, rfl, -, hf, hb, rfl⟩ | ⟨u, -, -, hut, rfl⟩ := solve_eq_some h
  · exact hv
  · have hxy : v x = M.shift (v y) f.toInt := by
      refine eq_of_shift_eq_shift (j := k.toInt) (heq.trans ?_)
      rw [M.shift_shift, hf, Int.sub_add_cancel]
      rfl
    have hyx : v y = M.shift (v x) b.toInt := by
      have hzero : f.toInt + b.toInt = 0 := by omega
      rw [hxy, M.shift_shift, hzero, M.shift_zero]
    exact (hv.bind hxy).bind hyx
  · rw [eval_shifted hut] at heq
    exact hv.bind (eq_of_shift_eq_shift heq)

/-- Equal applications have equal arguments. -/
theorem eval_eq_of_mem_zip_free {g : String} {ts us : List Term}
    (h : free.eval v (.app g ts) = free.eval v (.app g us)) :
    ∀ e ∈ ts.zip us, free.eval v e.1 = free.eval v e.2 := by
  rw [eval_free_app, eval_free_app] at h
  obtain ⟨-, hargs, -⟩ := Element.app.inj h
  exact eq_of_mem_zip hargs

/-- Whatever solves the bindings at hand and the equations solves the bindings that a unification
makes for them. -/
theorem solves_free {es : List (Term × Term)} (h : Unified es s s') (hs : Nonempty s.Aliasing)
    (hv : free.Solves v s) (hes : ∀ e ∈ es, free.eval v e.1 = free.eval v e.2) :
    free.Solves v s' := by
  induction h with
  | nil => exact hv
  | @solve a b c d t x k es s s₁ s' hcd hc hd hsolve _ ih =>
    obtain ⟨al⟩ := hs
    obtain ⟨hx, hrx⟩ := al.of_resolve_eq_var hc
    have hab := hes (a, b) List.mem_cons_self
    have hcd' : free.eval v c = free.eval v d := by
      obtain ⟨rfl, rfl⟩ | ⟨rfl, rfl⟩ := hcd
      · exact hab
      · exact hab.symm
    refine ih (al.solve hx hrx (fun y l ht ↦ al.of_resolve_eq_var (ht ▸ hd)) hsolve)
      (hv.solve ?_ hsolve) fun e he ↦ hes e (List.mem_cons_of_mem _ he)
    rw [eval_resolve al hv hc, eval_resolve al hv hd, hcd']
  | same _ _ _ ih => exact ih hs hv fun e he ↦ hes e (List.mem_cons_of_mem _ he)
  | @args a b g ts us args es s s' ha hb hlen hargs _ ih =>
    obtain ⟨al⟩ := hs
    have hab := hes (a, b) List.mem_cons_self
    dsimp only at hab
    rw [← eval_resolve al hv ha, ← eval_resolve al hv hb] at hab
    refine ih ⟨al⟩ hv fun e he ↦ (List.mem_append.1 he).elim (fun he ↦ ?_) fun he ↦
      hes e (List.mem_cons_of_mem _ he)
    obtain rfl | rfl := hargs
    · exact eval_eq_of_mem_zip_free hab e he
    · exact eval_eq_of_mem_zip_free hab.symm e he

/-! ### Bindings with a solution are acyclic -/

end Model

namespace Element

mutual

/-- The number of applications in an element. -/
def size : Element → Nat
  | int _ | symbol .. | var .. => 0
  | app _ ds _ => sizeArgs ds + 1

/-- The number of applications in an argument list. -/
def sizeArgs : List Element → Nat
  | [] => 0
  | d :: ds => d.size + sizeArgs ds

end

@[simp] theorem size_shift (d : Element) (k : Int) : (d.shift k).size = d.size := by
  cases d <;> simp [shift, size]

theorem size_le_sizeArgs {d : Element} {ds : List Element} (hd : d ∈ ds) :
    d.size ≤ sizeArgs ds := by
  induction ds with
  | nil => cases hd
  | cons e ds ih =>
    rw [sizeArgs]
    rcases List.mem_cons.1 hd with rfl | hd
    · omega
    · have := ih hd
      omega

end Element

namespace Model

/-- The value of an argument is smaller than that of the application. -/
theorem size_lt_size_app {v : String → Element} {g : String} {ts : List Term} {t : Term}
    (ht : t ∈ ts) : (free.eval v t).size < (free.eval v (.app g ts)).size := by
  rw [eval_free_app, Element.size]
  exact Nat.lt_succ_of_le (Element.size_le_sizeArgs (List.mem_map_of_mem ht))

/-- The value of a variable is part of that of a term in which it occurs. -/
theorem size_le_of_mem_occurrences {v : String → Element} {t : Term} {x : String}
    (hx : x ∈ t.occurrences) : (v x).size ≤ (free.eval v t).size := by
  induction t with
  | const a => cases hx
  | var y k => rw [List.mem_singleton.1 hx, eval_free_var, Element.size_shift]
  | app g ts ih =>
    obtain ⟨t, ht, hx⟩ := Term.mem_occurrences_app.1 hx
    exact (ih t ht hx).trans (size_lt_size_app ht).le

/-- A variable inside of an application has a smaller value, wherever it occurs. -/
theorem size_lt_of_mem_occurrences {v : String → Element} {g : String} {ts : List Term}
    {x : String} (hx : x ∈ (Term.app g ts).occurrences) :
    (v x).size < (free.eval v (.app g ts)).size := by
  obtain ⟨t, ht, hx⟩ := Term.mem_occurrences_app.1 hx
  exact (size_le_of_mem_occurrences hx).trans_lt (size_lt_size_app ht)

/-- Names of one class have values that differ by a shift. -/
theorem Solves.size_eq_of_alias {v : String → Element} {s : Substitution} {x y : String}
    (hv : free.Solves v s) (h : s.Alias x y) : (v x).size = (v y).size := by
  induction h with
  | rel x y hxy =>
    obtain ⟨k, hxy⟩ := hxy
    rw [hv x _ hxy, eval_free_var, Element.size_shift]
  | refl x => rfl
  | symm x y _ ih => exact ih.symm
  | trans x y z _ _ ihxy ihyz => exact ihxy.trans ihyz

/-- Bindings that have a solution in finite trees are acyclic. -/
theorem acyclic_of_solves {v : String → Element} {s : Substitution} (hv : free.Solves v s) :
    s.Acyclic := by
  have hlead : ∀ {x y}, s.LeadsTo x y → (v y).size < (v x).size := by
    rintro x y ⟨x', y', g, ts, hx, hget, hy', hy⟩
    rw [hv.size_eq_of_alias hx, ← hv.size_eq_of_alias hy, hv x' _ hget]
    exact size_lt_of_mem_occurrences hy'
  have htrans : ∀ {x y}, Relation.TransGen s.LeadsTo x y → (v y).size < (v x).size := by
    intro x y h
    induction h with
    | single h => exact hlead h
    | tail _ h ih => exact (hlead h).trans ih
  exact fun x hx ↦ Nat.lt_irrefl _ (htrans hx)

end Model

/-! ### Unifiers make terms equal -/

variable {n : Nat} {es : List (Term × Term)} {s : Substitution}

theorem unified_of_unifyAll (h : (unifyAll n es ∅).run = some (some s)) : Unified es ∅ s := by
  have := unified_append_of_foldlM (fun _ _ _ _ _ _ ↦ unified_cons_of_unify) h .nil
  rwa [List.append_nil] at this

/-- **Unification is sound.** When the equations of a list were solved one after another from no
bindings, and the bindings made are acyclic, they make both sides of every equation the same term,
wherever they can be applied. -/
theorem apply_eq_of_unifyAll (h : (unifyAll n es ∅).run = some (some s)) (hs : s.Acyclic)
    {a b t u : Term} (he : (a, b) ∈ es) (ha : s.apply a = .ok t) (hb : s.apply b = .ok u) :
    t = u := by
  have hes := unified_of_unifyAll h
  obtain ⟨al⟩ := hes.aliasing ⟨.empty⟩
  exact Model.apply_unique hs al (fun w hw ↦ (Model.solves_of_unified hes ⟨.empty⟩ hw).2 _ he) ha hb

/-- The equations `x + 1 = y`, `y = z + 2`, `f(w, x) = f(g(z), u)` and `u = 3`, of which the last
three overwrite bindings of variables to variables, make both sides of the third one
`f(g(2), 3)`. -/
theorem apply_eq_overwritten : ∃ s t u,
    (unifyAll 3 [(.var "x" 1, .var "y" 0), (.var "y" 0, .var "z" 2),
      (.app "f" [.var "w" 0, .var "x" 0], .app "f" [.app "g" [.var "z" 0], .var "u" 0]),
      (.var "u" 0, .const (.int 3))] ∅).run = some (some s) ∧ s.Acyclic ∧
    s.apply (.app "f" [.var "w" 0, .var "x" 0]) = .ok t ∧
    s.apply (.app "f" [.app "g" [.var "z" 0], .var "u" 0]) = .ok u ∧ t = u ∧
    t = .app "f" [.app "g" [.const (.int 2)], .const (.int 3)] := by
  have hrun : (unifyAll 3 [(.var "x" 1, .var "y" 0), (.var "y" 0, .var "z" 2),
      (.app "f" [.var "w" 0, .var "x" 0], .app "f" [.app "g" [.var "z" 0], .var "u" 0]),
      (.var "u" 0, .const (.int 3))] ∅).run.map (Option.map fun s ↦
        (s.apply (.app "f" [.var "w" 0, .var "x" 0]),
          s.apply (.app "f" [.app "g" [.var "z" 0], .var "u" 0]))) =
      some (some (.ok (.app "f" [.app "g" [.const (.int 2)], .const (.int 3)]),
        .ok (.app "f" [.app "g" [.const (.int 2)], .const (.int 3)]))) := by decide +kernel
  obtain ⟨s?, h, hs?⟩ := Option.map_eq_some_iff.1 hrun
  obtain ⟨s, rfl, himages⟩ := Option.map_eq_some_iff.1 hs?
  obtain ⟨ha, hb⟩ := Prod.mk.inj himages
  -- a solution in the free model shows that the bindings are acyclic
  have hsolves : Model.free.Solves (fun x ↦ if x = "w" then .app "g" [.int 2] 0 else
      if x = "x" ∨ x = "u" then .int 3 else if x = "y" then .int 4 else .int 2) s := by
    refine Model.solves_free (unified_of_unifyAll h) ⟨.empty⟩ (fun x t hx ↦ nomatch hx) ?_
    simp [Element.shift]
  have hs : s.Acyclic := Model.acyclic_of_solves hsolves
  exact ⟨s, _, _, h, hs, ha, hb, apply_eq_of_unifyAll h hs (by simp) ha hb, rfl⟩

end OffsetLogic
