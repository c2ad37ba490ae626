import OffsetLogic.Proofs.Ground.Resolution
import OffsetLogic.Proofs.Unification.Complete

/-!
# Matching against ground terms

To unify a term with a ground one is to **match** it: every variable is bound to the ground term
that it has to stand for, at its first occurrence, and later occurrences are compared. Nothing is
lost at the limits of the integers, because `x + k = n` binds `x` to the only number that `k` takes
to `n`, if there is one. So a match is found exactly when there is one, it is the only one, and the
unifier lists it in the order of first occurrence, whichever of the two terms comes first
(`mgu?_of_isGround`).

The equations of a list are matched from left to right on top of bindings that are ground already.
What comes out is described by `Matches`: it is all that a later equation needs to know about the
earlier ones.

## What `Matches` says

It relates equations to the result of solving them, a success or a clash, by the values that agree
with both. Values that solve the equations and agree with the bindings before are those that agree
with the bindings after; for a clash there are none. So soundness, completeness and uniqueness are
one equivalence, and it composes: a list is matched by matching its first equation, and the others
on top of what that came to (`Matches.cons_some`, `Matches.cons_none`). The order of the names is a
second part, and that the bindings stay ground a third.

## Both orders at once

With the ground term first, the sides of all equations are exchanged, and the arguments of two
applications are equated from the other side. Rather than to appeal to symmetry, which holds up to
the order of the bindings only, both calls are followed through the same induction
(`MatchesWithin`), and give the same result, order included.

## The budget

The ground term becomes smaller with each descent into arguments, so a budget beyond its size is
enough, whatever the other term is. Bound variables are replaced by ground terms without using any
budget, as the walk from a bound variable ends at once (`Substitution.Ground.follow_eq`).
-/

namespace OffsetLogic

open Substitution

variable {n : Nat} {a g t u : Term} {s s' : Substitution} {x : String} {k : Int64}
variable {θ θ' : String → Term} {es : List (Term × Term)}

/-! ### Terms in which variables are replaced -/

theorem mapM_congr {α β ε : Type} {f f' : α → Except ε β} {l : List α} (h : ∀ a ∈ l, f a = f' a) :
    l.mapM f = l.mapM f' := by
  induction l with
  | nil => rfl
  | cons a l ih =>
    rw [List.mapM_cons, List.mapM_cons, h a List.mem_cons_self,
      ih fun b hb ↦ h b (List.mem_cons_of_mem a hb)]

/-- The results of a list are its items' results, place by place. -/
theorem mapM_eq_ok_iff_zip {α β ε : Type} {f : α → Except ε β} {l : List α} {bs : List β} :
    l.mapM f = .ok bs ↔ l.length = bs.length ∧ ∀ e ∈ l.zip bs, f e.1 = .ok e.2 := by
  induction l generalizing bs with
  | nil =>
    cases bs with
    | nil => exact iff_of_true rfl ⟨rfl, nofun⟩
    | cons b bs => exact iff_of_false (fun h ↦ nomatch Except.ok.inj h) nofun
  | cons a l ih =>
    rw [mapM_cons_eq_ok]
    cases bs with
    | nil => exact iff_of_false (fun ⟨_, _, _, _, h⟩ ↦ nomatch h) nofun
    | cons b bs =>
      rw [List.zip_cons_cons, List.forall_mem_cons, List.length_cons, List.length_cons,
        Nat.add_right_cancel_iff, and_left_comm, ← ih]
      constructor
      · rintro ⟨_, _, hb, hbs, heq⟩
        cases heq
        exact ⟨hb, hbs⟩
      · exact fun ⟨hb, hbs⟩ ↦ ⟨b, bs, hb, hbs, rfl⟩

namespace Term

/-- A shift neither makes nor removes variables. -/
theorem isGround_of_shifted (h : t.shifted k = some u) : t.isGround = u.isGround := by
  rw [isGround, isGround, occurrences_shifted h]

theorem isVariable_of_isGround (h : t.isGround = true) : t.isVariable = false := by
  cases t with
  | var => cases h
  | const | app => rfl

/-- What is put in the place of a variable depends on the term only where the variable occurs. -/
theorem bindM_congr {ε : Type} {f f' : String → Int64 → Except ε Term}
    (h : ∀ x ∈ t.occurrences, f x = f' x) : t.bindM f = t.bindM f' := by
  induction t with
  | const a => rfl
  | var x k => rw [bindM, bindM, h x (List.mem_singleton_self x)]
  | app g ts ih =>
    have hargs : ts.mapM (bindM f) = ts.mapM (bindM f') :=
      mapM_congr fun t ht ↦ ih t ht fun x hx ↦ h x (mem_occurrences_app.2 ⟨t, ht, hx⟩)
    rw [bindM, bindM, bindArgsM_eq_mapM, bindArgsM_eq_mapM, hargs]

/-- The instances of an application are applications of the same name to instances of its arguments.
-/
theorem substitute_app_eq_ok {f h : String} {ts us : List Term} :
    (app f ts).substitute θ = .ok (app h us) ↔
      f = h ∧ ts.length = us.length ∧ ∀ e ∈ ts.zip us, e.1.substitute θ = .ok e.2 := by
  rw [substitute, bindM_app_eq_ok]
  constructor
  · rintro ⟨us, hus, heq⟩
    cases heq
    exact ⟨rfl, mapM_eq_ok_iff_zip.1 hus⟩
  · rintro ⟨rfl, h⟩
    exact ⟨us, mapM_eq_ok_iff_zip.2 h, rfl⟩

end Term

/-- The values of the variables of a term are determined by its value in the free model. -/
theorem Model.eq_of_eval_free_eq {v w : String → Element} (h : free.eval v t = free.eval w t) :
    ∀ x ∈ t.occurrences, v x = w x := by
  induction t with
  | const a => exact fun x hx ↦ nomatch hx
  | var y k =>
    intro x hx
    rw [List.mem_singleton.1 hx]
    exact eq_of_shift_eq_shift (M := free) h
  | app f ts ih =>
    intro x hx
    obtain ⟨t, ht, hx⟩ := Term.mem_occurrences_app.1 hx
    rw [eval_free_app, eval_free_app] at h
    exact ih t ht (List.map_inj_left.1 (Element.app.inj h).2.1 t ht) x hx

/-- What was put in the places of the variables can be read off the instance. -/
theorem Term.substitute_unique (h : t.substitute θ = .ok u) (h' : t.substitute θ' = .ok u) :
    ∀ x ∈ t.occurrences, θ x = θ' x := by
  intro x hx
  have heval : Model.free.eval (fun x ↦ Model.free.eval (.var · 0) (θ x)) t =
      Model.free.eval (fun x ↦ Model.free.eval (.var · 0) (θ' x)) t :=
    (Model.substitute_eq_ok_iff.1 h).symm.trans (Model.substitute_eq_ok_iff.1 h')
  exact Model.free_injective (Model.eq_of_eval_free_eq heval x hx)

/-! ### Ground bindings -/

namespace Substitution

/-- Names are bound to ground terms only. -/
def Ground (s : Substitution) : Prop := ∀ x t, s.get? x = some t → t.isGround = true

/-- The values are those that names are bound to. -/
def Agrees (s : Substitution) (θ : String → Term) : Prop := ∀ x t, s.get? x = some t → θ x = t

/-- The bindings are listed in the order of the names. -/
theorem Agrees.bindings_eq (h : s.Agrees θ) : s.bindings = s.names.map fun x ↦ (x, θ x) := by
  rw [names, List.map_map]
  refine (List.map_id _).symm.trans (List.map_congr_left fun b hb ↦ ?_)
  rw [Function.comp_apply, h _ _ (get?_eq_some_iff_mem.2 hb)]
  rfl

theorem agrees_bind (hx : s.get? x = none) : (s.bind x t).Agrees θ ↔ s.Agrees θ ∧ θ x = t := by
  simp only [Agrees, get?_bind]
  refine ⟨fun h ↦ ⟨fun y u hy ↦ h y u ?_, h x t (if_pos rfl)⟩, fun ⟨h, hxt⟩ y u hy ↦ ?_⟩
  · rwa [if_neg]
    rintro rfl
    cases hx.symm.trans hy
  · split at hy
    · rename_i hyx
      rw [hyx, hxt, Option.some.inj hy]
    · exact h y u hy

namespace Ground

variable (hs : s.Ground)

theorem empty : (∅ : Substitution).Ground := fun _ _ h ↦ nomatch h

include hs

theorem bind (ht : t.isGround = true) : (s.bind x t).Ground := by
  intro y u hy
  rw [get?_bind] at hy
  split at hy
  · rwa [← Option.some.inj hy]
  · exact hs y u hy

/-- Some values agree with the bindings. -/
theorem exists_agrees : ∃ θ, s.Agrees θ ∧ ∀ x ∈ s.names, (θ x).isGround = true := by
  refine ⟨fun x ↦ (s.get? x).getD (.var x 0), fun x t hx ↦ ?_, fun x hx ↦ ?_⟩
  · exact congrArg (Option.getD · _) hx
  · obtain ⟨t, ht⟩ := mem_names_iff.1 hx
    show ((s.get? x).getD (.var x 0)).isGround = true
    rw [ht]
    exact hs x t ht

/-- The walk from a bound variable ends at once. -/
theorem follow_eq (hx : s.get? x = some t) : s.follow x k = .ok (.bound x t k) := by
  have htv := Term.isVariable_of_isGround (hs x t hx)
  rw [follow, followFrom]
  split
  · rename_i h
    cases h
  · split
    · rename_i h
      cases hx.symm.trans h
    · rename_i h
      cases hx.symm.trans h
      cases htv
    · rename_i h
      cases hx.symm.trans h
      rfl

end Ground

theorem resolve_of_isVariable (hu : u.isVariable = false) : s.resolve u = some u := by
  cases u with
  | var => cases hu
  | const | app => rfl

theorem resolve_of_get?_eq_none (hx : s.get? x = none) :
    s.resolve (.var x k) = some (.var x k) := by
  rw [resolve, follow_of_get?_eq_none hx]

/-- A bound variable resolves to its term, moved by the offset. -/
theorem Ground.resolve_of_get? (hs : s.Ground) (hx : s.get? x = some t) :
    s.resolve (.var x k) = t.shifted k := by
  rw [resolve, hs.follow_eq hx]

/-- An equation is solved by the term that the offset of the variable moves to the other side. -/
theorem solve_of_shifted (hg : g.isVariable = false) (h : t.shifted k = some g) :
    s.solve x k g = some (s.bind x t) := by
  -- a symbol or an application can only be moved by zero
  have hzero : t.shifted k = (if k = 0 then some t else none) → k = 0 ∧ t = g := by
    intro ht
    rw [h] at ht
    split at ht
    · rename_i hk
      exact ⟨hk, (Option.some.inj ht).symm⟩
    · cases ht
  cases t with
  | const a =>
    cases a with
    | int m =>
      obtain ⟨l, hl, rfl⟩ := Option.map_eq_some_iff.1 ((Term.shifted_int m k).symm.trans h)
      have hm : l.sub? k = some m :=
        Int64.sub?_eq_some_iff.2 (by have := Int64.add?_eq_some_iff.1 hl; omega)
      rw [solve, hm]
      rfl
    | symbol a =>
      obtain ⟨rfl, rfl⟩ := hzero rfl
      rfl
  | var y j =>
    cases (Term.isVariable_of_shifted h).symm.trans hg
  | app f ts =>
    obtain ⟨rfl, rfl⟩ := hzero rfl
    rfl

end Substitution

/-! ### What a list of equations comes to -/

/-- The names of a list with one more, if it is new. -/
def addName (names : List String) (x : String) : List String :=
  if x ∈ names then names else names ++ [x]

/-- What is added are the names that are not there yet, without repetition. -/
theorem foldl_addName (l names : List String) :
    l.foldl addName names = names ++ (l.filter (· ∉ names)).eraseDups := by
  induction l generalizing names with
  | nil => simp
  | cons x l ih =>
    rw [List.foldl_cons, ih, addName]
    by_cases hx : x ∈ names
    · rw [if_pos hx, List.filter_cons_of_neg (by simpa using hx)]
    · rw [if_neg hx, List.filter_cons_of_pos (by simpa using hx), List.eraseDups_cons,
        List.append_assoc, List.filter_filter]
      refine congrArg (fun l ↦ names ++ x :: l.eraseDups) (List.filter_congr fun y _ ↦ ?_)
      simp [beq_eq_decide, and_comm]

/-- The names that are left after duplicates are removed stand in the order of their first
occurrence. -/
theorem foldl_addName_nil (l : List String) : l.foldl addName [] = l.eraseDups := by
  rw [foldl_addName, List.nil_append, List.filter_eq_self.2 fun x _ ↦ by simp]

/-- What comes of equations with ground right sides on top of ground bindings: the values that solve
them and agree with the bindings before are those that agree with the bindings after, which are
ground, with the names in the order of first occurrence. -/
structure Matches (s : Substitution) (es : List (Term × Term)) (r : Option Substitution) :
    Prop where
  agrees_iff : ∀ θ, s.Agrees θ ∧ (∀ e ∈ es, e.1.substitute θ = .ok e.2) ↔
    ∃ s', r = some s' ∧ s'.Agrees θ
  ground : ∀ s', r = some s' → s'.Ground
  names : ∀ s', r = some s' →
    s'.names = (es.flatMap fun e ↦ e.1.occurrences).foldl addName s.names

namespace Matches

theorem nil (hs : s.Ground) : Matches s [] (some s) where
  agrees_iff θ := by simp
  ground s' h := Option.some.inj h ▸ hs
  names s' h := Option.some.inj h ▸ rfl

/-- When the first equation cannot be matched, the list cannot be. -/
theorem cons_none {e : Term × Term} (h : Matches s [e] none) : Matches s (e :: es) none where
  agrees_iff θ := by
    refine iff_of_false (fun ⟨hs, hes⟩ ↦ ?_) nofun
    obtain ⟨_, h, -⟩ := (h.agrees_iff θ).1 ⟨hs, by simpa using hes e List.mem_cons_self⟩
    cases h
  ground := nofun
  names := nofun

/-- Equations are matched on top of what those before them came to. -/
theorem cons_some {e : Term × Term} {r : Option Substitution} (h : Matches s [e] (some s'))
    (hes : Matches s' es r) : Matches s (e :: es) r where
  agrees_iff θ := by
    have hhead := h.agrees_iff θ
    simp only [List.forall_mem_singleton, Option.some.injEq, exists_eq_left'] at hhead
    rw [← hes.agrees_iff θ, ← hhead, List.forall_mem_cons, and_assoc]
  ground := hes.ground
  names s'' h'' := by
    rw [hes.names s'' h'', h.names s' rfl, List.flatMap_cons, List.flatMap_nil, List.append_nil,
      List.flatMap_cons, List.foldl_append]

/-- An equation that no values solve cannot be matched. -/
theorem of_forall_ne (h : ∀ θ, s.Agrees θ → a.substitute θ ≠ .ok g) : Matches s [(a, g)] none where
  agrees_iff θ := iff_of_false (fun ⟨hs, ha⟩ ↦ h θ hs (ha _ (List.mem_singleton_self _))) nofun
  ground := nofun
  names := nofun

/-- An equation that all values solve needs no binding. -/
theorem of_forall_eq (hs : s.Ground) (h : ∀ θ, s.Agrees θ → a.substitute θ = .ok g)
    (ha : ∀ x ∈ a.occurrences, x ∈ s.names) : Matches s [(a, g)] (some s) where
  agrees_iff θ := by simpa using h θ
  ground s' h := Option.some.inj h ▸ hs
  names s' hs' := by
    have hnames : ∀ l : List String, (∀ x ∈ l, x ∈ s.names) →
        l.foldl addName s.names = s.names := by
      intro l hl
      rw [foldl_addName, List.filter_eq_nil_iff.2 fun x hx ↦ by simpa using hl x hx]
      exact List.append_nil _
    rw [← Option.some.inj hs', List.flatMap_cons, List.flatMap_nil, List.append_nil, hnames _ ha]

/-- An equation between applications is matched by matching the arguments. -/
theorem app {f : String} {ts us : List Term} {r : Option Substitution}
    (hlen : ts.length = us.length) (h : Matches s (ts.zip us) r) :
    Matches s [(.app f ts, .app f us)] r where
  agrees_iff θ := by
    rw [← h.agrees_iff θ, List.forall_mem_singleton, Term.substitute_app_eq_ok]
    simp only [hlen, true_and]
  ground := h.ground
  names s' hs' := by
    have hocc : (ts.zip us).flatMap (fun e ↦ e.1.occurrences) = ts.flatMap Term.occurrences := by
      rw [← List.flatMap_map Prod.fst Term.occurrences, List.map_fst_zip hlen.le]
    rw [h.names s' hs', hocc, List.flatMap_cons, List.flatMap_nil, List.append_nil,
      Term.occurrences, Term.occurrencesArgs_eq_flatMap]

/-- A bound variable is compared with its term. -/
theorem of_bound (hs : s.Ground) (hx : s.get? x = some t) :
    Matches s [(.var x k, g)] (if t.shifted k = some g then some s else none) := by
  have hsub : ∀ θ, s.Agrees θ → ((Term.var x k).substitute θ = .ok g ↔ t.shifted k = some g) := by
    intro θ hθ
    rw [Term.substitute, Term.bindM, hθ x t hx, Term.shiftFor_eq_ok]
  split
  · rename_i h
    refine of_forall_eq hs (fun θ hθ ↦ (hsub θ hθ).2 h) fun y hy ↦ ?_
    rw [List.mem_singleton.1 hy]
    exact mem_names_of_get? hx
  · rename_i h
    exact of_forall_ne fun θ hθ ↦ mt (hsub θ hθ).1 h

/-- An unbound variable is solved for. -/
theorem of_unbound (hs : s.Ground) (hg : g.isGround = true) (hx : s.get? x = none) :
    Matches s [(.var x k, g)] (s.solve x k g) := by
  have hgv := Term.isVariable_of_isGround hg
  have hsolve : ∀ s', s.solve x k g = some s' ↔ ∃ t, t.shifted k = some g ∧ s' = s.bind x t := by
    intro s'
    constructor
    · intro h
      obtain ⟨hgx, -⟩ | ⟨y, l, -, -, hgy, -⟩ | ⟨t, -, -, ht, rfl⟩ := solve_eq_some h
      · rw [hgx] at hgv
        cases hgv
      · rw [hgy] at hgv
        cases hgv
      · exact ⟨t, ht, rfl⟩
    · rintro ⟨t, ht, rfl⟩
      exact solve_of_shifted hgv ht
  refine ⟨fun θ ↦ ?_, fun s' hs' ↦ ?_, fun s' hs' ↦ ?_⟩
  · rw [List.forall_mem_singleton, Term.substitute, Term.bindM, Term.shiftFor_eq_ok]
    constructor
    · rintro ⟨hθ, h⟩
      exact ⟨_, (hsolve _).2 ⟨_, h, rfl⟩, (agrees_bind hx).2 ⟨hθ, rfl⟩⟩
    · rintro ⟨s', hs', hθ⟩
      obtain ⟨t, ht, rfl⟩ := (hsolve s').1 hs'
      obtain ⟨hs, rfl⟩ := (agrees_bind hx).1 hθ
      exact ⟨hs, ht⟩
  · obtain ⟨t, ht, rfl⟩ := (hsolve s').1 hs'
    exact hs.bind ((Term.isGround_of_shifted ht).trans hg)
  · obtain ⟨t, ht, rfl⟩ := (hsolve s').1 hs'
    exact names_bind s x t

end Matches

/-! ### Unification with a ground term -/

/-- Within the budget, the equation of `a` and `g` is matched, whichever of the two comes first. -/
def MatchesWithin (n : Nat) (s : Substitution) (a g : Term) : Prop :=
  ∃ r, (unify n a g s).run = some r ∧ (unify n g a s).run = some r ∧ Matches s [(a, g)] r

/-- Equations that can each be matched can be matched together. -/
theorem exists_unifyAll_of_matchesWithin
    (step : ∀ e ∈ es, ∀ s, s.Ground → MatchesWithin n s e.1 e.2) (hs : s.Ground) :
    ∃ r, (unifyAll n es s).run = some r ∧ (unifyAll n (es.map Prod.swap) s).run = some r ∧
      Matches s es r := by
  induction es generalizing s with
  | nil => exact ⟨some s, rfl, rfl, .nil hs⟩
  | cons e es ih =>
    obtain ⟨r, hr, hr', hm⟩ := step e List.mem_cons_self s hs
    rw [List.map_cons, unifyAll, unifyAll, List.foldlM_cons, List.foldlM_cons, OptionT.run_bind,
      OptionT.run_bind, hr, Prod.fst_swap, Prod.snd_swap, hr']
    cases r with
    | none => exact ⟨none, rfl, rfl, hm.cons_none⟩
    | some s' =>
      obtain ⟨r, hr, hr', hes⟩ :=
        ih (fun e he ↦ step e (List.mem_cons_of_mem _ he)) (hm.ground s' rfl)
      exact ⟨r, hr, hr', hm.cons_some hes⟩

section

variable (hu : s.resolve (.var x k) = some u)

include hu

/-- A bound variable is unified like the term that it resolves to. -/
theorem unify_var_left (huv : u.isVariable = false) :
    unify (n + 1) (.var x k) g s = unify (n + 1) u g s := by
  rw [unify, unify, hu, resolve_of_isVariable huv]

/-- A bound variable on the right stands for the term that it resolves to on the left. -/
theorem unify_var_right (huv : u.isVariable = false) (hgv : g.isVariable = false) :
    unify (n + 1) g (.var x k) s = unify (n + 1) u g s := by
  rw [unify, unify, hu, resolve_of_isVariable huv, resolve_of_isVariable hgv]
  cases u with
  | var => cases huv
  | const v =>
    cases g with
    | var => cases hgv
    | const w => simp only [eq_comm]
    | app => rfl
  | app f ts =>
    cases g with
    | var => cases hgv
    | const => rfl
    | app h us =>
      simp only [eq_comm, Term.isVariable]
      rfl

end

namespace MatchesWithin

/-- Two constants are compared. -/
theorem const (hg : g.isGround = true) (hs : s.Ground) (v : Value) :
    MatchesWithin (n + 1) s (.const v) g := by
  cases g with
  | var => cases hg
  | const w =>
    refine ⟨if v = w then some s else none, ?_, ?_, ?_⟩
    · rw [unify_const_const]
      split <;> rfl
    · rw [unify_const_const, if_congr eq_comm rfl rfl]
      split <;> rfl
    · split
      · rename_i h
        exact .of_forall_eq hs (fun θ _ ↦ h ▸ rfl) fun x hx ↦ nomatch hx
      · rename_i h
        exact .of_forall_ne fun θ _ hθ ↦ h (Term.const.inj (Except.ok.inj hθ))
  | app h us => exact ⟨none, rfl, rfl, .of_forall_ne fun θ _ hθ ↦ nomatch Except.ok.inj hθ⟩

/-- A variable is solved for when it is unbound, and its term is compared otherwise. -/
theorem var (hg : g.isGround = true) (hn : sizeOf g < n + 1) (hs : s.Ground) (x : String)
    (k : Int64) : MatchesWithin (n + 1) s (.var x k) g := by
  have hgv := Term.isVariable_of_isGround hg
  cases hx : s.get? x with
  | none =>
    have hres := resolve_of_get?_eq_none (k := k) hx
    refine ⟨s.solve x k g, ?_, ?_, .of_unbound hs hg hx⟩
    · rw [unify, hres, resolve_of_isVariable hgv]
      rfl
    · rw [unify, hres, resolve_of_isVariable hgv]
      cases g with
      | var => cases hgv
      | const | app => rfl
  | some t =>
    have hres := hs.resolve_of_get? (k := k) hx
    have hm := Matches.of_bound (k := k) (g := g) hs hx
    cases hu : t.shifted k with
    | none =>
      rw [hu] at hres hm
      refine ⟨none, ?_, ?_, hm⟩
      · rw [unify, hres]
        rfl
      · rw [unify, hres, resolve_of_isVariable hgv]
        cases g <;> rfl
    | some u =>
      have hug := (Term.isGround_of_shifted hu).symm.trans (hs x t hx)
      have huv := Term.isVariable_of_isGround hug
      rw [hu] at hres hm
      simp only [Option.some.injEq] at hm
      refine ⟨_, ?_, ?_, hm⟩
      · rw [unify_var_left hres huv, unify_ground hug hg (by omega)]
      · rw [unify_var_right hres huv hgv, unify_ground hug hg (by omega)]

/-- Applications of one name and arity are matched argument by argument. -/
theorem app {f : String} {ts : List Term} (hg : g.isGround = true) (hs : s.Ground)
    (ih : ∀ t ∈ ts, ∀ u, u.isGround = true → sizeOf u < sizeOf g → ∀ s, s.Ground →
      MatchesWithin n s t u) : MatchesWithin (n + 1) s (.app f ts) g := by
  cases g with
  | var => cases hg
  | const v =>
    refine ⟨none, rfl, rfl, .of_forall_ne fun θ _ hθ ↦ ?_⟩
    obtain ⟨us, -, h⟩ := Term.bindM_app_eq_ok.1 hθ
    cases h
  | app h us =>
    rw [MatchesWithin, unify_app_app, unify_app_app]
    by_cases hfh : f = h ∧ ts.length = us.length
    · obtain ⟨rfl, hlen⟩ := hfh
      have step : ∀ e ∈ ts.zip us, ∀ s, s.Ground → MatchesWithin n s e.1 e.2 := by
        intro e he s hs
        obtain ⟨ht, hu⟩ := List.of_mem_zip he
        refine ih _ ht _ (Term.isGround_app_iff.1 hg _ hu) ?_ s hs
        rw [Term.app.sizeOf_spec]
        have := List.sizeOf_lt_of_mem hu
        omega
      obtain ⟨r, hr, hr', hm⟩ := exists_unifyAll_of_matchesWithin step hs
      rw [List.zip_swap] at hr'
      rw [if_pos ⟨rfl, hlen⟩, if_pos ⟨rfl, hlen.symm⟩]
      exact ⟨r, hr, hr', hm.app hlen⟩
    · have hhf : ¬ (h = f ∧ us.length = ts.length) := fun h ↦ hfh ⟨h.1.symm, h.2.symm⟩
      rw [if_neg hfh, if_neg hhf]
      refine ⟨none, rfl, rfl, .of_forall_ne fun θ _ hθ ↦ ?_⟩
      obtain ⟨hf, hlen, -⟩ := Term.substitute_app_eq_ok.1 hθ
      exact hfh ⟨hf, hlen⟩

/-- **Unification with a ground term is matching**, whichever of the two terms comes first. -/
theorem of_isGround (hg : g.isGround = true) (hn : sizeOf g < n) (hs : s.Ground) :
    MatchesWithin n s a g := by
  induction a generalizing g n s with
  | const v =>
    obtain ⟨n, rfl⟩ : ∃ m, n = m + 1 := ⟨n - 1, by omega⟩
    exact .const hg hs v
  | var x k =>
    obtain ⟨n, rfl⟩ : ∃ m, n = m + 1 := ⟨n - 1, by omega⟩
    exact .var hg hn hs x k
  | app f ts ih =>
    obtain ⟨n, rfl⟩ : ∃ m, n = m + 1 := ⟨n - 1, by omega⟩
    exact .app hg hs fun t ht u hu hun s hs ↦ ih t ht hu (by omega) hs

end MatchesWithin

/-! ### Applying ground bindings -/

namespace Substitution

/-- Where no variable is, nothing is replaced. -/
theorem applyAvoiding_of_isGround {expanding : List String} (ht : t.isGround = true) :
    s.applyAvoiding expanding t = .ok t := by
  have hnone : t.occurrences = [] := List.isEmpty_iff.1 ht
  rw [← apply_empty t, apply, applyAvoiding_eq_bindM, applyAvoiding_eq_bindM (s := ∅)]
  exact Term.bindM_congr fun x hx ↦ by rw [hnone] at hx; cases hx

/-- Ground bindings give every term over their names its instance. -/
theorem Ground.apply_eq (hs : s.Ground) (hθ : s.Agrees θ)
    (ha : ∀ x ∈ a.occurrences, x ∈ s.names) : s.apply a = a.substitute θ := by
  rw [apply, applyAvoiding_eq_bindM]
  refine Term.bindM_congr fun x hx ↦ funext fun k ↦ ?_
  obtain ⟨t, ht⟩ := mem_names_iff.1 (ha x hx)
  rw [hθ x t ht, applyAvoiding, Term.bindM]
  split
  · rename_i h
    cases h.symm.trans (hs.follow_eq ht)
  · rename_i h
    cases h.symm.trans (hs.follow_eq ht)
  · rename_i h
    cases h.symm.trans (hs.follow_eq ht)
    rw [dif_neg List.not_mem_nil, applyAvoiding_of_isGround (hs x t ht)]
    rfl

end Substitution

/-- **Matching against a ground term is exact.** To unify a term with a ground one, in either order,
ends within a budget beyond the size of the ground term, and it succeeds exactly when ground terms
can be put in the places of the variables, with their offsets, that give the ground term. These are
the only ones that do, and the unifier binds to them the variables of the term, in the order of
first occurrence, and nothing else. -/
theorem mgu?_of_isGround (hg : g.isGround = true) :
    ∃ r, (∀ n, sizeOf g < n → mgu? n a g = some r ∧ mgu? n g a = some r) ∧
      (r.isSome ↔
        ∃ θ, (∀ x ∈ a.occurrences, (θ x).isGround = true) ∧ a.substitute θ = .ok g) ∧
      ∀ θ, a.substitute θ = .ok g →
        (∀ θ', a.substitute θ' = .ok g → ∀ x ∈ a.occurrences, θ' x = θ x) ∧
        ∃ s, r = some s ∧ s.bindings = a.occurrences.eraseDups.map (fun x ↦ (x, θ x)) ∧
          s.apply a = .ok g := by
  obtain ⟨r, hr, hr', hm⟩ := MatchesWithin.of_isGround (a := a) hg (Nat.lt_succ_self _) .empty
  have hagrees : ∀ θ, a.substitute θ = .ok g ↔ ∃ s, r = some s ∧ s.Agrees θ := by
    intro θ
    rw [← hm.agrees_iff θ, List.forall_mem_singleton]
    exact (and_iff_right nofun).symm
  have hnames : ∀ s, r = some s → s.names = a.occurrences.eraseDups := by
    intro s hs
    rw [hm.names s hs, List.flatMap_cons, List.flatMap_nil, List.append_nil]
    exact foldl_addName_nil _
  have hmem : ∀ s, r = some s → ∀ x ∈ a.occurrences, x ∈ s.names := by
    intro s hs x hx
    rw [hnames s hs]
    exact List.mem_eraseDups.2 hx
  refine ⟨r, fun n hn ↦ ⟨unify_eq_some_of_le hn hr, unify_eq_some_of_le hn hr'⟩, ⟨fun h ↦ ?_, ?_⟩,
    fun θ hθ ↦ ⟨fun θ' hθ' ↦ Term.substitute_unique hθ' hθ, ?_⟩⟩
  · obtain ⟨s, rfl⟩ := Option.isSome_iff_exists.1 h
    obtain ⟨θ, hθ, hground⟩ := (hm.ground s rfl).exists_agrees
    exact ⟨θ, fun x hx ↦ hground x (hmem s rfl x hx), (hagrees θ).2 ⟨s, rfl, hθ⟩⟩
  · rintro ⟨θ, -, hθ⟩
    obtain ⟨s, rfl, -⟩ := (hagrees θ).1 hθ
    rfl
  · obtain ⟨s, rfl, hs⟩ := (hagrees θ).1 hθ
    refine ⟨s, rfl, ?_, ((hm.ground s rfl).apply_eq hs (hmem s rfl)).trans hθ⟩
    rw [hs.bindings_eq, hnames s rfl]

/-- The term `f(y - 1, g(x + 1, z), x, y)` is matched with `f(m, g(M, a), M - 1, m + 1)`, where `m`
is the least of the integers and `M` the greatest one. -/
theorem mgu?_of_isGround_limits :
    let a := Term.app "f" [.var "y" (-1), .app "g" [.var "x" 1, .var "z" 0], .var "x" 0, .var "y" 0]
    let g := Term.app "f" [.const (.int Int64.minValue),
      .app "g" [.const (.int Int64.maxValue), .const (.symbol "a")],
      .const (.int (Int64.maxValue - 1)), .const (.int (Int64.minValue + 1))]
    let θ : String → Term := fun x ↦
      if x = "x" then .const (.int (Int64.maxValue - 1))
      else if x = "y" then .const (.int (Int64.minValue + 1))
      else .const (.symbol "a")
    g.isGround = true ∧ a.substitute θ = .ok g ∧ ∃ s,
      (∀ n, sizeOf g < n → mgu? n a g = some (some s) ∧ mgu? n g a = some (some s)) ∧
      s.bindings = ["y", "x", "z"].map (fun x ↦ (x, θ x)) ∧ s.apply a = .ok g ∧
      ∀ θ', a.substitute θ' = .ok g → ∀ x ∈ ["y", "x", "z"], θ' x = θ x := by
  intro a g θ
  have hθ : a.substitute θ = .ok g := by decide +kernel
  obtain ⟨r, hr, -, hmatch⟩ := mgu?_of_isGround (a := a) (g := g) (by decide +kernel)
  obtain ⟨hunique, s, rfl, hs, happly⟩ := hmatch θ hθ
  have hnames : a.occurrences.eraseDups = ["y", "x", "z"] := by decide +kernel
  refine ⟨by decide +kernel, hθ, s, hr, hnames ▸ hs, happly, fun θ' hθ' x hx ↦ ?_⟩
  exact hunique θ' hθ' x (List.mem_eraseDups.1 (hnames ▸ hx))

end OffsetLogic
