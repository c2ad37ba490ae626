import Mathlib.Tactic.Ring
import OffsetLogic.Proofs.Semantics.Small

/-!
# Unification is complete

A common instance of two terms gives every name a value, and that is all that a unification needs in
order not to fail: whatever it compares has the same value on both sides, so there is no clash;
whatever it adds up is the distance between two values, so nothing overflows when the values are
small; and whenever it goes into the arguments of an application the common value becomes smaller,
so it ends, without an occurs check.

The values that an instance gives need not be small, but then there are others that are
(`Model.exists_within`). The unification does not depend on which values show that it succeeds, so
its bindings hold of the instance all the same (`solves_of_instance`).

## The values are a solution, kept

The invariant of a run is that some fixed values solve its bindings. At the beginning there are no
bindings. Each equation of the run is solved by the values, so each can be added to the bindings,
and the values solve the result, because functions are injective in the free model. So clash,
overflow and endless descent are all excluded by looking at the values, and the bindings themselves
are not looked at.

The budget is a depth, and the depth that is needed is bounded by the number of applications in the
value of the two sides. That value is a finite tree, while bindings alone would not bound anything:
without an instance there are equations on which the unification never ends.

## The bound

The numbers in small values are at most twice the magnitude of the terms for each window, so a
distance between two of them is at most twice that; this has to be a word. The hypothesis on the
magnitude says so, and it is all that is asked of the terms. The instance itself may have integers
at the very end of the range, as in the example, where the unification is nevertheless right.
-/

namespace OffsetLogic

open Substitution

/-! ### Instances -/

/-- The term with every occurrence `x + k` of every variable replaced by `θ x` moved by `k`; the
leftmost occurrence for which there is no such term is reported. -/
def Term.substitute (θ : String → Term) (t : Term) : Except ShiftError Term :=
  t.bindM fun x k ↦ shiftFor x k (θ x)

section

universe u

variable {θ : String → Term} {t u : Term} {k : Int64}

/-- The value of an instance is the value of the term at the values that the variables are
given. -/
theorem Model.eval_substitute {D : Type u} {M : Model D} (h : t.substitute θ = .ok u)
    (v : String → D) : M.eval v u = M.eval (fun x ↦ M.eval v (θ x)) t :=
  eval_of_bindM (fun _ _ _ _ hr ↦ eval_shifted (Term.shiftFor_eq_ok.1 hr) v) h

/-- A term that is where another one was moved is its shift. -/
theorem Model.shifted_of_eval_eq
    (h : free.eval (.var · 0) u = (free.eval (.var · 0) t).shift k.toInt) :
    t.shifted k = some u := by
  -- a symbol or an application can only have been moved by zero
  have hzero : 0 + k.toInt = 0 → t.shifted k = some u := by
    intro hk
    rw [Int.zero_add] at hk
    obtain rfl : k = 0 := Int64.toInt_inj.1 hk
    rw [hk, Element.shift_zero] at h
    rw [free_injective h, Term.shifted_zero]
  cases t with
  | const a =>
    cases a with
    | int n =>
      obtain ⟨m, rfl, hm⟩ := eq_int_of_eval_free h
      rw [Term.shifted_int, Int64.add?_eq_some_iff.2 hm]
      rfl
    | symbol a => exact hzero (eq_symbol_of_eval_free h).2
  | var x j =>
    obtain ⟨l, rfl, hl⟩ := eq_var_of_eval_free h
    rw [Int.zero_add] at hl
    rw [Term.shifted_var, Int64.add?_eq_some_iff.2 hl]
    rfl
  | app g ts =>
    rw [eval_free_app] at h
    obtain ⟨us, -, -, hk⟩ := eq_app_of_eval_free h
    exact hzero hk

/-- An instance is a matter of values: in words and in the free model the same terms are instances.
-/
theorem Model.substitute_eq_ok_iff : t.substitute θ = .ok u ↔
    free.eval (.var · 0) u = free.eval (fun x ↦ free.eval (.var · 0) (θ x)) t := by
  refine ⟨fun h ↦ eval_substitute h _, fun h ↦ ?_⟩
  induction t generalizing u with
  | const a =>
    have : free.eval (.var · 0) u = free.eval (.var · 0) (.const a) := by
      rw [h]
      cases a <;> rfl
    rw [free_injective this]
    rfl
  | var x k => exact Term.shiftFor_eq_ok.2 (shifted_of_eval_eq h)
  | app g ts ih =>
    rw [eval_free_app] at h
    obtain ⟨us, rfl, hargs, -⟩ := eq_app_of_eval_free h
    exact Term.bindM_app_eq_ok.2
      ⟨us, mapM_eq_ok_of_map_eq_map hargs fun t ht u hu ↦ ih t ht hu, rfl⟩

end

/-! ### Small values -/

namespace Element

variable {B : Nat} {d : Element} {i : Int}

/-- Of two places of one element of which nothing was moved, either both are integers or they are
the same place. -/
theorem Within.int_or_eq_zero (hd : d.Within B) (hi : (d.shift i).Within B) :
    (∃ n, d = .int n ∧ n.natAbs ≤ B ∧ (n + i).natAbs ≤ B) ∨ i = 0 := by
  generalize he : d.shift i = e at hi
  cases hd with
  | int hn =>
    cases hi with
    | int hm =>
      obtain rfl := Element.int.inj he
      exact .inl ⟨_, rfl, hn, hm⟩
    | symbol | app => cases he
  | symbol a =>
    cases hi with
    | int | app => cases he
    | symbol b =>
      obtain ⟨-, h⟩ := Element.symbol.inj he
      exact .inr (by omega)
  | app g hds =>
    cases hi with
    | int | symbol => cases he
    | app g' hds' =>
      obtain ⟨-, -, h⟩ := Element.app.inj he
      exact .inr (by omega)

/-- A distance between two small numbers is a word. -/
theorem exists_ofInt?_of_natAbs_le (hB : 2 * B < 2 ^ 63) (hi : i.natAbs ≤ 2 * B) :
    ∃ k, Int64.ofInt? i = some k := by
  rw [← Option.isSome_iff_exists, Option.isSome_iff_ne_none, Ne, Int64.ofInt?_eq_none_iff,
    show Int64.minValue.toInt = -2 ^ 63 from rfl, show Int64.maxValue.toInt = 2 ^ 63 - 1 from rfl]
  omega

/-- The distance between two places is a word. -/
theorem Within.exists_ofInt? (hB : 2 * B < 2 ^ 63) (hd : d.Within B) (hi : (d.shift i).Within B) :
    ∃ k, Int64.ofInt? i = some k := by
  refine exists_ofInt?_of_natAbs_le hB ?_
  obtain ⟨n, -, hn, hni⟩ | rfl := hd.int_or_eq_zero hi <;> omega

theorem Within.of_mem {g : String} {ds : List Element} (h : (Element.app g ds 0).Within B)
    (hd : d ∈ ds) : d.Within B := by
  cases h with
  | app g h => exact h d hd

end Element

namespace Model

variable {B : Nat} {v : String → Element} {s : Substitution} {x : String} {k : Int64} {t : Term}

/-! ### Nothing overflows -/

section

variable (hB : 2 * B < 2 ^ 63)

include hB

/-- A term of small value has the shift that takes it to a small value. -/
theorem exists_shifted (htv : t.isVariable = false) (ht : (free.eval v t).Within B)
    (hk : ((free.eval v t).shift k.toInt).Within B) : ∃ u, t.shifted k = some u := by
  obtain ⟨n, hn, -, hnk⟩ | hk := ht.int_or_eq_zero hk
  · cases t with
    | const a =>
      cases a with
      | int m =>
        obtain rfl := Element.int.inj hn
        obtain ⟨l, hl⟩ := Element.exists_ofInt?_of_natAbs_le hB (hnk.trans (by omega))
        exact ⟨.const (.int l), by rw [Term.shifted_int, Int64.add?, hl]; rfl⟩
      | symbol a => cases hn
    | var => cases htv
    | app => simp at hn
  · obtain rfl : k = 0 := Int64.toInt_inj.1 hk
    exact ⟨t, t.shifted_zero⟩

/-- The difference between two offsets that lead to one value is a word. -/
theorem exists_sub? {y : String} {j : Int64} (hx : (v x).Within B) (hy : (v y).Within B)
    (h : (v x).shift k.toInt = (v y).shift j.toInt) : ∃ f, j.sub? k = some f := by
  have hxy : v x = (v y).shift (j.toInt - k.toInt) := by
    refine eq_of_shift_eq_shift (M := free) (h.trans ?_)
    rw [shift_free, Element.shift_shift, Int.sub_add_cancel]
  exact hy.exists_ofInt? hB (hxy ▸ hx)

variable (hv : ∀ x, (v x).Within B)

include hv

/-- An equation between a variable and a term of one small value can be solved. -/
theorem exists_solve (ht : free.eval v (.var x k) = free.eval v t)
    (hxk : (free.eval v (.var x k)).Within B) : ∃ s', s.solve x k t = some s' := by
  rw [eval_free_var] at ht hxk
  unfold solve
  cases t with
  | var y l =>
    by_cases hxy : x = y
    · subst hxy
      have hkl : k = l := Int64.toInt_inj.1 ((v x).shift_injective ht)
      exact ⟨s, by simp [hkl]⟩
    · obtain ⟨f, hf⟩ := exists_sub? hB (hv x) (hv y) ht
      obtain ⟨b, hb⟩ := exists_sub? hB (hv y) (hv x) ht.symm
      exact ⟨(s.bind x (.var y f)).bind y (.var x b), by simp [hxy, hf, hb]⟩
  | const a =>
    obtain ⟨n, hn, hnB, -⟩ | hk := (hv x).int_or_eq_zero hxk
    · rw [hn, Element.shift] at ht
      cases a with
      | int l =>
        obtain ⟨m, hm⟩ := Element.exists_ofInt?_of_natAbs_le hB (hnB.trans (by omega))
        have hl : l.toInt - k.toInt = n := by
          rw [← Element.int.inj ht, Int.add_sub_cancel]
        exact ⟨s.bind x (.const (.int m)), by simp [Int64.sub?, hl, hm]⟩
      | symbol a => cases ht
    · obtain rfl : k = 0 := Int64.toInt_inj.1 hk
      exact ⟨s.bind x (.const a), by cases a <;> simp⟩
  | app g ts =>
    obtain ⟨n, hn, -⟩ | hk := (hv x).int_or_eq_zero hxk
    · rw [hn, eval_free_app] at ht
      cases ht
    · obtain rfl : k = 0 := Int64.toInt_inj.1 hk
      exact ⟨s.bind x (.app g ts), by simp⟩

variable (hs : free.Solves v s)

include hs

/-- Each sum on the way is the distance between two places of one small element, so none is out of
range. -/
theorem exists_followFrom {path : List (String × Int64)}
    (hx : (free.eval v (.var x k)).Within B) : ∃ e, s.followFrom path x k = .ok e := by
  fun_induction followFrom s path x k with
  | case1 | case2 | case5 => exact ⟨_, rfl⟩
  | case3 path x k _ y step hget j hj ih =>
    refine ih ?_
    rw [eval_free_var, hs x _ hget, eval_free_var, Element.shift_shift, Int.add_comm] at hx
    rwa [eval_free_var, Int64.add?_eq_some_iff.1 hj]
  | case4 path x k _ y step hget hj =>
    rw [eval_free_var, hs x _ hget, eval_free_var, Element.shift_shift, Int.add_comm] at hx
    obtain ⟨j, h⟩ := (hv y).exists_ofInt? hB hx
    cases hj.symm.trans h

/-- The walk from a variable of small value comes to an end. -/
theorem exists_follow (hx : (free.eval v (.var x k)).Within B) : ∃ e, s.follow x k = .ok e :=
  exists_followFrom hB hv hs hx

/-- A term of small value can be resolved. -/
theorem exists_resolve (al : s.Aliasing) (ht : (free.eval v t).Within B) :
    ∃ u, s.resolve t = some u := by
  cases t with
  | const | app => exact ⟨_, rfl⟩
  | var x k =>
    obtain ⟨e, he⟩ := exists_follow hB hv hs ht
    rw [Substitution.resolve, he]
    cases e with
    | free y j => exact ⟨_, rfl⟩
    | bound y u j =>
      obtain ⟨-, -, hget, hu⟩ := al.follow_bound he
      rw [eval_of_follow_bound al hs he] at ht
      exact exists_shifted hB hu (hs y u hget ▸ hv y) ht

end

/-! ### No clash, and an end -/

section

variable {n : Nat} {a b : Term} {es : List (Term × Term)}

/-- The unification of a list succeeds when each of its equations can be added to bindings that
have a solution. -/
theorem exists_unifyAll (step : ∀ (s : Substitution), Nonempty s.Aliasing → free.Solves v s →
      ∀ e ∈ es, ∃ s', (unify n e.1 e.2 s).run = some (some s'))
    (hes : ∀ e ∈ es, free.eval v e.1 = free.eval v e.2) (hal : Nonempty s.Aliasing)
    (hs : free.Solves v s) : ∃ s', (unifyAll n es s).run = some (some s') := by
  have hstep : ∀ e ∈ es, ∀ s : Substitution, Nonempty s.Aliasing ∧ free.Solves v s →
      ∃ s', (unify n e.1 e.2 s).run = some (some s') ∧
        Nonempty s'.Aliasing ∧ free.Solves v s' := by
    rintro e he s ⟨hal, hs⟩
    obtain ⟨s₁, h₁⟩ := step s hal hs e he
    have hunified : Unified [e] s s₁ := unified_cons_of_unify h₁ .nil
    exact ⟨s₁, h₁, hunified.aliasing hal, solves_free hunified hal hs (by simpa using hes e he)⟩
  obtain ⟨s', hs', -⟩ := exists_unifyAll_of_step hstep ⟨hal, hs⟩
  exact ⟨s', hs'⟩

theorem const_inj_of_eval {c c' : Value}
    (h : free.eval v (.const c) = free.eval v (.const c')) : c = c' := by
  cases c <;> cases c' <;> simp_all [Int64.toInt_inj]

/-- An equation between terms of one small value can be solved on top of bindings that have a
solution, within as much budget as there are applications in the value. -/
theorem exists_unify (hB : 2 * B < 2 ^ 63) (hv : ∀ x, (v x).Within B) (hal : Nonempty s.Aliasing)
    (hs : free.Solves v s) (hab : free.eval v a = free.eval v b) (ha : (free.eval v a).Within B)
    (hn : (free.eval v a).size < n) : ∃ s', (unify n a b s).run = some (some s') := by
  induction n generalizing a b s with
  | zero => omega
  | succ n ih =>
    -- the arguments have smaller values, so the budget that is left is enough for them
    have hargs : ∀ {g : String} {ts us : List Term},
        free.eval v (.app g ts) = free.eval v (.app g us) → (free.eval v (.app g ts)).Within B →
        (free.eval v (.app g ts)).size < n + 1 →
        ∃ s', (unifyAll n (ts.zip us) s).run = some (some s') := by
      intro g ts us htu hts hn
      have hzip := eval_eq_of_mem_zip_free htu
      refine exists_unifyAll (fun s hal hs e he ↦ ih hal hs (hzip e he) ?_ ?_) hzip hal hs
      · rw [eval_free_app] at hts
        exact hts.of_mem (List.mem_map_of_mem (List.of_mem_zip he).1)
      · exact (size_lt_size_app (List.of_mem_zip he).1).trans_le (Nat.le_of_lt_succ hn)
    obtain ⟨al⟩ := hal
    obtain ⟨t, ht⟩ := exists_resolve hB hv hs al ha
    obtain ⟨u, hu⟩ := exists_resolve hB hv hs al (hab ▸ ha)
    have hta := eval_resolve al hs ht
    have htu : free.eval v t = free.eval v u := by rw [hta, hab, eval_resolve al hs hu]
    rw [← hta] at ha hn
    have hsolve : ∀ {x : String} {k : Int64} {t : Term},
        free.eval v (.var x k) = free.eval v t → (free.eval v (.var x k)).Within B →
        ∃ s', some (s.solve x k t) = some (some s') := by
      intro x k t ht hxk
      obtain ⟨s', h⟩ := exists_solve (s := s) hB hv ht hxk
      exact ⟨s', congrArg some h⟩
    rw [unify, ht, hu]
    cases t with
    | var x k => exact hsolve htu ha
    | const c =>
      cases u with
      | var y l => exact hsolve htu.symm (htu ▸ ha)
      | const c' =>
        obtain rfl := const_inj_of_eval htu
        exact ⟨s, by simp⟩
      | app => cases c <;> simp at htu
    | app g ts =>
      cases u with
      | var y l => exact hsolve htu.symm (htu ▸ ha)
      | const c => cases c <;> simp at htu
      | app g' us =>
        obtain ⟨rfl, hmap⟩ : g = g' ∧ ts.map (free.eval v) = us.map (free.eval v) := by
          simpa using htu
        have hlen : ts.length = us.length := by simpa using congrArg List.length hmap
        dsimp only
        rw [if_pos ⟨rfl, hlen⟩]
        split
        · exact hargs htu.symm (htu ▸ ha) (htu ▸ hn)
        · exact hargs htu ha hn

end

end Model

/-! ### The unifier is most general -/

section

variable {a b u : Term} {θ : String → Term}

/-- Terms with a common instance have a common value in which no distance between two numbers
overflows. -/
theorem exists_within_of_instance (hm : max a.magnitude b.magnitude *
      (4 * (a.variableNames ∪ b.variableNames).size + 4) < 2 ^ 63)
    (ha : a.substitute θ = .ok u) (hb : b.substitute θ = .ok u) :
    ∃ B v, 2 * B < 2 ^ 63 ∧ (∀ x, (v x).Within B) ∧ (Model.free.eval v a).Within B ∧
      Model.free.eval v a = Model.free.eval v b := by
  obtain ⟨v, d, hv, hd, rfl, hvb⟩ := Model.exists_within (le_max_left _ _) (le_max_right _ _)
    (Model.eval_substitute ha _).symm (Model.eval_substitute hb _).symm
  refine ⟨_, v, lt_of_eq_of_lt ?_ hm, hv, hd, hvb.symm⟩
  ring

/-- A common instance solves the bindings of every unifier, since it solves the equation. -/
theorem solves_of_instance {n : Nat} {s : Substitution} (ha : a.substitute θ = .ok u)
    (hb : b.substitute θ = .ok u) (h : mgu? n a b = some (some s)) :
    Model.free.Solves (fun x ↦ Model.free.eval (.var · 0) (θ x)) s := by
  refine Model.solves_free (unified_of_mgu? h) ⟨.empty⟩ (fun x t hx ↦ nomatch hx) ?_
  intro e he
  obtain rfl := List.mem_singleton.1 he
  rw [← Model.eval_substitute ha, ← Model.eval_substitute hb]

/-- **Unification is complete, and unifiers are most general.** Suppose two terms have a common
instance, and the largest offset or integer in them, taken four times for every variable and four
times more, is a word. Then they have a unifier, it is found within some budget, and the instance
satisfies each of its bindings. The terms that the variables are replaced by are arbitrary: the
integers in them may be as large as words can be, and they need not be ground. -/
theorem exists_mgu?_of_instance (hm : max a.magnitude b.magnitude *
      (4 * (a.variableNames ∪ b.variableNames).size + 4) < 2 ^ 63)
    (ha : a.substitute θ = .ok u) (hb : b.substitute θ = .ok u) :
    ∃ n s, mgu? n a b = some (some s) ∧
      ∀ x t, s.get? x = some t → t.substitute θ = .ok (θ x) := by
  obtain ⟨B, v, hB, hv, hva, hab⟩ := exists_within_of_instance hm ha hb
  obtain ⟨s, hs⟩ := Model.exists_unify hB hv ⟨.empty⟩ (fun x t hx ↦ nomatch hx) hab hva
    (Nat.lt_succ_self _)
  exact ⟨_, s, hs, fun x t hx ↦
    Model.substitute_eq_ok_iff.2 (solves_of_instance ha hb hs x t hx)⟩

end

/-- The terms `f(x, y, g(y + 1))` and `f(y + 2, z - 1, g(z))` have an instance at the end of the
range of words. Their unifier has the bindings `x ↦ z + 1`, `y ↦ x - 2` and `z ↦ x - 1`, which make
the three variables an alias class, and the instance satisfies them. -/
theorem exists_mgu?_of_instance_maxValue :
    let a := Term.app "f" [.var "x" 0, .var "y" 0, .app "g" [.var "y" 1]]
    let b := Term.app "f" [.var "y" 2, .var "z" (-1), .app "g" [.var "z" 0]]
    let θ : String → Term := fun x ↦ .const (.int (if x = "x" then 9223372036854775807 else
      if x = "y" then 9223372036854775805 else 9223372036854775806))
    max a.magnitude b.magnitude * (4 * (a.variableNames ∪ b.variableNames).size + 4) < 2 ^ 63 ∧
      (∃ u, a.substitute θ = .ok u ∧ b.substitute θ = .ok u) ∧
      ∃ n s, mgu? n a b = some (some s) ∧
        s.bindings = [("x", .var "z" 1), ("y", .var "x" (-2)), ("z", .var "x" (-1))] ∧
        ∀ x t, s.get? x = some t → t.substitute θ = .ok (θ x) := by
  intro a b θ
  have hm : max a.magnitude b.magnitude *
      (4 * (a.variableNames ∪ b.variableNames).size + 4) < 2 ^ 63 := by decide +kernel
  have ha : a.substitute θ = .ok (.app "f" [.const (.int 9223372036854775807),
    .const (.int 9223372036854775805), .app "g" [.const (.int 9223372036854775806)]]) := by
    decide +kernel
  have hb : b.substitute θ = .ok (.app "f" [.const (.int 9223372036854775807),
    .const (.int 9223372036854775805), .app "g" [.const (.int 9223372036854775806)]]) := by
    decide +kernel
  have hrun : (mgu? 4 a b).map (Option.map Substitution.bindings) =
      some (some [("x", .var "z" 1), ("y", .var "x" (-2)), ("z", .var "x" (-1))]) := by
    decide +kernel
  obtain ⟨n, s, h, hs⟩ := exists_mgu?_of_instance hm ha hb
  obtain ⟨s?, h', hs?⟩ := Option.map_eq_some_iff.1 hrun
  obtain rfl := unify_unique h h'
  exact ⟨hm, ⟨_, ha, hb⟩, n, s, h, Option.some.inj hs?, hs⟩

end OffsetLogic
