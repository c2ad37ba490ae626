import OffsetLogic.Proofs.Semantics.Soundness
import OffsetLogic.Proofs.Unification.Complete

/-!
# Where a unifier can be applied

An offset is accepted while its variable is only known to be an alias of another one, and nobody
looks back when that class is given a symbol or an application later on. So a unifier, even an
acyclic one, can have no image of the terms that it was made for: `f(x, A)` and `f(u + 1, u)` have a
unifier, which makes `u` the symbol `A` and leaves `x` at `u + 1`. In the other order, `f(A, x)` and
`f(u, u + 1)`, the terms clash.

Terms that do have a common instance are safe. The bindings then have a solution in small values, so
that every offset met on the way can be absorbed (`Model.exists_applyAvoiding`); the images of both
terms are the same, and the common instance is an instance of them.

## Three ways to fail, and one hypothesis

An application can fail because a sum of offsets is out of range, because an offset meets a symbol
or an application, or because an integer is moved out of range. A solution in small values excludes
all three at once: whatever is met has a small value, an element of which nothing was moved can be
moved only if it is an integer, and then the result is small as well. So one induction over the
application suffices, and no case is made of how the bindings came about.

The instance of the hypothesis replaces variables by any terms. That it is an instance of the common
image, and not only of the two terms, is the sense in which the image is most general.

The two terms above have no such instance: no term can be put for `u` that is the symbol `A` and has
a successor. It is in this case that solving the equations and applying the solution come apart.
-/

namespace OffsetLogic

open Substitution

namespace Model

variable {B : Nat} {v : String → Element} {s : Substitution} {t : Term}

/-- A term of small value can be rebuilt when every occurrence of a variable with a small value can
be replaced. -/
theorem exists_bindM {ε : Type} {f : String → Int64 → Except ε Term}
    (hf : ∀ x k, (free.eval v (.var x k)).Within B → ∃ r, f x k = .ok r)
    (ht : (free.eval v t).Within B) : ∃ u, t.bindM f = .ok u := by
  induction t with
  | const a => exact ⟨.const a, rfl⟩
  | var x k => exact hf x k ht
  | app g ts ih =>
    rw [eval_free_app] at ht
    obtain ⟨us, hus⟩ := exists_mapM_eq_ok fun t hmem ↦
      ih t hmem (ht.of_mem (List.mem_map_of_mem hmem))
    exact ⟨.app g us, Term.bindM_app_eq_ok.2 ⟨us, hus, rfl⟩⟩

/-- Bindings with a small solution can be applied to every term that has a small value in it. -/
theorem exists_applyAvoiding (hB : 2 * B < 2 ^ 63) (hv : ∀ x, (v x).Within B) (al : s.Aliasing)
    (hs : free.Solves v s) {expanding : List String} {t : Term} (ht : (free.eval v t).Within B) :
    ∃ u, s.applyAvoiding expanding t = .ok u := by
  rw [applyAvoiding_eq_bindM]
  refine exists_bindM (fun x k hxk ↦ ?_) ht
  obtain ⟨e, he⟩ := exists_follow hB hv hs hxk
  cases e with
  | free y j => exact ⟨_, applyAvoiding_var_eq_ok.2 (.inl ⟨y, j, he, rfl⟩)⟩
  | bound y t j =>
    obtain ⟨-, -, hget, htv⟩ := al.follow_bound he
    by_cases hmem : y ∈ expanding
    · exact ⟨_, applyAvoiding_var_eq_ok.2 (.inr ⟨y, t, j, he, .inl ⟨hmem, rfl⟩⟩)⟩
    · have ht : (free.eval v t).Within B := hs y t hget ▸ hv y
      obtain ⟨r, hr⟩ : ∃ r, s.applyAvoiding (y :: expanding) t = .ok r :=
        exists_applyAvoiding hB hv al hs ht
      rw [eval_of_follow_bound al hs he] at hxk
      have hshift : ∃ u, r.shifted j = some u := by
        cases t with
        | const a =>
          rw [applyAvoiding_const] at hr
          cases hr
          exact exists_shifted hB htv ht hxk
        | var => cases htv
        | app g ts =>
          -- the value of an application is not moved
          obtain ⟨n, hn, -⟩ | hj := ht.int_or_eq_zero hxk
          · cases hn
          · obtain rfl : j = 0 := Int64.toInt_inj.1 hj
            exact ⟨r, r.shifted_zero⟩
      obtain ⟨u, hu⟩ := hshift
      exact ⟨u, applyAvoiding_var_eq_ok.2 (.inr ⟨y, t, j, he, .inr ⟨hmem, r, hr, hu⟩⟩)⟩
termination_by s.pending expanding
decreasing_by exact pending_cons_lt (mem_names_of_get? hget) hmem

end Model

/-- **The unifier of two terms with a common instance can be applied to both**, when the numbers in
the terms are such that unification is complete. It makes them the same term, which is as general as
the common instances are: each of them is an instance of it. -/
theorem exists_apply_eq_of_instance {a b u : Term} {θ : String → Term} {n : Nat}
    {s : Substitution} (hm : max a.magnitude b.magnitude *
      (4 * (a.variableNames ∪ b.variableNames).size + 4) < 2 ^ 63)
    (ha : a.substitute θ = .ok u) (hb : b.substitute θ = .ok u)
    (h : mgu? n a b = some (some s)) :
    ∃ t, s.apply a = .ok t ∧ s.apply b = .ok t ∧ t.substitute θ = .ok u := by
  obtain ⟨B, v, hB, hv, hva, hab⟩ := exists_within_of_instance hm ha hb
  obtain ⟨al⟩ := nonempty_aliasing_of_mgu? h
  have hs : Model.free.Solves v s :=
    Model.solves_free (unified_of_mgu? h) ⟨.empty⟩ (fun x t hx ↦ nomatch hx) (by simpa using hab)
  obtain ⟨t, ht⟩ : ∃ t, s.apply a = .ok t := Model.exists_applyAvoiding hB hv al hs hva
  obtain ⟨t', ht'⟩ : ∃ t, s.apply b = .ok t := Model.exists_applyAvoiding hB hv al hs (hab ▸ hva)
  have hacyclic : s.Acyclic := Model.acyclic_of_solves hs
  obtain rfl := Model.apply_unique hacyclic al (fun w ↦ Model.eval_eq_of_mgu? h) ht ht'
  refine ⟨t, ht, ht', Model.substitute_eq_ok_iff.2 ?_⟩
  rw [Model.eval_substitute ha,
    Model.eval_apply hacyclic al (solves_of_instance ha hb h) (fun _ _ _ ↦ rfl) ht]

/-- The terms `f(x, 3)` and `f(u + 1, u)`: an offset is accepted before its variable is given the
integer that absorbs it. -/
theorem exists_apply_eq_of_instance_int :
    let a := Term.app "f" [.var "x" 0, .const (.int 3)]
    let b := Term.app "f" [.var "u" 1, .var "u" 0]
    let θ : String → Term := fun x ↦ .const (.int (if x = "x" then 4 else 3))
    max a.magnitude b.magnitude * (4 * (a.variableNames ∪ b.variableNames).size + 4) < 2 ^ 63 ∧
      ∃ u s, a.substitute θ = .ok u ∧ b.substitute θ = .ok u ∧ mgu? 2 a b = some (some s) ∧
        ∃ t, s.apply a = .ok t ∧ s.apply b = .ok t ∧ t.substitute θ = .ok u := by
  intro a b θ
  have hm : max a.magnitude b.magnitude *
      (4 * (a.variableNames ∪ b.variableNames).size + 4) < 2 ^ 63 := by decide +kernel
  have ha : a.substitute θ = .ok (.app "f" [.const (.int 4), .const (.int 3)]) := by
    decide +kernel
  have hb : b.substitute θ = .ok (.app "f" [.const (.int 4), .const (.int 3)]) := by
    decide +kernel
  have h : mgu? 2 a b =
      some (some (.ofList [("x", .var "u" 1), ("u", .const (.int 3))])) := by decide +kernel
  exact ⟨hm, _, _, ha, hb, h, exists_apply_eq_of_instance hm ha hb h⟩

/-- An acyclic unifier of terms without common variables that cannot be applied to one of them. -/
theorem not_forall_exists_apply_of_mgu? : ¬ ∀ n a b s,
    a.variableNames.isDisjoint b.variableNames → mgu? n a b = some (some s) → s.Acyclic →
      (∃ t, s.apply a = .ok t) ∧ ∃ t, s.apply b = .ok t := by
  intro h
  have hs : mgu? 2 (.app "f" [.var "x" 0, .const (.symbol "A")])
      (.app "f" [.var "u" 1, .var "u" 0]) =
        some (some (.ofList [("x", .var "u" 1), ("u", .const (.symbol "A"))])) := by
    decide +kernel
  have hacyclic := (shallow_of_mgu? (o := .any) (by decide +kernel) (by decide +kernel) hs).acyclic
  obtain ⟨-, t, ht⟩ := h _ _ _ _ (by decide +kernel) hs hacyclic
  have herror : (Substitution.ofList [("x", .var "u" 1), ("u", .const (.symbol "A"))]).apply
      (.app "f" [.var "u" 1, .var "u" 0]) = .error ⟨"u", 1, .const (.symbol "A")⟩ := by
    decide +kernel
  cases herror.symm.trans ht

end OffsetLogic
