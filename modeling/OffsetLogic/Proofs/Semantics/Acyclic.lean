import Mathlib.Data.Finset.Card
import Mathlib.Logic.Relation
import OffsetLogic.Proofs.Semantics.Model
import OffsetLogic.Proofs.Substitution.Applied

/-!
# Acyclic substitutions

Unification does without an occurs check, so a binding may lead through the arguments of a function
back to its own alias class. Applying such a substitution leaves some occurrences in place, and the
image of a clause need not follow from the clause. A substitution is `Acyclic` when this does not
happen.

An acyclic substitution has a **solution over every choice** of values for the names that represent
their class and have no value (`Model.exists_solves`). To apply the substitution and then evaluate
is the same as to evaluate in that solution (`Model.eval_apply`), so images of clauses are instances
(`Model.TrueAt.apply`).

## Cycles that do not count

Bindings of variables to variables run in cycles all the time, since an equation between two
variables is kept in both directions. These are harmless: they say that the members of a class stand
at fixed distances. `LeadsTo` therefore goes from class to class, and only through the arguments of
an application, and acyclic means that it has no cycle.

## The solution

It is built by expanding the values of representatives, `n` times in each other (`Model.expanded`).
Each expansion goes to names below in the sense of `LeadsTo`, of which there are finitely many, and
fewer at each step (`Substitution.Acyclic.card_below_lt`). So the values no longer change after as
many expansions as there are bound names, and the values that have come to rest solve the bindings.
Nothing about the model is used, so the same argument gives solutions over every domain.

When an image is evaluated, the names that are being expanded are remembered, and the invariant is
that each of them leads to all variables of the term at hand. None of them can then be met again, so
no occurrence is left in place.
-/

namespace OffsetLogic

namespace Substitution

open Relation

/-- The names are connected by bindings of variables to variables. -/
def Alias (s : Substitution) : String → String → Prop :=
  EqvGen fun x y ↦ ∃ k, s.get? x = some (.var y k)

/-- A name in the class of `x` is bound to an application that contains a name in the class of
`y`. -/
def LeadsTo (s : Substitution) (x y : String) : Prop :=
  ∃ x' y' g ts, s.Alias x x' ∧ s.get? x' = some (.app g ts) ∧
    y' ∈ (Term.app g ts).occurrences ∧ s.Alias y' y

/-- No binding leads through arguments of functions back to its own alias class. -/
def Acyclic (s : Substitution) : Prop := ∀ x, ¬ TransGen s.LeadsTo x x

variable {s : Substitution} {x y z : String}

/-- Leading to a name is leading to its class. -/
theorem LeadsTo.trans_alias (h : s.LeadsTo x y) (hyz : s.Alias y z) : s.LeadsTo x z := by
  obtain ⟨x', y', g, ts, hx, hget, hy, hyy⟩ := h
  exact ⟨x', y', g, ts, hx, hget, hy, hyy.trans _ _ _ hyz⟩

/-- Every name is connected to its representative. -/
theorem Aliasing.alias_root (al : s.Aliasing) (x : String) : s.Alias x (al.root x) := by
  induction hd : al.depth x using Nat.strongRecOn generalizing x with
  | ind d ih =>
    subst hd
    by_cases hx : al.root x = x
    · rw [hx]
      exact .refl x
    · obtain ⟨y, k, hxy⟩ := al.exists_link hx
      obtain ⟨hroot, -, hdepth⟩ := al.link hxy
      exact .trans _ _ _ (.rel _ _ ⟨k, hxy⟩) (hroot ▸ ih _ (hdepth hx) y rfl)

/-- No binding that is being expanded is met again. -/
theorem Acyclic.root_notMem (hs : s.Acyclic) (al : s.Aliasing) {expanding : List String}
    (hexp : ∀ e ∈ expanding, TransGen s.LeadsTo e x) : al.root x ∉ expanding := by
  intro hmem
  -- the representative would lead to `x`, and so to itself
  obtain ⟨z, hz, hzx⟩ := TransGen.tail'_iff.1 (hexp _ hmem)
  exact hs (al.root x) (TransGen.tail'_iff.2 ⟨z, hz, hzx.trans_alias (al.alias_root x)⟩)

/-- A name leads to all variables of the value that it is bound to. -/
theorem leadsTo_of_mem_value {r : Term} (hr : s.get? x = some r) (hrv : r.isVariable = false)
    (hy : y ∈ r.occurrences) : s.LeadsTo x y := by
  cases r with
  | var => cases hrv
  | const => cases hy
  | app g ts => exact ⟨x, y, g, ts, .refl x, hr, hy, .refl y⟩

/-- While the value of a representative is expanded, it and what was being expanded lead to all
variables of the value. -/
theorem Aliasing.leadsTo_of_expanding (al : s.Aliasing) {expanding : List String} {r : Term}
    (hexp : ∀ e ∈ expanding, TransGen s.LeadsTo e x) (hr : s.get? (al.root x) = some r)
    (hrv : r.isVariable = false) (hy : y ∈ r.occurrences) :
    ∀ e ∈ al.root x :: expanding, TransGen s.LeadsTo e y := by
  intro e he
  have hlead : s.LeadsTo (al.root x) y := leadsTo_of_mem_value hr hrv hy
  rcases List.mem_cons.1 he with rfl | he
  · exact .single hlead
  · obtain ⟨z, hz, hzx⟩ := TransGen.tail'_iff.1 (hexp e he)
    exact (TransGen.tail'_iff.2 ⟨z, hz, hzx.trans_alias (al.alias_root x)⟩).tail hlead

open Classical in
/-- The bound names that a name leads to. -/
noncomputable def below (s : Substitution) (x : String) : Finset String :=
  s.names.toFinset.filter fun y ↦ TransGen s.LeadsTo x y

theorem mem_below : y ∈ s.below x ↔ y ∈ s.names ∧ TransGen s.LeadsTo x y := by
  classical
  simp [below]

theorem card_below_le (x : String) : (s.below x).card ≤ s.names.length :=
  (Finset.card_le_card fun _ hy ↦ List.mem_toFinset.2 (mem_below.1 hy).1).trans
    (List.toFinset_card_le _)

/-- Below a bound name that something leads to there is less. -/
theorem Acyclic.card_below_lt (hs : s.Acyclic) (h : s.LeadsTo x y) (hy : y ∈ s.names) :
    (s.below y).card < (s.below x).card := by
  refine Finset.card_lt_card ((Finset.ssubset_iff_of_subset fun z hz ↦ ?_).2 ⟨y, ?_, ?_⟩)
  · obtain ⟨hz, hyz⟩ := mem_below.1 hz
    exact mem_below.2 ⟨hz, hyz.head h⟩
  · exact mem_below.2 ⟨hy, .single h⟩
  · exact fun hmem ↦ hs y (mem_below.1 hmem).2

end Substitution

open Relation Substitution

universe u

namespace Model

variable {D : Type u} {M : Model D} {s : Substitution} {v w : String → D} {x : String} {t u : Term}

/-! ### Solutions of acyclic bindings -/

/-- The values of the names after the bindings of representatives were expanded `n` times. -/
def expanded (M : Model D) (al : s.Aliasing) (v : String → D) : Nat → String → D
  | 0, x => M.shift (v (al.root x)) (al.height x)
  | n + 1, x =>
    let value :=
      match s.get? (al.root x) with
      | none | some (.var ..) => v (al.root x)
      | some t => M.eval (M.expanded al v n) t
    M.shift value (al.height x)

/-- A class without a value keeps the value that was chosen for its representative. -/
theorem expanded_of_not_rigid {al : s.Aliasing} (hx : ¬ s.Rigid (al.root x)) (n : Nat) :
    M.expanded al v n x = M.shift (v (al.root x)) (al.height x) := by
  cases n with
  | zero => rfl
  | succ n =>
    rw [expanded]
    split
    · rfl
    · rfl
    · rename_i t hvar ht
      exact absurd ⟨t, ht, Term.isVariable_eq_false hvar⟩ hx

/-- A class with a value is evaluated with the values of one expansion less. -/
theorem expanded_succ_of_rigid {al : s.Aliasing} (hx : s.get? (al.root x) = some t)
    (ht : t.isVariable = false) (n : Nat) :
    M.expanded al v (n + 1) x = M.shift (M.eval (M.expanded al v n) t) (al.height x) := by
  rw [expanded, hx]
  cases t with
  | var => cases ht
  | const | app => rfl

/-- A name stands at its height above its representative, after any number of expansions. -/
theorem expanded_eq_root {al : s.Aliasing} (n : Nat) (x : String) :
    M.expanded al v n x = M.shift (M.expanded al v n (al.root x)) (al.height x) := by
  cases n <;> simp [expanded, al.root_root, al.height_root, M.shift_zero]

/-- Expanding is finished after as many times as there are bound names below. -/
theorem expanded_succ (hs : s.Acyclic) {al : s.Aliasing} {n : Nat} (x : String)
    (hn : (s.below (al.root x)).card ≤ n) :
    M.expanded al v (n + 2) x = M.expanded al v (n + 1) x := by
  by_cases hx : s.Rigid (al.root x)
  · obtain ⟨t, hget, ht⟩ := hx
    rw [expanded_succ_of_rigid hget ht, expanded_succ_of_rigid hget ht]
    refine congrArg (M.shift · _) (eval_congr fun y hy ↦ ?_)
    by_cases hry : s.Rigid (al.root y)
    · obtain ⟨r, hr, hrv⟩ := hry
      -- what the value of `x` mentions is below `x`, where fewer bound names are left
      have hlead : s.LeadsTo (al.root x) (al.root y) :=
        (leadsTo_of_mem_value hget ht hy).trans_alias (al.alias_root y)
      have hlt := hs.card_below_lt hlead (mem_names_of_get? hr)
      cases n with
      | zero => omega
      | succ n => exact expanded_succ hs y (by omega)
    · rw [expanded_of_not_rigid hry, expanded_of_not_rigid hry]
  · rw [expanded_of_not_rigid hx, expanded_of_not_rigid hx]
termination_by n

/-- Acyclic bindings have a solution for all values of the representatives without a value. -/
theorem exists_solves (hs : s.Acyclic) (al : s.Aliasing) (v : String → D) :
    ∃ w, M.Solves w s ∧ ∀ x, al.root x = x → ¬ s.Rigid x → w x = v x := by
  refine ⟨M.expanded al v (s.names.length + 1), (solves_iff al).2 ⟨expanded_eq_root _, ?_⟩, ?_⟩
  · intro x t hx ht
    have hroot : al.root x = x := al.root_eq fun y k hxy ↦ by
      rw [hx] at hxy
      cases hxy
      cases ht
    rw [← expanded_succ hs x (card_below_le _), expanded_succ_of_rigid (hroot.symm ▸ hx) ht,
      al.height_eq_zero hroot, M.shift_zero]
  · intro x hroot hx
    rw [expanded_of_not_rigid (hroot.symm ▸ hx), hroot, al.height_eq_zero hroot, M.shift_zero]

/-! ### Images are instances -/

/-- A rebuilt term has the value that its variables have. -/
theorem eval_of_bindM {ε : Type} {f : String → Int64 → Except ε Term}
    (hf : ∀ x k r, x ∈ t.occurrences → f x k = .ok r → M.eval v r = M.eval w (.var x k))
    (h : t.bindM f = .ok u) : M.eval v u = M.eval w t := by
  induction t generalizing u with
  | const a =>
    cases h
    cases a <;> rfl
  | var x k => exact hf x k u (List.mem_singleton_self x) h
  | app g ts ih =>
    obtain ⟨us, hus, rfl⟩ := Term.bindM_app_eq_ok.1 h
    rw [eval, eval, evalArgs_eq_map, evalArgs_eq_map]
    refine congrArg _ (map_eq_map_of_mapM_eq_ok hus fun t ht u hu ↦ ih t ht ?_ hu)
    exact fun x k r hx ↦ hf x k r (Term.mem_occurrences_app.2 ⟨t, ht, hx⟩)

/-- The image of a term has the value that the term has in the solution. No name that is being
expanded is met again, since each leads to all variables of the term. -/
theorem eval_applyAvoiding (hs : s.Acyclic) (al : s.Aliasing) (hw : M.Solves w s)
    (hwv : ∀ x, al.root x = x → ¬ s.Rigid x → w x = v x) {expanding : List String} {t u : Term}
    (hexp : ∀ e ∈ expanding, ∀ x ∈ t.occurrences, TransGen s.LeadsTo e x)
    (h : s.applyAvoiding expanding t = .ok u) : M.eval v u = M.eval w t := by
  rw [applyAvoiding_eq_bindM] at h
  refine eval_of_bindM (fun x k r hx hr ↦ ?_) h
  obtain ⟨y, j, hfollow, rfl⟩ | ⟨y, t', j, hfollow, hy⟩ := applyAvoiding_var_eq_ok.1 hr
  · obtain ⟨rfl, hj, hy⟩ := al.follow_free hfollow
    rw [eval, eval, ((solves_iff al).1 hw).1 x, M.shift_shift, hj, hwv _ (al.root_root x) hy,
      Int.add_comm]
  · have hplace := eval_of_follow_bound al hw hfollow
    obtain ⟨rfl, -, hget, ht'⟩ := al.follow_bound hfollow
    have hexp' : ∀ e ∈ expanding, TransGen s.LeadsTo e x := fun e he ↦ hexp e he x hx
    obtain ⟨hmem, -⟩ | ⟨hmem, r', hr', hshift⟩ := hy
    · exact absurd hmem (hs.root_notMem al hexp')
    · have := eval_applyAvoiding hs al hw hwv
        (fun e he z hz ↦ al.leadsTo_of_expanding hexp' hget ht' hz e he) hr'
      rw [eval_shifted hshift, this, hplace]
termination_by s.pending expanding
decreasing_by exact pending_cons_lt (mem_names_of_get? hget) hmem

/-- Applying first and evaluating in the solution come to the same; at the beginning nothing is
being expanded. -/
theorem eval_apply (hs : s.Acyclic) (al : s.Aliasing) (hw : M.Solves w s)
    (hwv : ∀ x, al.root x = x → ¬ s.Rigid x → w x = v x) (h : s.apply t = .ok u) :
    M.eval v u = M.eval w t := by
  rw [apply] at h
  exact eval_applyAvoiding hs al hw hwv (fun e he ↦ absurd he List.not_mem_nil) h

/-- The image of a clause is true where the clause is true in the solution. -/
theorem TrueAt.apply {c d : Clause} (hc : M.TrueAt w c) (hs : s.Acyclic) (al : s.Aliasing)
    (hw : M.Solves w s) (hwv : ∀ x, al.root x = x → ¬ s.Rigid x → w x = v x)
    (h : c.apply s = .ok d) : M.TrueAt v d := by
  have hlit : ∀ t u, s.apply t = .ok u → (M.Holds (M.eval v u) ↔ M.Holds (M.eval w t)) :=
    fun t u hu ↦ by rw [eval_apply hs al hw hwv hu]
  refine hc.map (fun t ht ↦ ?_) fun t ht ↦ ?_
  · obtain ⟨u, hu, himage⟩ := Clause.exists_image_of_mem_pos h ht
    exact ⟨u, hu, hlit t u himage⟩
  · obtain ⟨u, hu, himage⟩ := Clause.exists_image_of_mem_neg h ht
    exact ⟨u, hu, hlit t u himage⟩

/-- A model of a clause is a model of its images. -/
theorem Satisfies.apply {c d : Clause} (hM : M.Satisfies c) (hs : s.Acyclic) (al : s.Aliasing)
    (h : c.apply s = .ok d) : M.Satisfies d := by
  intro v
  obtain ⟨w, hw, hwv⟩ := exists_solves (M := M) hs al v
  exact (hM w).apply hs al hw hwv h

end Model

end OffsetLogic
