import OffsetLogic.Proofs.Term.Places
import OffsetLogic.Proofs.Unification.Classes

/-!
# Applying twice

To apply a unifier is to resolve every variable completely: nothing is left to do the second time.
This is not plain from the bindings, because a representative is itself bound, to another member of
its class, so the second application walks around the cycle once more.

**The walk comes back.** It does so because the offsets around a cycle add up to zero. The places
that a successful walk visits are then closed under going on (`Retraced`), so a walk from any of
them meets no sum out of range (`Retraced.followFrom_ne_error`), and the one from its end comes back
there (`Aliasing.follow_follow`).

When the bindings are acyclic, every variable of an image is the end of a walk
(`Acyclic.follow_of_mem_places`), since no occurrence was left in place.

## Why overflow has to be excluded

A walk adds up offsets in words and fails when a sum is out of range. The second walk takes the same
bindings from another starting point on the cycle, with another offset, so it could meet a sum that
the first one did not. It does not, because the sums of both are determined by the heights of the
names: at a name that both pass, both have the same sum. A set of places, names with sums, that one
walk has passed is a set that no walk from within it leaves. The example has an offset at the very
end of the range, where this matters.

## What an image mentions

An image mentions names that represent their class. Such a name may be unbound, or be bound to
another member of its class; in the second case it is still the least of the class, and every member
resolves to it (`Represents`). That is the sense in which nothing is left to resolve.
-/

namespace OffsetLogic

open Relation Substitution

variable {n : Nat} {es : List (Term × Term)} {s : Substitution} {x y : String} {j k : Int64}
variable {t u : Term} {e : String × Int64}

namespace Substitution

/-! ### Walks that can be repeated -/

/-- From each of the places the walk goes on to another one of them, or ends there. -/
def Retraced (s : Substitution) (places : Set (String × Int64)) : Prop :=
  ∀ e ∈ places, ∀ y l, s.get? e.1 = some (.var y l) → ∃ j, e.2.add? l = some j ∧ (y, j) ∈ places

/-- A walk that starts from places that it does not leave meets no sum out of range. -/
theorem Retraced.followFrom_ne_error {places : Set (String × Int64)} (h : s.Retraced places)
    {path : List (String × Int64)} (hx : (x, k) ∈ places) (err : ShiftError) :
    s.followFrom path x k ≠ .error err := by
  fun_induction followFrom s path x k with
  | case1 | case2 | case5 =>
    intro herr
    cases herr
  | case3 path x k _ y l hget j hj ih =>
    obtain ⟨j', hj', hmem⟩ := h _ hx y l hget
    rw [hj] at hj'
    obtain rfl := Option.some.inj hj'
    exact ih hmem
  | case4 path x k _ y l hget hj =>
    obtain ⟨j, hj', -⟩ := h _ hx y l hget
    rw [hj] at hj'
    cases hj'

/-- The least entry of a part of a path is on the path. -/
theorem mem_of_leastSince {path : List (String × Int64)} (h : leastSince x path = some e) :
    e ∈ path := by
  induction path generalizing e with
  | nil => cases h
  | cons e' path ih =>
    rw [leastSince] at h
    split at h
    · exact Option.some.inj h ▸ List.mem_cons_self
    · obtain ⟨least, hleast, rfl⟩ := Option.map_eq_some_iff.1 h
      split
      · exact List.mem_cons_self
      · exact List.mem_cons_of_mem _ (ih hleast)

namespace Aliasing

/-- Each entry of a path goes on to another entry or to where the path leads. -/
theorem Trail.exists_next {path : List (String × Int64)} (h : Trail s path x k) (he : e ∈ path) :
    ∃ y l j, s.get? e.1 = some (.var y l) ∧ e.2.add? l = some j ∧
      ((y, j) = (x, k) ∨ (y, j) ∈ path) := by
  induction h with
  | nil => cases he
  | @cons path x y j k l _ hx hj ih =>
    rcases List.mem_cons.1 he with rfl | he
    · exact ⟨y, l, j, hx, Int64.add?_eq_some_iff.2 hj, .inl rfl⟩
    · obtain ⟨y', l', j', hget, hadd, hnext⟩ := ih he
      refine ⟨y', l', j', hget, hadd, .inr ?_⟩
      rcases hnext with hnext | hnext
      · exact hnext ▸ List.mem_cons_self
      · exact List.mem_cons_of_mem _ hnext

variable (al : s.Aliasing)

include al

/-- All entries of a path lie in one class, each at its place. -/
theorem height_of_mem_trail {path : List (String × Int64)} (h : Trail s path x k) (he : e ∈ path) :
    e.2.toInt + al.height e.1 = k.toInt + al.height x := by
  induction h with
  | nil => cases he
  | cons _ hx hj ih =>
    have hlink := (al.link hx).2.1
    rcases List.mem_cons.1 he with rfl | he
    · dsimp only
      omega
    · have := ih he
      omega

/-- The places of a walk that ends at a variable can be walked through again. -/
theorem exists_retraced {path : List (String × Int64)} (hpath : Trail s path x k)
    (h : s.followFrom path x k = .ok (.free y j)) :
    ∃ places, s.Retraced places ∧ (y, j) ∈ places := by
  fun_induction followFrom s path x k with
  | case1 path x k y' j' hleast =>
    cases h
    refine ⟨{e | e ∈ path}, fun e he z l hz ↦ ?_, mem_of_leastSince hleast⟩
    obtain ⟨z', l', i, hget, hadd, hnext⟩ := hpath.exists_next he
    rw [hz] at hget
    cases hget
    refine ⟨i, hadd, ?_⟩
    rcases hnext with hnext | hnext
    · cases hnext
      -- where the walk came back, it came back with the offset of the first time
      have hseen : x ∈ path.map Prod.fst := by
        by_contra hno
        rw [leastSince_eq_none_iff.2 hno] at hleast
        cases hleast
      obtain ⟨⟨z, i⟩, hmem, rfl⟩ := List.mem_map.1 hseen
      have hplace := al.height_of_mem_trail hpath hmem
      have hoffset : i = k := Int64.toInt_inj.1 (by dsimp only at hplace; omega)
      exact hoffset ▸ hmem
    · exact hnext
  | case2 path x k _ hx =>
    cases h
    refine ⟨{(y, j)}, ?_, rfl⟩
    rintro e rfl z l hz
    rw [hx] at hz
    cases hz
  | case3 path x k _ y' l hx j' hj ih =>
    exact ih (.cons hpath hx (Int64.add?_eq_some_iff.1 hj)) h
  | case4 => cases h
  | case5 => cases h

/-- A walk that ends at a variable, taken up again from there, comes back to it. -/
theorem follow_follow (h : s.follow x k = .ok (.free y j)) :
    s.follow y j = .ok (.free y j) := by
  obtain ⟨hy, -, hfree⟩ := al.follow_free h
  have hroot : al.root y = y := hy ▸ al.root_root x
  obtain ⟨places, hplaces, hmem⟩ := al.exists_retraced .nil h
  cases hwalk : s.follow y j with
  | error err => exact absurd hwalk (hplaces.followFrom_ne_error hmem err)
  | ok endpoint =>
    cases endpoint with
    | free z i =>
      obtain ⟨hz, hi, -⟩ := al.follow_free hwalk
      rw [al.height_eq_zero hroot, Int.add_zero] at hi
      rw [hz, hroot, Int64.toInt_inj.1 hi]
    | bound z v i =>
      obtain ⟨hz, -, hget, hv⟩ := al.follow_bound hwalk
      rw [hz, hroot] at hget
      exact absurd ⟨v, hget, hv⟩ hfree

end Aliasing

/-! ### Images -/

/-- Every variable of an image is where a walk ends. -/
theorem Acyclic.follow_of_mem_places (hs : s.Acyclic) (al : s.Aliasing) {expanding : List String}
    {t u : Term} (hexp : ∀ e ∈ expanding, ∀ x ∈ t.occurrences, TransGen s.LeadsTo e x)
    (h : s.applyAvoiding expanding t = .ok u) :
    ∀ e ∈ u.places, s.follow e.1 e.2 = .ok (.free e.1 e.2) := by
  intro e he
  rw [applyAvoiding_eq_bindM] at h
  obtain ⟨⟨x, k⟩, hx, r, hr, he⟩ := Term.mem_places_of_bindM h he
  have hx : x ∈ t.occurrences := Term.mem_occurrences_iff.2 ⟨k, hx⟩
  obtain ⟨y, j, hfollow, rfl⟩ | ⟨y, v, j, hfollow, hy⟩ := applyAvoiding_var_eq_ok.1 hr
  · rw [List.mem_singleton.1 he]
    exact al.follow_follow hfollow
  · obtain ⟨rfl, -, hget, hv⟩ := al.follow_bound hfollow
    have hexp' : ∀ e ∈ expanding, TransGen s.LeadsTo e x := fun e he ↦ hexp e he x hx
    obtain ⟨hmem, -⟩ | ⟨hmem, w, hw, hshift⟩ := hy
    · exact absurd hmem (hs.root_notMem al hexp')
    · have hwv : w.isVariable = false := by
        rw [applyAvoiding_eq_bindM] at hw
        exact Term.isVariable_of_bindM hw hv
      rw [Term.places_shifted hshift hwv] at he
      exact hs.follow_of_mem_places al
        (fun e he z hz ↦ al.leadsTo_of_expanding hexp' hget hv hz e he) hw e he
termination_by s.pending expanding
decreasing_by exact pending_cons_lt (mem_names_of_get? hget) hmem

/-- The name represents its class: it is the least name of the class, and whatever member of the
class is resolved resolves to it. -/
def Represents (s : Substitution) (y : String) : Prop :=
  s.IsLeast y y ∧ ∀ x d k t, s.Connected x y d → s.resolve (.var x k) = some t → ∃ j, t = .var y j

/-- A name at which a walk ends represents its class. -/
theorem Aliasing.represents (al : s.Aliasing) (h : s.follow y j = .ok (.free y j)) :
    s.Represents y := by
  obtain ⟨hroot, -, hfree⟩ := al.follow_free h
  have hleast : s.IsLeast y (al.root y) := al.isLeast_root (by rwa [← hroot])
  rw [← hroot] at hleast
  refine ⟨hleast, fun x d k t hx ht ↦ ?_⟩
  have hy : s.resolve (.var y j) = some (.var y j) := by rw [resolve, h]
  obtain ⟨hmoved, -⟩ := al.resolve_of_connected hx ht hy
  cases hmoved with
  | same => exact ⟨j, rfl⟩
  | var => exact ⟨_, rfl⟩

end Substitution

/-- **Applying a unifier resolves completely.** After equations were solved one after another from
no bindings, and the bindings made are acyclic, the image of a term is its own image, and every
variable of it represents its class, as a variable without a binding does. -/
theorem apply_apply_of_unifyAll (h : (unifyAll n es ∅).run = some (some s)) (hs : s.Acyclic)
    (ht : s.apply t = .ok u) : s.apply u = .ok u ∧ ∀ y ∈ u.occurrences, s.Represents y := by
  obtain ⟨al⟩ := (unified_of_unifyAll h).aliasing ⟨.empty⟩
  have hplaces := hs.follow_of_mem_places al (fun e he ↦ absurd he List.not_mem_nil) ht
  refine ⟨applyAvoiding_eq_self hplaces, fun y hy ↦ ?_⟩
  obtain ⟨j, hj⟩ := Term.mem_occurrences_iff.1 hy
  exact al.represents (hplaces _ hj)

/-- The equations `b = a + 9223372036854775807` and `w = g(b - 1)`, the first one at the limit of
the offsets, leave `a` and `b` bound to each other. The image of `f(w, b - 1, c)` mentions `a`, the
least name of its class, and `c`, which is unbound, and is its own image. -/
theorem apply_apply_of_unifyAll_maxValue : ∃ s u,
    (unifyAll 2 [(.var "b" 0, .var "a" Int64.maxValue),
      (.var "w" 0, .app "g" [.var "b" (-1)])] ∅).run = some (some s) ∧ s.Acyclic ∧
    s.get? "a" = some (.var "b" (-Int64.maxValue)) ∧ s.get? "c" = none ∧
    s.apply (.app "f" [.var "w" 0, .var "b" (-1), .var "c" 0]) = .ok u ∧
    u.occurrences = ["a", "a", "c"] ∧ s.apply u = .ok u ∧ s.Represents "a" ∧ s.Represents "c" := by
  let s : Substitution := .ofList [("b", .var "a" Int64.maxValue),
    ("a", .var "b" (-Int64.maxValue)), ("w", .app "g" [.var "b" (-1)])]
  let t : Term := .app "f" [.var "w" 0, .var "b" (-1), .var "c" 0]
  let u : Term := .app "f" [.app "g" [.var "a" (Int64.maxValue - 1)],
    .var "a" (Int64.maxValue - 1), .var "c" 0]
  have hrun : (unifyAll 2 [(.var "b" 0, .var "a" Int64.maxValue),
      (.var "w" 0, .app "g" [.var "b" (-1)])] ∅).run = some (some s) := by decide +kernel
  -- a solution in the free model shows that the bindings are acyclic
  have hsolves : Model.free.Solves (fun x ↦ if x = "w" then .app "g" [.int (2 ^ 63 - 2)] 0 else
      if x = "b" then .int (2 ^ 63 - 1) else .int 0) s := by
    refine Model.solves_free (unified_of_unifyAll hrun) ⟨.empty⟩ (fun x t hx ↦ nomatch hx) ?_
    simp [Element.shift, Int64.toInt_maxValue]
  have hs : s.Acyclic := Model.acyclic_of_solves hsolves
  have ht : s.apply t = .ok u := by decide +kernel
  obtain ⟨hu, hrep⟩ := apply_apply_of_unifyAll hrun hs ht
  exact ⟨s, u, hrun, hs, by decide +kernel, by decide +kernel, ht, by decide +kernel, hu,
    hrep "a" (by decide +kernel), hrep "c" (by decide +kernel)⟩

end OffsetLogic
