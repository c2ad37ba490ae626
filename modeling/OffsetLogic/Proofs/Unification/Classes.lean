import OffsetLogic.Proofs.Semantics.Free

/-!
# Members of a class resolve alike

The bindings of variables to variables form a graph whose edges carry offsets, and the classes of
names are its connected components. A unifier rewires these edges whenever two classes are joined,
so that a class is a cycle with trees hanging off it, and the walk from a name sees only what lies
between the name and the cycle. Nevertheless the walk answers for the whole class.

* Every name has a height over its representative, and an edge is the difference of two heights. So
  the offsets along any path depend on its ends only (`Substitution.Aliasing.of_connected`), and
  **around a cycle they add up to zero**.
* The walk ends at the representative, which is the **least** name of the class if the class has no
  value, at the height of the name that it started from. So two members of a class resolve to the
  same variable or to the same value, as far apart as they are themselves.

The statement speaks of the bindings alone. `Connected` follows them forth and back and adds up
their offsets as integers, and representatives and heights, which are found in the proof, do not
occur in it. That the two descriptions are the same is `Substitution.Aliasing.of_connected` in one
direction and `Substitution.Aliasing.connected_root` in the other.

Sums along a path are unbounded, while resolving adds up words and fails where a sum is out of
range. So the statement is about names that can be resolved, and says nothing of whether they can.
It also covers names without any binding: they are alone in their classes, and least there.

How far apart two results are is said by `Term.IsMoved`. Variables and integers can be moved;
symbols and applications cannot, so for these it says that both results are the same and the
distance is zero.
-/

namespace OffsetLogic

open Substitution

variable {n : Nat} {es : List (Term × Term)} {s : Substitution} {x y z w : String} {d e : Int}
variable {j k : Int64} {t u : Term}

/-! ### Connected names -/

/-- The bindings of variables to variables lead from `x` to `y`, each followed in its direction or
against it, and their offsets add up to `d`: wherever they hold, `x` stands for `y` moved by `d`. -/
inductive Substitution.Connected (s : Substitution) : String → String → Int → Prop where
  | refl (x : String) : Connected s x x 0
  /-- A binding is followed from the variable that it binds. -/
  | forth {x y z : String} {k : Int64} {d : Int} : s.get? x = some (.var y k) →
      Connected s y z d → Connected s x z (k.toInt + d)
  /-- A binding is followed to the variable that it binds. -/
  | back {x y z : String} {k : Int64} {d : Int} : s.get? y = some (.var x k) →
      Connected s y z d → Connected s x z (d - k.toInt)

/-- The name is the least one of the class of `x`. -/
def Substitution.IsLeast (s : Substitution) (x z : String) : Prop :=
  (∃ d, s.Connected x z d) ∧ ∀ w d, s.Connected x w d → z ≤ w

/-- `t` is `u` moved by `d`, which only variables and integers can be. -/
inductive Term.IsMoved (d : Int) : Term → Term → Prop where
  | same {t : Term} : d = 0 → IsMoved d t t
  | var {x : String} {j k : Int64} : j.toInt = k.toInt + d → IsMoved d (.var x j) (.var x k)
  | int {m n : Int64} : m.toInt = n.toInt + d → IsMoved d (.const (.int m)) (.const (.int n))

/-- Two shifts of one term are as far apart as their offsets. -/
theorem Term.IsMoved.of_shifted {r : Term} (ht : r.shifted j = some t) (hu : r.shifted k = some u) :
    t.IsMoved (j.toInt - k.toInt) u := by
  -- what cannot be moved was moved by zero
  have hzero : (∀ i, r.shifted i = if i = 0 then some r else none) →
      t.IsMoved (j.toInt - k.toInt) u := by
    intro hr
    rw [hr] at ht hu
    split at ht
    · rename_i hj
      split at hu
      · rename_i hk
        rw [← Option.some.inj ht, ← Option.some.inj hu]
        exact .same (by simp [hj, hk])
      · cases hu
    · cases ht
  cases r with
  | app g ts => exact hzero fun i ↦ rfl
  | var x i =>
    rw [Term.shifted_var] at ht hu
    obtain ⟨l, hl, rfl⟩ := Option.map_eq_some_iff.1 ht
    obtain ⟨m, hm, rfl⟩ := Option.map_eq_some_iff.1 hu
    exact .var (by rw [Int64.add?_eq_some_iff.1 hl, Int64.add?_eq_some_iff.1 hm]; omega)
  | const a =>
    cases a with
    | symbol a => exact hzero fun i ↦ rfl
    | int i =>
      rw [Term.shifted_int] at ht hu
      obtain ⟨l, hl, rfl⟩ := Option.map_eq_some_iff.1 ht
      obtain ⟨m, hm, rfl⟩ := Option.map_eq_some_iff.1 hu
      exact .int (by rw [Int64.add?_eq_some_iff.1 hl, Int64.add?_eq_some_iff.1 hm]; omega)

namespace Substitution

namespace Aliasing

variable (al : s.Aliasing)

include al

/-- A path stays in the class, and its offset is the difference of the heights of its ends. -/
theorem of_connected (h : s.Connected x y d) :
    al.root x = al.root y ∧ al.height x = al.height y + d := by
  induction h with
  | refl x => exact ⟨rfl, (Int.add_zero _).symm⟩
  | forth hxy _ ih =>
    obtain ⟨hroot, hheight, -⟩ := al.link hxy
    exact ⟨hroot.trans ih.1, by omega⟩
  | back hyx _ ih =>
    obtain ⟨hroot, hheight, -⟩ := al.link hyx
    exact ⟨hroot.symm.trans ih.1, by omega⟩

/-- Every name is connected to its representative, at its height. -/
theorem connected_root (x : String) : s.Connected x (al.root x) (al.height x) := by
  induction hd : al.depth x using Nat.strongRecOn generalizing x with
  | ind d ih =>
    subst hd
    by_cases hx : al.root x = x
    · rw [hx, al.height_eq_zero hx]
      exact .refl x
    · obtain ⟨y, k, hxy⟩ := al.exists_link hx
      obtain ⟨hroot, hheight, hdepth⟩ := al.link hxy
      rw [hroot, hheight, Int.add_comm]
      exact .forth hxy (ih _ (hdepth hx) y rfl)

/-- A representative without a value is the least name of its class. -/
theorem isLeast_root (hx : ¬ s.Rigid (al.root x)) : s.IsLeast x (al.root x) := by
  refine ⟨⟨_, al.connected_root x⟩, fun w d hw ↦ ?_⟩
  have hroot := (al.of_connected hw).1
  exact hroot ▸ al.least (hroot ▸ hx)

/-- Names of one class resolve to the least name of the class, or to its value, and the results are
as far apart as what was resolved. -/
theorem resolve_of_connected (h : s.Connected x y d) (ht : s.resolve (.var x j) = some t)
    (hu : s.resolve (.var y k) = some u) :
    t.IsMoved (j.toInt + d - k.toInt) u ∧ ∀ z i, t = .var z i → s.IsLeast x z := by
  obtain ⟨hroot, hheight⟩ := al.of_connected h
  obtain ⟨_, _, i, hx, rfl, hi, hfree⟩ | ⟨_, _, i, r, hx, hr, hrv, hi, ht⟩ | ⟨htv, -⟩ :=
    al.resolve_cases ht
  · cases hx
    obtain ⟨_, _, l, hy, rfl, hl, -⟩ | ⟨_, _, l, r, hy, hr, hrv, -, -⟩ | ⟨huv, -⟩ :=
      al.resolve_cases hu
    · cases hy
      refine ⟨hroot ▸ .var (by omega), fun z m hz ↦ ?_⟩
      rw [← (Term.var.inj hz).1]
      exact al.isLeast_root hfree
    · cases hy
      exact absurd ⟨r, hr, hrv⟩ (hroot ▸ hfree)
    · cases huv
  · cases hx
    obtain ⟨_, _, l, hy, rfl, -, hfree⟩ | ⟨_, _, l, r', hy, hr', -, hl, hu⟩ | ⟨huv, -⟩ :=
      al.resolve_cases hu
    · cases hy
      exact absurd ⟨r, hr, hrv⟩ (hroot ▸ hfree)
    · cases hy
      rw [← hroot, hr] at hr'
      obtain rfl := Option.some.inj hr'
      have hd : j.toInt + d - k.toInt = i.toInt - l.toInt := by omega
      refine ⟨hd ▸ .of_shifted ht hu, fun z m hz ↦ ?_⟩
      cases hz ▸ (Term.isVariable_of_shifted ht).trans hrv
    · cases huv
  · cases htv

end Aliasing

end Substitution

/-! ### Classes of a unifier -/

/-- **Alias classes resolve to one representative.** After equations were solved one after another
from no bindings, offsets add up to zero around every cycle of bindings of variables to variables.
When two names of one class are resolved, the results are the same variable, and it is the least
name of the class, or the same value, and they are as far apart as what was resolved. -/
theorem resolve_of_unifyAll (h : (unifyAll n es ∅).run = some (some s)) :
    (∀ x d, s.Connected x x d → d = 0) ∧
    ∀ x y d j k t u, s.Connected x y d → s.resolve (.var x j) = some t →
      s.resolve (.var y k) = some u →
      t.IsMoved (j.toInt + d - k.toInt) u ∧ ∀ z i, t = .var z i → s.IsLeast x z := by
  obtain ⟨al⟩ := (unified_of_unifyAll h).aliasing ⟨.empty⟩
  refine ⟨fun x d hd ↦ ?_, fun x y d j k t u hxy ht hu ↦ al.resolve_of_connected hxy ht hu⟩
  have hheight := (al.of_connected hd).2
  omega

/-- The equations `c + 1 = b`, `b = a + 2`, `u = v + 1` and `v = 3` leave `c ↦ b - 1`, `b ↦ a + 2`,
`a ↦ b - 2`, `u ↦ 4` and `v ↦ u - 1`. The names `c` and `a` are 1 apart, and so are `u` and `v`. -/
theorem resolve_of_unifyAll_two_classes : ∃ s,
    (unifyAll 2 [(.var "c" 1, .var "b" 0), (.var "b" 0, .var "a" 2), (.var "u" 0, .var "v" 1),
      (.var "v" 0, .const (.int 3))] ∅).run = some (some s) ∧
    (∀ d, s.Connected "b" "b" d → d = 0) ∧
    (s.Connected "c" "a" 1 ∧ s.resolve (.var "c" 0) = some (.var "a" 1) ∧
      s.resolve (.var "a" 5) = some (.var "a" 5) ∧
      (Term.var "a" 1).IsMoved (0 + 1 - 5) (.var "a" 5) ∧ s.IsLeast "c" "a") ∧
    (s.Connected "u" "v" 1 ∧ s.resolve (.var "u" 2) = some (.const (.int 6)) ∧
      s.resolve (.var "v" 0) = some (.const (.int 3)) ∧
      (Term.const (.int 6)).IsMoved (2 + 1 - 0) (.const (.int 3))) := by
  let s : Substitution := .ofList [("c", .var "b" (-1)), ("b", .var "a" 2), ("a", .var "b" (-2)),
    ("u", .const (.int 4)), ("v", .var "u" (-1))]
  have hs : (unifyAll 2 [(.var "c" 1, .var "b" 0), (.var "b" 0, .var "a" 2),
      (.var "u" 0, .var "v" 1), (.var "v" 0, .const (.int 3))] ∅).run = some (some s) := by
    decide +kernel
  have hca : s.Connected "c" "a" 1 := .forth (y := "b") (k := -1) (by decide +kernel)
    (.forth (y := "a") (k := 2) (by decide +kernel) (.refl "a"))
  have huv : s.Connected "u" "v" 1 := .back (y := "v") (k := -1) (by decide +kernel) (.refl "v")
  have hc : s.resolve (.var "c" 0) = some (.var "a" 1) := by decide +kernel
  have ha : s.resolve (.var "a" 5) = some (.var "a" 5) := by decide +kernel
  have hu : s.resolve (.var "u" 2) = some (.const (.int 6)) := by decide +kernel
  have hv : s.resolve (.var "v" 0) = some (.const (.int 3)) := by decide +kernel
  obtain ⟨hcycle, hresolve⟩ := resolve_of_unifyAll hs
  obtain ⟨hmoved, hleast⟩ := hresolve _ _ _ _ _ _ _ hca hc ha
  obtain ⟨hmoved', -⟩ := hresolve _ _ _ _ _ _ _ huv hu hv
  exact ⟨s, hs, hcycle "b", ⟨hca, hc, ha, hmoved, hleast _ _ rfl⟩, huv, hu, hv, hmoved'⟩

end OffsetLogic
